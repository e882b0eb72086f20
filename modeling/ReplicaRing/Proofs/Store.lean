import ReplicaRing.Proofs.Contents

/-!
# What a store shows

For its node a store is a *shelf* (`Shelf`): of some keys it has a copy, with a rank and the
last value. A store *shows* a shelf (`Store.Shows`) if its catalog lists the copies under their
ranks and its log keeps histories that end in their values.

Each operation of a store is one of the shelf: `Store.Shows.get`, `putReplica`, `setRank`, and
`Store.exists_openAt` for a new store.

A value is stamped with a time after the last one of its key, so times run ahead of the clock
by as many writes as there are, and bytes add up. A `Setting` says how many writes to one key
there is room for; `Store.Shows` counts them.
-/

namespace ReplicaRing

open Log

/-- What all nodes of a ring share, and the limits they keep within. -/
structure Setting where
  /-- The keys that are used. -/
  keys : Set String
  distinct : Distinct keys
  space : Space
  copies : Rank
  two_le_copies : 2 ≤ copies.toNat
  /-- No clock reads later than this. -/
  latest : Nat
  /-- No value is longer than this. -/
  longest : Nat
  /-- The number of writes to one key on one node that there is room for. -/
  budget : Nat
  latest_add_budget_lt : latest + budget < 2 ^ 64 - 1
  longest_mul_budget_lt : longest * budget < 2 ^ 64

/-- What a node holds of a key. -/
structure Copy where
  rank : Nat
  value : Bytes
deriving DecidableEq, Repr

/-- What a node holds of all keys. -/
abbrev Shelf := String → Option Copy

/-- A copy that a node of the setting may hold of a key. -/
structure Setting.Allows (E : Setting) (key : String) (c : Copy) : Prop where
  key : key ∈ E.keys
  one_le_rank : 1 ≤ c.rank
  rank_le : c.rank ≤ E.copies.toNat
  length_le : c.value.length ≤ E.longest

/-- The history stays within the limits after `b` writes. -/
structure Setting.Within (E : Setting) (b : Nat) (h : History) : Prop where
  time_le : ∀ w ∈ h, w.time.toNat ≤ E.latest + b
  length_le : h.bytes.length ≤ E.longest * b

/-- The entries are those of the shelf: each key it has a copy of under the rank of the copy. -/
def Catalog.Lists (E : Setting) (es : List Replica) (f : Shelf) : Prop :=
  ∀ k, (find? es k).map (fun r => (r.key, r.rank.toNat)) =
    (f k).map fun c => (E.space.key k, c.rank)

/-- The store holds the copies `f` after at most `b key` writes to each key. -/
structure Store.Shows (E : Setting) (b : String → Nat) (s : Store) (f : Shelf) : Prop where
  log : ∃ H, Keeps E.keys s.log H ∧
    ∀ k ∈ E.keys, (H k).latest = (f k).map (·.value) ∧ E.Within (b k) (H k)
  path : s.catalog.path = s.log.root ++ [Catalog.fileName]
  sorted : Catalog.Sorted s.catalog.entries
  listed : Catalog.Lists E s.catalog.entries f
  allows : ∀ k c, f k = some c → E.Allows k c

namespace Setting

/-- Where a key is placed. -/
abbrev point (E : Setting) (key : String) : Point := (E.space.key key).point

variable {E : Setting} {b b' : Nat} {h : History} {w : Write}

theorem Within.mono (hw : E.Within b h) (hb : b ≤ b') : E.Within b' h where
  time_le w hwh := (hw.time_le w hwh).trans (by omega)
  length_le := hw.length_le.trans (Nat.mul_le_mul_left _ hb)

theorem Within.addressable (hw : E.Within b h) (hb : b ≤ E.budget) : h.Addressable :=
  Nat.lt_of_le_of_lt (hw.length_le.trans (Nat.mul_le_mul_left _ hb)) E.longest_mul_budget_lt

theorem Within.concat (hw : E.Within b h) (ht : w.time.toNat ≤ E.latest + b + 1)
    (hl : w.value.length ≤ E.longest) : E.Within (b + 1) (h ++ [w]) where
  time_le v hv := by
    rcases List.mem_append.1 hv with hv | hv
    · exact (hw.time_le v hv).trans (by omega)
    · rw [List.mem_singleton.1 hv]
      omega
  length_le := by
    rw [History.bytes_append, History.bytes_singleton, List.length_append, Nat.mul_succ]
    exact Nat.add_le_add hw.length_le hl

end Setting

/-- The contents are those of the shelf, after at most `b key` writes to each key. -/
structure Contents.Matches (E : Setting) (b : String → Nat) (C : Contents) (f : Shelf) : Prop where
  latest : ∀ k ∈ E.keys, (C.history k).latest = (f k).map (·.value)
  within : ∀ k ∈ E.keys, E.Within (b k) (C.history k)
  listed : ∀ k, (C.listed k).map (fun r => (r.key, r.rank.toNat)) =
    (f k).map fun c => (E.space.key k, c.rank)
  allows : ∀ k c, f k = some c → E.Allows k c

namespace Contents.Matches

variable {E : Setting} {b : String → Nat} {C : Contents} {f : Shelf} {key : String}
  {value : Bytes} {now : Time}

/-- The stamp of a write is ahead of the clock by at most as much as there are writes. -/
theorem stampOf_le (h : C.Matches E b f) (hkey : key ∈ E.keys) (hb : b key < E.budget)
    (hnow : now.toNat ≤ E.latest) : (C.stampOf key now).toNat ≤ E.latest + b key + 1 := by
  have hlim := E.latest_add_budget_lt
  rw [stampOf]
  cases hl : (C.history key).getLast? with
  | none => exact hnow.trans (by omega)
  | some l =>
    have ht := (h.within key hkey).time_le l (List.mem_of_getLast? hl)
    -- There is still a time after the last one.
    have hsucc : (l.time + 1).toNat = l.time.toNat + 1 := by
      rw [UInt64.toNat_add]
      exact Nat.mod_eq_of_lt (by show _ + 1 < _; omega)
    show (max now (l.time + 1)).toNat ≤ _
    have hmax : max now (l.time + 1) = if now ≤ l.time + 1 then l.time + 1 else now := rfl
    rw [hmax]
    split <;> omega

/-- There is room for one more write. -/
theorem admissible (h : C.Matches E b f) (hkey : key ∈ E.keys) (hb : b key < E.budget)
    (hv : value.length ≤ E.longest) (hnow : now.toNat ≤ E.latest) :
    (Call.appendNow key value now).Admissible E.keys C.history := by
  have hw := h.within key hkey
  refine ⟨hkey, ?_, fun l hl => ?_⟩
  · have hwrite : ((Call.appendNow key value now).onHistories C.history).2 = _ :=
      history_write C key value now
    rw [hwrite, Function.update_self]
    exact (hw.concat (h.stampOf_le hkey hb hnow) hv).addressable hb
  · have ht := hw.time_le l (List.mem_of_getLast? hl)
    have := E.latest_add_budget_lt
    omega

/-- A replica that is written is a copy put on the shelf. -/
theorem put (h : C.Matches E b f) {r : Replica} (hr : r.key = E.space.key key)
    (ha : E.Allows key ⟨r.rank.toNat, value⟩) (hb : b key < E.budget)
    (hnow : now.toNat ≤ E.latest) :
    (C.put r value now).Matches E (Function.update b key (b key + 1))
      (Function.update f key (some ⟨r.rank.toNat, value⟩)) := by
  have hname : r.name = key := congrArg Key.name hr
  have hg := hname ▸ gains_put C r value now
  constructor
  case latest =>
    intro k hk
    by_cases hkk : k = key
    · subst hkk
      rw [Function.update_self, hg.latest, Option.map_some]
    · rw [Function.update_of_ne hkk, hg.history_of_ne k hkk, h.latest k hk]
  case within =>
    intro k hk
    rw [history_put, hname]
    by_cases hkk : k = key
    · subst hkk
      rw [Function.update_self, Function.update_self]
      exact (h.within k hk).concat (h.stampOf_le hk hb hnow) ha.length_le
    · rw [Function.update_of_ne hkk, Function.update_of_ne hkk]
      exact h.within k hk
  case listed =>
    intro k
    by_cases hkk : k = key
    · subst hkk
      rw [Function.update_self, Option.map_some, listed_put, hname, Function.update_self]
      -- A replica that is listed with the same rank is left in place, and is the one that is put.
      cases hf : (C.listed k).filter fun held => held.rank = r.rank with
      | none => rw [Option.none_or, Option.map_some, hr]
      | some held =>
        obtain ⟨hheld, hrank⟩ := Option.filter_eq_some_iff.1 hf
        rw [decide_eq_true_eq] at hrank
        have hl := h.listed k
        rw [hheld, Option.map_some, eq_comm, Option.map_eq_some_iff] at hl
        obtain ⟨c, -, hl⟩ := hl
        rw [Prod.mk.injEq] at hl
        rw [Option.some_or, Option.map_some, hl.1, hrank]
    · rw [Function.update_of_ne hkk, hg.listed_of_ne k hkk, h.listed k]
  case allows =>
    intro k c hc
    by_cases hkk : k = key
    · subst hkk
      rw [Function.update_self, Option.some.injEq] at hc
      exact hc ▸ ha
    · rw [Function.update_of_ne hkk] at hc
      exact h.allows k c hc

/-- A copy on the shelf gets another rank. -/
theorem setRank (h : C.Matches E b f) {c : Copy} (hc : f key = some c) {rank : Rank}
    (hone : 1 ≤ rank.toNat) (hle : rank.toNat ≤ E.copies.toNat) :
    (C.setRank key rank).Matches E b (Function.update f key (some ⟨rank.toNat, c.value⟩)) where
  latest k hk := by
    have hl := h.latest k hk
    by_cases hkk : k = key
    · subst hkk
      rw [hc] at hl
      rw [Function.update_self]
      exact hl
    · rw [Function.update_of_ne hkk]
      exact hl
  within := h.within
  listed k := by
    have hl := h.listed k
    rw [listed_setRank]
    by_cases hkk : k = key
    · subst hkk
      rw [hc, Option.map_some, Option.map_eq_some_iff] at hl
      obtain ⟨r, hr, hl⟩ := hl
      rw [Prod.mk.injEq] at hl
      rw [Function.update_self, Function.update_self, hr, Option.map_some, Option.map_some,
        Option.map_some, hl.1]
    · rw [Function.update_of_ne hkk, Function.update_of_ne hkk, hl]
  allows k c' hc' := by
    by_cases hkk : k = key
    · subst hkk
      rw [Function.update_self, Option.some.injEq] at hc'
      have ha := h.allows k c hc
      exact hc' ▸ ⟨ha.key, hone, hle, ha.length_le⟩
    · rw [Function.update_of_ne hkk] at hc'
      exact h.allows k c' hc'

end Contents.Matches

namespace Store.Shows

variable {E : Setting} {b b' : String → Nat} {s : Store} {f : Shelf} {key : String}

/-- The store holds contents, and they are those of the shelf. -/
theorem holds (hs : Shows E b s f) : ∃ C, s.Holds E.keys C ∧ C.Matches E b f := by
  obtain ⟨H, hk, hH⟩ := hs.log
  exact ⟨⟨s.replica?, H⟩, ⟨hk, hs.path, hs.sorted, fun _ => rfl⟩,
    ⟨fun k hk => (hH k hk).1, fun k hk => (hH k hk).2, hs.listed, hs.allows⟩⟩

theorem of_holds {C : Contents} (hs : s.Holds E.keys C) (hC : C.Matches E b f) :
    Shows E b s f where
  log := ⟨C.history, hs.log, fun k hk => ⟨hC.latest k hk, hC.within k hk⟩⟩
  path := hs.path
  sorted := hs.sorted
  listed k := (congrArg _ (hs.listed k)).trans (hC.listed k)
  allows := hC.allows

theorem mono (hs : Shows E b s f) (hb : ∀ k, b k ≤ b' k) : Shows E b' s f := by
  obtain ⟨C, hC, hm⟩ := hs.holds
  exact of_holds hC { hm with within := fun k hk => (hm.within k hk).mono (hb k) }

/-- What is counted does not matter. -/
theorem tally (hs : Shows E b s f) (tally : Tally) :
    Shows E b { s with log := { s.log with tally } } f := by
  obtain ⟨C, hC, hm⟩ := hs.holds
  exact of_holds (hC.tally tally) hm

/-! ## Listed replicas -/

theorem replica?_eq_none (hs : Shows E b s f) : s.replica? key = none ↔ f key = none := by
  have h := hs.listed key
  rw [Store.replica?, Catalog.get?]
  cases hf : f key <;> cases hr : Catalog.find? s.catalog.entries key <;> simp_all

/-- A copy is listed under its key and rank. -/
theorem replica?_eq_some (hs : Shows E b s f) {c : Copy} (hc : f key = some c) :
    ∃ r, s.replica? key = some r ∧ r.key = E.space.key key ∧ r.rank.toNat = c.rank := by
  have h := hs.listed key
  rw [hc, Option.map_some, Option.map_eq_some_iff] at h
  obtain ⟨r, hr, h⟩ := h
  rw [Prod.mk.injEq] at h
  exact ⟨r, hr, h.1, h.2⟩

/-- What is listed is on the shelf. -/
theorem of_mem_keySet (hs : Shows E b s f) {r : Replica} (hr : r ∈ s.keySet) :
    r.key = E.space.key r.name ∧ ∃ c, f r.name = some c ∧ r.rank.toNat = c.rank := by
  have h := hs.listed r.name
  rw [Catalog.find?_of_mem hs.sorted hr, Option.map_some, eq_comm, Option.map_eq_some_iff] at h
  obtain ⟨c, hc, h⟩ := h
  rw [Prod.mk.injEq] at h
  exact ⟨h.1.symm, c, hc, h.2.symm⟩

/-! ## Reading and writing -/

theorem get (hs : Shows E b s f) (hkey : key ∈ E.keys) :
    ∃ s', s.get key = (.ok ((f key).map (·.value)), s') ∧ Shows E b s' f := by
  obtain ⟨C, hC, hm⟩ := hs.holds
  obtain ⟨s', hget, hC'⟩ := hC.get hkey
  exact ⟨s', hm.latest key hkey ▸ hget, of_holds hC' hm⟩

/-- A replica is listed and its value is written. -/
theorem putReplica (hs : Shows E b s f) {r : Replica} (value : Bytes) {now : Time}
    (hr : r.key = E.space.key key) (ha : E.Allows key ⟨r.rank.toNat, value⟩)
    (hb : b key < E.budget) (hnow : now.toNat ≤ E.latest) :
    ∃ t s', s.putReplica r value now = (.ok t, s') ∧
      Shows E (Function.update b key (b key + 1)) s'
        (Function.update f key (some ⟨r.rank.toNat, value⟩)) := by
  have hname : r.name = key := congrArg Key.name hr
  obtain ⟨C, hC, hm⟩ := hs.holds
  obtain ⟨t, s', hput, hC'⟩ :=
    hC.putReplica E.distinct (hname ▸ hm.admissible ha.key hb ha.length_le hnow)
  exact ⟨t, s', hput, of_holds hC' (hm.put hr ha hb hnow)⟩

/-- A copy gets another rank. -/
theorem setRank (hs : Shows E b s f) {c : Copy} (hc : f key = some c) {rank : Rank}
    (hone : 1 ≤ rank.toNat) (hle : rank.toNat ≤ E.copies.toNat) :
    ∃ s', s.setRank key rank = (.ok true, s') ∧
      Shows E b s' (Function.update f key (some ⟨rank.toNat, c.value⟩)) := by
  obtain ⟨C, hC, hm⟩ := hs.holds
  obtain ⟨s', hset, hC'⟩ := hC.setRank key rank
  have hl := hm.listed key
  rw [hc, Option.map_some, Option.map_eq_some_iff] at hl
  obtain ⟨r, hr, -⟩ := hl
  rw [hr] at hset
  exact ⟨s', hset, of_holds hC' (hm.setRank hc hone hle)⟩

end Store.Shows

/-! ## New stores -/

/-- A new store holds nothing. -/
theorem Store.exists_openAt (E : Setting) (options : StoreOptions) (tally : Tally) :
    ∃ s, (Store.openAt .empty options tally).1 = .ok s ∧ s.Shows E (fun _ => 0) fun _ => none := by
  obtain ⟨s, hopen, hs⟩ := Store.exists_opened E.keys options tally
  refine ⟨s, hopen, .of_holds hs ⟨fun _ _ => rfl, fun _ _ => ⟨?_, Nat.zero_le _⟩, fun _ => rfl, ?_⟩⟩
  · simp
  · simp

end ReplicaRing
