import ReplicaRing.Proofs.Cache

/-!
# What a cache remembers

Which keys a cache remembers is told by the keys that were touched, without looking at its slots: in
the order of their last touches (`Cache.recent`), they are as many of the keys as there is room for
(`Cache.slots_after`). The tip of a key is told by those that were published for it since it was
last taken in: it is the first of the latest ones (`Cache.IsFirstLatest`).

Main statement: `Cache.remembers_last_touched`.
-/

namespace ReplicaRing.Cache

open Index (Tip)

variable {c : Cache} {key k : String} {tip : Tip} {ks l : List String} {tips : List Tip} {n : Nat}

/-! ## Calls -/

/-- What is done with a cache. -/
inductive Call
  | publish (key : String) (tip : Tip)
  | get (key : String)
deriving DecidableEq

namespace Call

/-- The cache after the call. -/
def effect (c : Cache) : Call → Cache
  | publish key tip => c.publish key tip
  | get key => (c.get key).2

/-- The key that is touched: one for which a tip is published, and one that is looked up with
    success. -/
def touched (c : Cache) : Call → Option String
  | publish key _ => some key
  | get key => if (c.get key).1.isSome then some key else none

/-- The tip that is published for the key. -/
def published (key : String) : Call → Option Tip
  | publish k tip => if k = key then some tip else none
  | get _ => none

/-- The call is a lookup. -/
def isGet : Call → Bool
  | publish _ _ => false
  | get _ => true

end Call

/-- The cache after the calls. -/
def after (c : Cache) (calls : List Call) : Cache := calls.foldl Call.effect c

/-- The keys that the calls touch, in the order of the calls. -/
def touches (c : Cache) : List Call → List String
  | [] => []
  | call :: calls => (call.touched c).toList ++ (call.effect c).touches calls

/-- The other keys that the calls touch after they touched `key` for the last time. -/
def touchedSince (c : Cache) (calls : List Call) (key : String) : Finset String :=
  ((c.touches calls).reverse.takeWhile fun k => k ≠ key).toFinset

/-- The cache remembers a tip of the key. -/
def Resident (c : Cache) (key : String) : Prop := key ∈ c.slots.map Prod.fst

instance (c : Cache) (key : String) : Decidable (c.Resident key) :=
  inferInstanceAs (Decidable (key ∈ c.slots.map Prod.fst))

/-- The key is not remembered before call `n`, and is after each call from then on. -/
def ResidentSince (c : Cache) (calls : List Call) (key : String) (n : Nat) : Prop :=
  n < calls.length ∧ ¬(c.after (calls.take n)).Resident key ∧
    ∀ m, n < m → m ≤ calls.length → (c.after (calls.take m)).Resident key

/-- No tip is later, and none before it is as late. -/
def IsFirstLatest (tips : List Tip) (tip : Tip) : Prop :=
  ∃ earlier later, tips = earlier ++ tip :: later ∧ (∀ t ∈ earlier, t.time < tip.time) ∧
    ∀ t ∈ later, t.time ≤ tip.time

variable {call : Call} {calls : List Call}

theorem after_concat (c : Cache) (calls : List Call) (call : Call) :
    c.after (calls ++ [call]) = call.effect (c.after calls) := by
  rw [after, List.foldl_append, after]
  rfl

theorem touches_concat (c : Cache) (calls : List Call) (call : Call) :
    c.touches (calls ++ [call]) = c.touches calls ++ (call.touched (c.after calls)).toList := by
  induction calls generalizing c with
  | nil => simp [touches, after]
  | cons first calls ih =>
    rw [List.cons_append, touches, touches, ih, List.append_assoc]
    rfl

/-! ## Residents -/

theorem resident_iff : c.Resident key ↔ ∃ tip, c.peek key = some tip := by
  rw [Resident, ← Option.isSome_iff_exists, peek, List.lookup_isSome_iff]
  simp only [List.mem_map, beq_iff_eq, @eq_comm _ key]

theorem isSome_fst_get (c : Cache) (key : String) : (c.get key).1.isSome ↔ c.Resident key := by
  rw [fst_get, resident_iff, Option.isSome_iff_exists]

/-- A call touches a key, or leaves the slots as they are. -/
theorem effect_cases (hf : c.Fits) (call : Call) :
    call.touched c = none ∧ (call.effect c).slots = c.slots ∨
      ∃ key tip, call.touched c = some key ∧
        (call.effect c).slots = touch c.capacity c.slots key tip := by
  cases call with
  | publish key tip => exact .inr ⟨key, c.raised key tip, rfl, slots_publish hf key tip⟩
  | get key =>
    rw [Call.touched, Call.effect, fst_get, get]
    cases hp : c.peek key with
    | none => exact .inl ⟨rfl, rfl⟩
    | some tip => exact .inr ⟨key, tip, rfl, promote_eq_touch hf hp tip⟩

theorem capacity_effect (c : Cache) (call : Call) : (call.effect c).capacity = c.capacity := by
  cases call with
  | publish key tip => exact capacity_publish c key tip
  | get key =>
    rw [Call.effect, get]
    cases c.peek key <;> rfl

theorem Fits.effect (hf : c.Fits) (call : Call) : (call.effect c).Fits := by
  cases call with
  | publish key tip => exact hf.publish key tip
  | get key => exact hf.get key

theorem Fits.after (hf : c.Fits) (calls : List Call) : (c.after calls).Fits := by
  induction calls generalizing c with
  | nil => exact hf
  | cons call calls ih => exact ih (hf.effect call)

theorem capacity_after (c : Cache) (calls : List Call) : (c.after calls).capacity = c.capacity := by
  induction calls generalizing c with
  | nil => rfl
  | cons call calls ih => exact (ih _).trans (capacity_effect c call)

/-! ## The order of last touches -/

/-- The keys in a list, each at the place where it comes first. Other than in `List.eraseDups` a key
    is taken out of what is left last, as it is when slots are touched. -/
def recent : List String → List String
  | [] => []
  | k :: ks => k :: (recent ks).filter fun k' => k' ≠ k

theorem mem_recent : k ∈ recent ks ↔ k ∈ ks := by
  induction ks with
  | nil => rfl
  | cons k' ks ih =>
    by_cases h : k = k' <;> simp [recent, ih, h]

theorem nodup_recent (ks : List String) : (recent ks).Nodup := by
  induction ks with
  | nil => exact .nil
  | cons k ks ih =>
    rw [recent, List.nodup_cons]
    exact ⟨by simp, ih.filter _⟩

/-- As many keys come before a key as different ones are met before it. -/
theorem length_takeWhile_recent (ks : List String) (key : String) :
    ((recent ks).takeWhile fun k => k ≠ key).length =
      (ks.takeWhile fun k => k ≠ key).toFinset.card := by
  have htake : (recent ks).takeWhile (fun k => k ≠ key) =
      recent (ks.takeWhile fun k => k ≠ key) := by
    induction ks with
    | nil => rfl
    | cons k ks ih =>
      by_cases hk : k = key
      · simp [recent, hk]
      · have hor : ∀ k', (!decide (k' ≠ k) || decide (k' ≠ key)) = decide (k' ≠ key) := by
          intro k'
          by_cases h : k' = k <;> simp [h, hk]
        rw [recent, List.takeWhile_cons_of_pos (by simpa using hk),
          List.takeWhile_cons_of_pos (by simpa using hk), List.takeWhile_filter, recent, ← ih]
        simp only [hor]
  rw [htake, ← List.toFinset_card_of_nodup (nodup_recent _)]
  congr 1
  ext k
  rw [List.mem_toFinset, List.mem_toFinset, mem_recent]

theorem mem_take_iff (l : List String) (n : Nat) :
    key ∈ l.take n ↔ key ∈ l ∧ (l.takeWhile fun k => k ≠ key).length < n := by
  induction l generalizing n with
  | nil => simp
  | cons k l ih =>
    cases n with
    | zero => simp
    | succ n =>
      rw [List.take_succ_cons, List.mem_cons, List.mem_cons, ih]
      by_cases hk : key = k
      · simp [hk]
      · rw [List.takeWhile_cons_of_pos (by simpa using Ne.symm hk), List.length_cons]
        simp [hk]

theorem map_fst_touch (n : Nat) (slots : List (String × Tip)) (key : String) (tip : Tip) :
    (touch n slots key tip).map Prod.fst =
      (key :: (slots.map Prod.fst).filter fun k => k ≠ key).take n := by
  rw [touch, promote, List.map_take, List.map_cons, List.filter_map]
  rfl

/-- The keys that are remembered are those touched last. -/
theorem slots_after (capacity : Nat) (calls : List Call) :
    ((empty capacity).after calls).slots.map Prod.fst =
      (recent ((empty capacity).touches calls).reverse).take (max capacity 1) := by
  induction calls using List.reverseRecOn with
  | nil => simp [after, touches, empty, recent]
  | append_singleton calls call ih =>
    rw [after_concat, touches_concat, List.reverse_append]
    rcases effect_cases ((fits_empty capacity).after calls) call with
      ⟨hnone, hslots⟩ | ⟨key, tip, hsome, hslots⟩
    · rw [hnone, hslots]
      exact ih
    · obtain ⟨m, hm⟩ : ∃ m, max capacity 1 = m + 1 :=
        ⟨max capacity 1 - 1, by have := Nat.le_max_right capacity 1; omega⟩
      have hroom : ((empty capacity).after calls).capacity = m + 1 :=
        (capacity_after _ calls).trans hm
      -- The key leaves its old place, so none of those that had no room is called back.
      have hnodup := nodup_recent ((empty capacity).touches calls).reverse
      have hfilter := take_filter_take (f := id) (by simpa using hnodup) m key
      rw [hsome, hslots, map_fst_touch, ih, hm, hroom]
      simp only [Option.toList_some, List.reverse_singleton, List.singleton_append, recent,
        List.take_succ_cons]
      exact congrArg (key :: ·) hfilter

/-- A key that is touched has been published before, if not by the same call. -/
theorem mem_touches (capacity : Nat) (calls : List Call) (key : String) :
    key ∈ (empty capacity).touches calls ↔ ∃ tip, .publish key tip ∈ calls := by
  induction calls using List.reverseRecOn with
  | nil => simp [touches]
  | append_singleton calls call ih =>
    simp only [touches_concat, List.mem_append, Option.mem_toList, List.mem_singleton, exists_or,
      ← ih]
    refine or_congr_right' fun hnot => ?_
    cases call with
    | publish k tip => simp [Call.touched, eq_comm]
    | get k =>
      refine iff_of_false (fun htouched => hnot ?_) (by simp)
      -- What is looked up with success is among the keys touched before.
      obtain ⟨hget, rfl⟩ : (((empty capacity).after calls).get k).1.isSome ∧ k = key := by
        simpa [Call.touched] using htouched
      rw [isSome_fst_get, Resident, slots_after] at hget
      exact List.mem_reverse.1 (mem_recent.1 (List.mem_of_mem_take hget))

theorem resident_after_iff (capacity : Nat) (calls : List Call) (key : String) :
    ((empty capacity).after calls).Resident key ↔ (∃ tip, .publish key tip ∈ calls) ∧
      ((empty capacity).touchedSince calls key).card < max capacity 1 := by
  rw [Resident, slots_after, mem_take_iff, mem_recent, List.mem_reverse, mem_touches,
    length_takeWhile_recent, touchedSince]

/-- No more keys are remembered than there is room for. -/
theorem length_le_of_resident {keys : List String} (hf : c.Fits) (hn : keys.Nodup)
    (hr : ∀ key ∈ keys, c.Resident key) : keys.length ≤ c.capacity :=
  calc keys.length ≤ (c.slots.map Prod.fst).length := (hn.subperm hr).length_le
    _ = c.slots.length := List.length_map _
    _ ≤ c.capacity := hf.length_le

/-! ## Tips -/

theorem isFirstLatest_singleton (tip : Tip) : IsFirstLatest [tip] tip :=
  ⟨[], [], rfl, by simp, by simp⟩

/-- A tip that is published replaces one that is not as late. -/
theorem IsFirstLatest.concat (h : IsFirstLatest tips tip) (t : Tip) :
    IsFirstLatest (tips ++ [t]) (if tip.time < t.time then t else tip) := by
  obtain ⟨earlier, later, rfl, hearlier, hlater⟩ := h
  split_ifs with hlt
  · refine ⟨earlier ++ tip :: later, [], rfl, fun u hu => ?_, by simp⟩
    rcases List.mem_append.1 hu with hu | hu
    · exact UInt64.lt_trans (hearlier u hu) hlt
    · rcases List.mem_cons.1 hu with rfl | hu
      · exact hlt
      · exact UInt64.lt_of_le_of_lt (hlater u hu) hlt
  · refine ⟨earlier, later ++ [t], by simp, hearlier, fun u hu => ?_⟩
    rcases List.mem_append.1 hu with hu | hu
    · exact hlater u hu
    · exact List.mem_singleton.1 hu ▸ UInt64.not_lt.1 hlt

/-- A key that is still remembered has its old tip, unless one is published for it. -/
theorem peek_effect (hf : c.Fits) (call : Call) (hr : (call.effect c).Resident key) :
    (call.effect c).peek key =
      match call.published key with
      | some tip => some (c.raised key tip)
      | none => c.peek key := by
  cases call with
  | get k =>
    exact peek_get c k key
  | publish k tip =>
    by_cases hk : k = key
    · rw [Call.published, if_pos hk, hk]
      exact peek_publish_self hf key tip
    · obtain ⟨tip', htip⟩ := resident_iff.1 hr
      rw [Call.published, if_neg hk, htip]
      rw [Call.effect, peek, slots_publish hf] at htip
      exact (lookup_touch_of_ne htip (Ne.symm hk)).symm

/-- A key that was remembered before a call and is after it goes on to be. -/
theorem ResidentSince.concat (h : c.ResidentSince calls key n)
    (hr : (c.after (calls ++ [call])).Resident key) :
    c.ResidentSince (calls ++ [call]) key n := by
  obtain ⟨hn, hnot, hall⟩ := h
  refine ⟨by rw [List.length_append]; exact Nat.lt_add_right 1 hn, ?_, fun m hnm hm => ?_⟩
  · rwa [List.take_append_of_le_length hn.le]
  · rcases Nat.lt_or_ge calls.length m with hlt | hle
    · rwa [List.take_of_length_le (by simpa using hlt)]
    · rw [List.take_append_of_le_length hle]
      exact hall m hnm hle

/-- A key that was not remembered before a call and is after it has just been taken in. -/
theorem residentSince_length (hnot : ¬(c.after calls).Resident key)
    (hr : (c.after (calls ++ [call])).Resident key) :
    c.ResidentSince (calls ++ [call]) key calls.length := by
  refine ⟨by simp, by rwa [List.take_left], fun m hnm hm => ?_⟩
  rwa [List.take_of_length_le (by simpa using hnm)]

/-- The tip of a key that is remembered, by what was published since it has been. -/
theorem exists_residentSince (capacity : Nat) (calls : List Call) {key : String}
    (hr : ((empty capacity).after calls).Resident key) :
    ∃ n tip, (empty capacity).ResidentSince calls key n ∧
      ((empty capacity).after calls).peek key = some tip ∧
      IsFirstLatest ((calls.drop n).filterMap (Call.published key)) tip := by
  induction calls using List.reverseRecOn with
  | nil => simp [after, empty, Resident] at hr
  | append_singleton calls call ih =>
    have hpeek := peek_effect ((fits_empty capacity).after calls) call (after_concat .. ▸ hr)
    rw [← after_concat] at hpeek
    by_cases hbefore : ((empty capacity).after calls).Resident key
    · -- The key has stayed since the same call, and what is published now comes last.
      obtain ⟨n, tip, hsince, htip, hlatest⟩ := ih hbefore
      rw [htip] at hpeek
      cases hpublished : call.published key with
      | none =>
        refine ⟨n, tip, hsince.concat hr, by rw [hpeek, hpublished], ?_⟩
        rw [List.drop_append_of_le_length hsince.1.le, List.filterMap_append]
        simpa [hpublished] using hlatest
      | some t =>
        refine ⟨n, if tip.time < t.time then t else tip, hsince.concat hr, ?_, ?_⟩
        · rw [hpeek, hpublished]
          simp only [raised, htip]
        · rw [List.drop_append_of_le_length hsince.1.le, List.filterMap_append]
          simpa [hpublished] using hlatest.concat t
    · -- Only a tip that is published for it brings the key in.
      have hnone : ((empty capacity).after calls).peek key = none :=
        Option.eq_none_iff_forall_ne_some.2 fun tip htip => hbefore (resident_iff.2 ⟨tip, htip⟩)
      cases hpublished : call.published key with
      | none =>
        obtain ⟨tip, htip⟩ := resident_iff.1 hr
        rw [hpeek, hpublished, hnone] at htip
        cases htip
      | some t =>
        refine ⟨calls.length, t, residentSince_length hbefore hr, ?_, ?_⟩
        · rw [hpeek, hpublished]
          simp only [raised, hnone]
        · rw [List.drop_left]
          simpa [hpublished] using isFirstLatest_singleton t

/-! ## Counting lookups -/

/-- Each lookup is counted once. -/
theorem lookups_after (c : Cache) (calls : List Call) :
    (c.after calls).hits + (c.after calls).misses =
      c.hits + c.misses + calls.countP Call.isGet := by
  induction calls generalizing c with
  | nil => rfl
  | cons call calls ih =>
    have hstep : (call.effect c).hits + (call.effect c).misses =
        c.hits + c.misses + if call.isGet then 1 else 0 := by
      cases call with
      | publish key tip =>
        rw [Call.effect, publish]
        cases c.peek key <;> rfl
      | get key =>
        rw [Call.effect, get]
        cases c.peek key with
        | none => rfl
        | some tip => exact Nat.add_right_comm _ _ _
    rw [List.countP_cons, Nat.add_comm (calls.countP _), ← Nat.add_assoc, ← hstep]
    exact ih _

/-- **A cache remembers the keys touched last, with their latest tips.** After any calls a key is
    remembered just if a tip was published for it and fewer other keys than there is room for were
    touched since it was; it is then looked up with success, and what is found is, of the tips
    published for it since it was last taken in, the first of the latest. -/
theorem remembers_last_touched (capacity : Nat) (calls : List Call) :
    let room := max capacity 1
    let c := (empty capacity).after calls
    (∀ key, c.Resident key ↔ (∃ tip, .publish key tip ∈ calls) ∧
        ((empty capacity).touchedSince calls key).card < room) ∧
      (∀ key, (c.get key).1.isSome ↔ c.Resident key) ∧
      (∀ key, c.Resident key → ∃ n tip, (empty capacity).ResidentSince calls key n ∧
        (c.get key).1 = some tip ∧
        IsFirstLatest ((calls.drop n).filterMap (Call.published key)) tip) ∧
      (∀ keys : List String, keys.Nodup → (∀ key ∈ keys, c.Resident key) → keys.length ≤ room) ∧
      c.hits + c.misses = calls.countP Call.isGet := by
  intro room c
  have hf : c.Fits := (fits_empty capacity).after calls
  have hroom : c.capacity = room := capacity_after _ calls
  refine ⟨resident_after_iff capacity calls, isSome_fst_get c, fun key hr => ?_,
    fun keys hn hr => hroom ▸ length_le_of_resident hf hn hr, ?_⟩
  · rw [fst_get]
    exact exists_residentSince capacity calls hr
  · exact (lookups_after (empty capacity) calls).trans (Nat.zero_add _)

/-- Of three keys `b` makes room for `c`, and `c` for `b`; the second tip of `a` is an older one. -/
def sampleUse : List Call :=
  [.publish "a" ⟨5, ⟨0, 1⟩⟩, .publish "b" ⟨3, ⟨0, 1⟩⟩, .get "a", .publish "c" ⟨1, ⟨0, 1⟩⟩, .get "b",
    .publish "a" ⟨4, ⟨0, 2⟩⟩, .publish "b" ⟨2, ⟨0, 1⟩⟩]

/-- With room for two keys, `a` has kept its tip and `b` has the one it came back with. -/
theorem remembers_last_touched_sampleUse :
    let c := (empty 2).after sampleUse
    (∀ key ∈ ["a", "b"], c.Resident key ∧ ∃ n tip, (empty 2).ResidentSince sampleUse key n ∧
        (c.get key).1 = some tip ∧
        IsFirstLatest ((sampleUse.drop n).filterMap (Call.published key)) tip) ∧
      ["a", "b"].Nodup ∧ ["a", "b"].length ≤ 2 ∧
      (c.get "a").1 = some ⟨5, ⟨0, 1⟩⟩ ∧ (c.get "b").1 = some ⟨2, ⟨0, 1⟩⟩ := by
  intro c
  obtain ⟨-, -, htip, hroom, -⟩ := remembers_last_touched 2 sampleUse
  have hresident : ∀ key ∈ ["a", "b"], c.Resident key := by decide +kernel
  have hnodup : ["a", "b"].Nodup := by decide +kernel
  exact ⟨fun key hkey => ⟨hresident key hkey, htip key (hresident key hkey)⟩, hnodup,
    hroom _ hnodup hresident, by decide +kernel, by decide +kernel⟩

end ReplicaRing.Cache
