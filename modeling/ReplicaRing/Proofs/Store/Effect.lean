import ReplicaRing.Proofs.Catalog.Order
import ReplicaRing.Proofs.Log.Append
import ReplicaRing.Proofs.Store.Listed

/-!
# What a call makes of a store

A call may put a replica in its place in the catalog, lay two files over the tree and bring its key
to the front of the cache. Nothing else of the store changes but what is counted
(`Store.Undergoes`). What is put, laid and brought there (`Store.Call.effect`), and what the call
answers (`Store.Call.answer`), is told by how its key is listed and by the history of the key.

So it is for every call but a read that is left alone, whatever time it is given and whatever
failed before (`Store.Steady.exists_run`).
-/

namespace ReplicaRing.Store

open FileTree Log

/-- What a call makes of a store: the replica that it puts in its place, the files that it writes
    and the tip that the cache knows then. -/
structure Effect where
  entry : Option Replica
  files : Option (Bytes × Bytes)
  tip : Option Index.Tip

variable {K : Set String} {root : Path} {H : String → History} {s s' s₁ : Store} {key k : String}
  {value : Bytes} {now : Time} {c : Call} {entry : Option Replica} {files : Option (Bytes × Bytes)}
  {tip : Option Index.Tip} {w : Write} {e : Effect} {log' : Log}

/-! ## Stores between calls -/

/-- The log tells the histories of the keys in `K`, with a cache that has one slot for each key it
    knows, and the catalog lists each key once. -/
structure Steady (K : Set String) (root : Path) (H : String → History) (s : Store) : Prop where
  tells : Tells K root s.log H
  fits : s.log.cache.Fits
  path_eq : s.catalog.path = metaPath root
  sorted : Catalog.Sorted s.catalog.entries

theorem Steady.root_eq (hs : Steady K root H s) : s.log.root = root := hs.tells.root_eq

theorem Steady.path (hs : Steady K root H s) : s.catalog.path = metaPath s.log.root := by
  rw [hs.path_eq, hs.root_eq]

theorem Steady.count (hs : Steady K root H s) (m : Metric) : Steady K root H (s.count m) :=
  ⟨hs.tells.untouched ⟨rfl, rfl, fun _ => rfl⟩, hs.fits, hs.path_eq, hs.sorted⟩

/-- The log may do what belongs to one key, if it tells histories still. -/
theorem Steady.leaves {H' : String → History} (hs : Steady K root H s)
    (hl : Leaves key files tip s.log log') (ht : Tells K root log' H') :
    Steady K root H' { s with log := log' } :=
  ⟨ht, hl.fits hs.fits, hs.path_eq, hs.sorted⟩

/-- Nothing else of the store changes but what is counted. -/
structure Undergoes (key : String) (e : Effect) (s s' : Store) : Prop where
  root : s'.log.root = s.log.root
  fanout : s'.log.fanout = s.log.fanout
  capacity : s'.log.cache.capacity = s.log.cache.capacity
  slots : s'.log.cache.slots =
    e.tip.elim s.log.cache.slots (Cache.touch s.log.cache.capacity s.log.cache.slots key)
  path : s'.catalog.path = s.catalog.path
  entries : s'.catalog.entries = Catalog.edited s.catalog.entries e.entry
  file : s'.disk.get? s.catalog.path = e.entry.elim (s.disk.get? s.catalog.path)
    fun _ => some (.file (Catalog.encode s'.catalog.entries))
  files : ∀ p, p ≠ s.catalog.path →
    s'.disk.get? p = (filesOver s.log.root key e.files p).or (s.disk.get? p)

/-! ## The catalog -/

/-- The replica is put in its place, in memory and in the file, if there is one to be put there. -/
structure Relists (entry : Option Replica) (s s' : Store) : Prop where
  log : ∃ t, s'.log = { s.log with disk := t }
  path : s'.catalog.path = s.catalog.path
  entries : s'.catalog.entries = Catalog.edited s.catalog.entries entry
  files : s.disk.Overlaid (entry.elim (fun _ => none) fun _ =>
    oneFile s.catalog.path (Catalog.encode s'.catalog.entries)) s'.disk

theorem Relists.refl (s : Store) : Relists none s s :=
  ⟨⟨_, rfl⟩, rfl, rfl, fun _ => (Option.none_or).symm⟩

theorem Relists.get?_of_ne {p : Path} (h : Relists entry s s') (hp : p ≠ s.catalog.path) :
    s'.disk.get? p = s.disk.get? p := by
  refine h.files.get?_of_none ?_
  cases entry with
  | none => rfl
  | some r => exact if_neg hp

theorem Relists.root_eq (h : Relists entry s s') : s'.log.root = s.log.root := by
  obtain ⟨t, ht⟩ := h.log
  rw [ht]

/-- What belongs to the files of a key is as it was. -/
theorem Relists.filesAfter_eq (h : Relists entry s s')
    (hpath : s.catalog.path = metaPath s.log.root) (key : String) (g : History) (w : Write) :
    s'.log.filesAfter key g w = s.log.filesAfter key g w := by
  refine filesAfter_congr h.root_eq ?_ (h.get?_of_ne (hpath ▸ filePath_ne_beside _ _ _ _)) g w
  obtain ⟨t, ht⟩ := h.log
  rw [ht]

/-- The catalog is changed first, and then the log. -/
theorem Relists.undergoes (h : Relists entry s s₁) (hpath : s.catalog.path = metaPath s.log.root)
    (hl : Leaves key files tip s₁.log s'.log) (hcat : s'.catalog = s₁.catalog) :
    s.Undergoes key ⟨entry, files, tip⟩ s' := by
  have hmeta : s'.disk.get? s.catalog.path = s₁.disk.get? s.catalog.path := by
    obtain ⟨t, ht⟩ := h.log
    refine hl.frame ?_
    rw [hpath, ht]
    exact not_territory_metaPath _ _
  have hfile := h.files s.catalog.path
  obtain ⟨t, ht⟩ := h.log
  obtain ⟨hroot, hfan, hcap, hslots, hfiles⟩ := hl
  rw [ht] at hroot hfan hcap hslots hfiles
  refine ⟨hroot, hfan, hcap, hslots, hcat ▸ h.path, hcat ▸ h.entries, ?_, fun p hp => ?_⟩
  · rw [hmeta, hfile, hcat]
    cases entry with
    | none => exact Option.none_or
    | some r =>
      show (oneFile s.catalog.path _ s.catalog.path).or _ = _
      rw [oneFile, if_pos rfl, Option.some_or]
      rfl
  · have hp := h.get?_of_ne hp
    rw [disk, ht] at hp
    exact (hfiles p).trans (by rw [hp])

namespace Steady

variable (hs : Steady K root H s)

include hs

/-- A replica is put in its place. -/
theorem exists_store (r : Replica) :
    ∃ t, s.catalog.store s.disk (Catalog.place r s.catalog.entries) =
        (.ok (), { s.catalog with entries := Catalog.place r s.catalog.entries }, t) ∧
      Relists (some r) s ⟨{ s.log with disk := t },
        { s.catalog with entries := Catalog.place r s.catalog.entries }⟩ ∧
      Steady K root H ⟨{ s.log with disk := t },
        { s.catalog with entries := Catalog.place r s.catalog.entries }⟩ := by
  obtain ⟨t, hst, hd, hlaid⟩ := Catalog.exists_store_overlaid hs.tells.onDisk_root hs.path
    (Catalog.place r s.catalog.entries)
  exact ⟨t, hst, ⟨⟨t, rfl⟩, rfl, rfl, hlaid⟩, hs.tells.onto (hs.root_eq ▸ hd), hs.fits, hs.path_eq,
    Catalog.sorted_place hs.sorted r⟩

end Steady

/-- The replica that a call puts in its place, if its key is listed as `held`. -/
def Call.placed? (held : Option Replica) : Call → Option Replica
  | put r _ _ => if held.isSome then none else some r
  | putReplica r _ _ => if held.map (·.rank) = some r.rank then none else some r
  | setRank _ rank => (held.filter fun q => q.rank ≠ rank).map fun q => { q with rank }
  | delete _ _ | get _ => none

namespace Steady

variable (hs : Steady K root H s)

include hs

theorem exists_insert (r : Replica) (value : Bytes) (now : Time) :
    ∃ a s', s.ofCatalog (s.catalog.insert s.disk r) = (.ok a, s') ∧
      Relists ((Call.put r value now).placed? (s.replica? r.name)) s s' ∧ Steady K root H s' := by
  have hfind : Catalog.find? s.catalog.entries r.name = s.replica? r.name := rfl
  rw [Catalog.insert, hfind, Call.placed?]
  cases s.replica? r.name with
  | some q => exact ⟨_, s, rfl, .refl s, hs⟩
  | none =>
    obtain ⟨t, hst, hr, hs'⟩ := hs.exists_store r
    exact ⟨_, _, by simp only [hst]; rfl, hr, hs'⟩

theorem exists_upsert (r : Replica) (value : Bytes) (now : Time) :
    ∃ a s', s.ofCatalog (s.catalog.upsert s.disk r) = (.ok a, s') ∧
      Relists ((Call.putReplica r value now).placed? (s.replica? r.name)) s s' ∧
        Steady K root H s' := by
  have hfind : Catalog.find? s.catalog.entries r.name = s.replica? r.name := rfl
  rw [Catalog.upsert, hfind, Call.placed?]
  by_cases hp : (s.replica? r.name).map (·.rank) = some r.rank
  · simp only [if_pos hp]
    exact ⟨_, s, rfl, .refl s, hs⟩
  · obtain ⟨t, hst, hr, hs'⟩ := hs.exists_store r
    simp only [if_neg hp, hst]
    exact ⟨_, _, rfl, hr, hs'⟩

theorem exists_setRank (key : String) (rank : Rank) :
    ∃ s', s.setRank key rank = (.ok (s.replica? key).isSome, s') ∧
      Relists ((Call.setRank key rank).placed? (s.replica? key)) s s' ∧ Steady K root H s' := by
  have hfind : Catalog.find? s.catalog.entries key = s.replica? key := rfl
  rw [setRank, Catalog.setRank, hfind, Call.placed?]
  cases s.replica? key with
  | none => exact ⟨s, rfl, .refl s, hs⟩
  | some q =>
    by_cases hq : q.rank = rank
    · rw [Option.filter_some, if_neg (by simpa using hq)]
      exact ⟨s, by simp only [if_pos hq]; rfl, .refl s, hs⟩
    · obtain ⟨t, hst, hr, hs'⟩ := hs.exists_store { q with rank }
      rw [Option.filter_some, if_pos (by simpa using hq)]
      exact ⟨_, by simp only [if_neg hq, hst]; rfl, hr, hs'⟩

end Steady

/-- What is put in its place has the name of the key. -/
theorem name_of_placed? {r : Replica} (hr : r ∈ c.placed? (s.replica? c.about)) :
    r.name = c.about := by
  cases c with
  | put q value now =>
    rw [Call.placed?] at hr
    split at hr
    · cases hr
    · obtain rfl := Option.some.inj hr
      rfl
  | putReplica q value now =>
    rw [Call.placed?] at hr
    split at hr
    · cases hr
    · obtain rfl := Option.some.inj hr
      rfl
  | setRank key rank =>
    obtain ⟨q, hq, rfl⟩ := Option.map_eq_some_iff.1 hr
    exact (Catalog.mem_of_find? (Option.filter_eq_some_iff.1 hq).1).2
  | delete key now => cases hr
  | get key => cases hr

/-! ## The log -/

/-- The write that a call adds to the history of its key, if any. -/
def Call.write? (h : History) : Call → Option Write
  | put _ value now | putReplica _ value now => h.write? value now
  | delete _ now => if h = [] then none else h.write? [] now
  | setRank _ _ | get _ => none

/-- The history of the key after the call. -/
def Call.history (h : History) (c : Call) : History := h ++ (c.write? h).toList

/-- What a call answers if its key has the history `h`. It breaks off if it is to write, but there
    is no time or no room for the value. -/
def Call.answer (s : Store) (h : History) : (c : Call) → Except StorageError c.Answer
  | put _ value now | putReplica _ value now =>
    (h.write? value now).elim (.error .overflow) fun w => .ok w.time
  | delete _ now =>
    if h = [] then .ok false else (h.write? [] now).elim (.error .overflow) fun _ => .ok true
  | setRank key _ => .ok (s.replica? key).isSome
  | get _ => .ok h.latest

/-- The tip that a call looks up or writes, if any: that of the history after it. -/
def Call.tip? (h : History) : Call → Option Index.Tip
  | put r value now => ((put r value now).history h).tip
  | putReplica r value now => ((putReplica r value now).history h).tip
  | delete key now => ((delete key now).history h).tip
  | setRank _ _ | get _ => none

theorem Call.tip_history {h : History} {x : Index.Tip} (htip : c.tip? h = some x) :
    (c.history h).tip = some x := by
  cases c with
  | put r value now => exact htip
  | putReplica r value now => exact htip
  | delete key now => exact htip
  | setRank key rank => cases htip
  | get key => cases htip

/-- What a call makes of the store if its key has the history `h`. -/
def Call.effect (s : Store) (h : History) (c : Call) : Effect where
  entry := c.placed? (s.replica? c.about)
  files := (c.write? h).map (s.log.filesAfter c.about h)
  tip := c.tip? h

/-- The histories after the call. -/
def Call.histories (H : String → History) (c : Call) : String → History :=
  Function.update H c.about (c.history (H c.about))

/-- The call is not one that only reads. -/
def Call.Changes : Call → Prop
  | get _ => False
  | _ => True

/-- When its key is listed, the value is written. -/
theorem put_eq {r : Replica} {a : Bool} (h : s.ofCatalog (s.catalog.insert s.disk r) = (.ok a, s₁))
    (value : Bytes) (now : Time) : s.put r value now = s₁.appendListed r.name value now := by
  rw [put, h]

theorem putReplica_eq {r : Replica} {a : Option Rank}
    (h : s.ofCatalog (s.catalog.upsert s.disk r) = (.ok a, s₁)) (value : Bytes) (now : Time) :
    s.putReplica r value now = s₁.appendListed r.name value now := by
  rw [putReplica, h]

/-- What becomes of a store with the histories `H` when a call is made: it answers, and has the
    histories after the call. -/
structure Ends (K : Set String) (root : Path) (H : String → History) (s : Store) (c : Call)
    (s' : Store) : Prop where
  run : c.run s = (c.answer s (H c.about), s')
  undergoes : s.Undergoes c.about (c.effect s (H c.about)) s'
  steady : Steady K root (c.histories H) s'

theorem Undergoes.count (h : s.Undergoes key e s') (m : Metric) : s.Undergoes key e (s'.count m) :=
  ⟨h.root, h.fanout, h.capacity, h.slots, h.path, h.entries, h.file, h.files⟩

namespace Steady

variable (hs : Steady K root H s) (hK : Distinct K)

include hs hK

/-- A value is written to a key that has just been listed. -/
theorem exists_appendListed (h₁ : Relists entry s s₁) (hs₁ : Steady K root H s₁) (hkey : key ∈ K)
    (value : Bytes) (now : Time) :
    ∃ s', s₁.appendListed key value now =
        (((H key).write? value now).elim (.error .overflow) fun w => .ok w.time, s') ∧
      s.Undergoes key ⟨entry, ((H key).write? value now).map (s.log.filesAfter key (H key)),
        History.tip (H key ++ ((H key).write? value now).toList)⟩ s' ∧
      Steady K root (Function.update H key (H key ++ ((H key).write? value now).toList)) s' := by
  obtain ⟨r, log', happ, hc⟩ := hs₁.tells.exists_appendNow_leaves hs₁.fits hK hkey value now
  have hs' := hs₁.leaves hc.leaves hc.tells
  have hu : s.Undergoes key _ { s₁ with log := log' } := h₁.undergoes hs.path hc.leaves rfl
  have hfiles : s₁.log.filesAfter key (H key) = s.log.filesAfter key (H key) := by
    funext w
    exact h₁.filesAfter_eq hs.path key (H key) w
  rw [hfiles] at hu
  rw [← hc.answer, appendListed, ofLog, happ]
  cases r with
  | error e => exact ⟨_, rfl, hu, hs'⟩
  | ok tip => exact ⟨_, rfl, hu.count _, hs'.count _⟩

theorem exists_put (r : Replica) (hkey : r.name ∈ K) (value : Bytes) (now : Time) :
    ∃ s', Ends K root H s (.put r value now) s' := by
  obtain ⟨a, s₁, hins, h₁, hs₁⟩ := hs.exists_insert r value now
  obtain ⟨s', happ, hu, hs'⟩ := hs.exists_appendListed hK h₁ hs₁ hkey value now
  exact ⟨s', (put_eq hins value now).trans happ, hu, hs'⟩

theorem exists_putReplica (r : Replica) (hkey : r.name ∈ K) (value : Bytes) (now : Time) :
    ∃ s', Ends K root H s (.putReplica r value now) s' := by
  obtain ⟨a, s₁, hups, h₁, hs₁⟩ := hs.exists_upsert r value now
  obtain ⟨s', happ, hu, hs'⟩ := hs.exists_appendListed hK h₁ hs₁ hkey value now
  exact ⟨s', (putReplica_eq hups value now).trans happ, hu, hs'⟩

omit hK in
/-- A call that writes nothing leaves the histories as they are. -/
theorem histories {c : Call} (hw : c.write? (H c.about) = none) :
    Steady K root (c.histories H) s := by
  rw [Call.histories, Call.history, hw, Option.toList_none, List.append_nil,
    Function.update_eq_self]
  exact hs

omit hK in
/-- No tombstone is written to a key without values, but its tip is looked up. -/
theorem exists_delete_of_nil (hkey : key ∈ K) (hnil : H key = []) (now : Time) :
    ∃ s', Ends K root H s (.delete key now) s' := by
  obtain ⟨log₁, hp, hk₁, hl₁⟩ := hs.tells.exists_publishedTip_leaves hs.fits hkey
  have hs₁ := hs.leaves hl₁ hk₁
  have hu : s.Undergoes key _ { s with log := log₁ } :=
    (Relists.refl s).undergoes hs.path hl₁ rfl
  have hwrite : (Call.delete key now).write? (H key) = none := if_pos hnil
  have hdelete : s.delete key now = (.ok false, { s with log := log₁ }) := by
    rw [delete, ofLog, hp, hnil]
    rfl
  have hanswer : (Call.delete key now).answer s (H key) = .ok false := if_pos hnil
  refine ⟨{ s with log := log₁ }, hdelete.trans (congrArg (·, _) hanswer.symm), ?_,
    hs₁.histories hwrite⟩
  rw [Call.effect, Call.tip?, Call.history, Call.about, hwrite, Option.toList_none,
    List.append_nil]
  exact hu

/-- The tip is looked up twice when there are values. -/
theorem exists_delete_of_ne_nil (hkey : key ∈ K) (hne : H key ≠ []) (now : Time) :
    ∃ s', Ends K root H s (.delete key now) s' := by
  obtain ⟨log₁, hp, hk₁, hl₁⟩ := hs.tells.exists_publishedTip_leaves hs.fits hkey
  have hs₁ := hs.leaves hl₁ hk₁
  obtain ⟨r, log₂, happ, hc⟩ := hs₁.tells.exists_appendNow_leaves hs₁.fits hK hkey [] now
  have hs₂ := hs₁.leaves hc.leaves hc.tells
  have hwrite : (Call.delete key now).write? (H key) = (H key).write? [] now := if_neg hne
  obtain ⟨new, hnew⟩ : ∃ new, (Call.history (H key) (.delete key now)).tip = some new :=
    Option.ne_none_iff_exists'.1 (mt History.tip_eq_none.1 (List.append_ne_nil_of_left_ne_nil hne _))
  rw [Call.history, hwrite] at hnew
  have hl := hc.leaves
  rw [hnew] at hl
  have hu : s.Undergoes key _ { s with log := log₂ } :=
    (Relists.refl s).undergoes hs.path (hl₁.then hs.fits hl) rfl
  have hfiles : log₁.filesAfter key (H key) = s.log.filesAfter key (H key) := by
    funext w
    exact hl₁.filesAfter_eq (H key) w
  rw [hfiles, ← hnew] at hu
  have heffect : (Call.delete key now).effect s (H key) = ⟨none,
      ((H key).write? [] now).map (s.log.filesAfter key (H key)),
      History.tip (H key ++ ((H key).write? [] now).toList)⟩ := by
    rw [Call.effect, Call.tip?, Call.history, hwrite]
    rfl
  have hanswer : (Call.delete key now).answer s (H key) = r.map fun _ => true :=
    (if_neg hne).trans hc.map_true.symm
  obtain ⟨tip, htip⟩ := Option.ne_none_iff_exists'.1 (mt History.tip_eq_none.1 hne)
  have hsteady : Steady K root (Call.histories H (.delete key now)) { s with log := log₂ } := by
    rw [Call.histories, Call.history, Call.about, hwrite]
    exact hs₂
  cases r with
  | error e =>
    have hdelete : s.delete key now = (.error e, { s with log := log₂ }) := by
      rw [delete, ofLog, hp, htip]
      simp only [ofLog, happ]
    exact ⟨_, hdelete.trans (congrArg (·, _) hanswer.symm), heffect ▸ hu, hsteady⟩
  | ok new =>
    have hdelete : s.delete key now =
        (.ok true, Store.count { s with log := log₂ } .storeDeletes) := by
      rw [delete, ofLog, hp, htip]
      simp only [ofLog, happ]
    exact ⟨_, hdelete.trans (congrArg (·, _) hanswer.symm), heffect ▸ hu.count _, hsteady.count _⟩

theorem exists_delete (hkey : key ∈ K) (now : Time) :
    ∃ s', Ends K root H s (.delete key now) s' := by
  by_cases hnil : H key = []
  · exact hs.exists_delete_of_nil hkey hnil now
  · exact hs.exists_delete_of_ne_nil hK hkey hnil now

omit hK in
theorem exists_ranked (key : String) (rank : Rank) :
    ∃ s', Ends K root H s (.setRank key rank) s' := by
  obtain ⟨s', hset, h₁, hs'⟩ := hs.exists_setRank key rank
  have hl : Leaves key none none s'.log s'.log :=
    ⟨rfl, rfl, rfl, rfl, fun _ => (Option.none_or).symm⟩
  exact ⟨s', hset, h₁.undergoes hs.path hl rfl, hs'.histories rfl⟩

/-- A call that is not a read answers as the history of its key tells, and what it makes of the
    store is told by that history too. -/
theorem exists_run (c : Call) (hkey : c.about ∈ K) (hc : c.Changes) :
    ∃ s', Ends K root H s c s' := by
  cases c with
  | put r value now => exact hs.exists_put hK r hkey value now
  | putReplica r value now => exact hs.exists_putReplica hK r hkey value now
  | delete key now => exact hs.exists_delete hK hkey now
  | setRank key rank => exact hs.exists_ranked key rank
  | get key => exact hc.elim

end Steady

end ReplicaRing.Store
