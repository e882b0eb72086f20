import ReplicaRing.Proofs.Store.Faults

/-!
# A readable value is always listed

Any access to a file may fail in the middle of an operation of a store, any operation may be cut
off between two accesses, and the store may be opened again, with the same to happen in the
middle of that (`Store.Reached`).

Main statement: whatever was done and whatever failed, a key that can be read is listed, `put`
leaves the ranks of listed keys alone, and `delete` lists nothing and writes a tombstone to just the
keys that have been written to (`Store.readable_listed`).

A rank that was given is the one in memory. It is the one on file as well if memory had another one
before, or the file had it before. That is not always so: a failure may be late, and then the file
has a new rank and memory the old one; whoever gives the old rank again is told that it is there,
and the file is left alone (`Store.rank_not_on_file`).
-/

namespace ReplicaRing.Store

open FileTree Log

variable {K : Set String} {late : Bool} {root : Path} {s s' : Store} {t t' : FileTree}
  {key : String} {value : Bytes} {now : Time} {α : Type}

/-! ## Operations -/

namespace Lists

variable (hl : Lists K late root s)

include hl

theorem safe_get (key : String) :
    Plan.Safe late (fun s' => Recoverable K root s'.disk)
      (fun r s' => Lists K late root s' ∧
        ∀ v, r = .ok (some v) → key ∈ K → s.replica? key ≠ none)
      (getPlan key) s := by
  have hl' := hl.count .storeGets
  refine Plan.safe_act_bind hl.recoverable ?_
  refine (Plan.safe_within logFocus (safe_readLatestPlan _ key)).mono ?_ ?_
  · rintro _ ⟨log', h, rfl⟩
    exact (hl'.untouched h).recoverable
  · rintro r _ ⟨log', ⟨h, hv⟩, rfl⟩
    refine ⟨hl'.untouched h, fun v hr hkey => ?_⟩
    rcases hv v hr with hp | ⟨tip, htip⟩
    · exact hl'.cached key hkey hp
    · exact hl'.listed_of_tipAt hkey htip

/-- A value is appended to a listed key, or part of it, and the catalog is as before. -/
theorem safe_appendNow (hK : Distinct K) (hkey : key ∈ K) (hlisted : s.replica? key ≠ none)
    (value : Bytes) (now : Time) :
    Plan.Safe late (fun s' => Recoverable K root s'.disk)
      (fun r s' => Lists K late root s' ∧ Written key (Appended s.log key value) s.log r s'.log ∧
        s'.catalog = s.catalog)
      ((appendNowPlan key value now).within logFocus) s := by
  refine (Plan.safe_within logFocus (safe_appendNowPlan _ key value now)).mono ?_ ?_
  · rintro _ ⟨log', h, rfl⟩
    exact (hl.grown hK hkey hlisted h).recoverable
  · rintro r _ ⟨log', h, rfl⟩
    exact ⟨hl.grown hK hkey hlisted h.grown, h, rfl⟩

/-- The file of the catalog belongs to no key. -/
theorem meta_of_touches {log' : Log} (h : Touches key s.log log') :
    log'.disk.get? s.catalog.path = s.disk.get? s.catalog.path := by
  rw [hl.path_eq]
  exact h.frame _ (hl.root_eq ▸ not_territory_metaPath _ key)

/-- A change to the catalog and the write of a value leave a catalog as the change does. -/
theorem safe_write {change : Catalog → Plan FileTree (Except StorageError α × Catalog)}
    (post : Except StorageError α × Catalog → Option Item → Prop) (hK : Distinct K) (hkey : key ∈ K)
    (h : Plan.Safe late (Catalog.Passes s.catalog s.disk)
      (fun r t' => Catalog.Becomes late s.catalog s.disk r.2 t' ∧
        post r (t'.get? s.catalog.path) ∧ ∀ a, r.1 = .ok a → r.2.get? key ≠ none)
      (change s.catalog) s.disk) (value : Bytes) (now : Time) :
    Plan.Safe late (fun s' => Recoverable K root s'.disk)
      (fun r s' => Lists K late root s' ∧
        ∃ r', post (r', s'.catalog) (s'.disk.get? s'.catalog.path) ∧
          ∀ time, r = .ok time → ∃ a, r' = .ok a)
      (writePlan change key value now) s := by
  refine (hl.safe_catalog h).bind fun r' s₁ h₁ ha => ?_
  obtain ⟨hl₁, hpost, hlisted⟩ := h₁
  have hpath : s₁.catalog.path = s.catalog.path := hl₁.path_eq.trans hl.path_eq.symm
  rw [← hpath] at hpost
  cases r' with
  | error e => exact Plan.safe_pure ha ⟨hl₁, _, hpost, nofun⟩
  | ok a =>
    refine (hl₁.safe_appendNow hK hkey (hlisted a rfl) value now).bind fun r s₂ h₂ ha => ?_
    obtain ⟨hl₂, hw, hcat⟩ := h₂
    have hpost₂ : post (.ok a, s₂.catalog) (s₂.disk.get? s₂.catalog.path) := by
      have := hl₁.meta_of_touches hw.grown.touches
      rw [hcat]
      exact this ▸ hpost
    cases r with
    | error e => exact Plan.safe_pure ha ⟨hl₂, _, hpost₂, fun _ _ => ⟨a, rfl⟩⟩
    | ok tip =>
      exact Plan.safe_act_bind ha
        (Plan.safe_pure ha ⟨hl₂.count _, _, hpost₂, fun _ _ => ⟨a, rfl⟩⟩)

/-- No listed key gets another rank when a value is put. -/
theorem safe_put (hK : Distinct K) {r : Replica} (hkey : r.name ∈ K) (value : Bytes) (now : Time) :
    Plan.Safe late (fun s' => Recoverable K root s'.disk)
      (fun _ s' => Lists K late root s' ∧
        ∀ name q, s.replica? name = some q → s'.replica? name = some q)
      (putPlan r value now) s := by
  refine (hl.safe_write (fun res _ => ∀ name q, s.replica? name = some q →
    res.2.get? name = some q) hK hkey ?_ value now).mono (fun _ => id) ?_
  · exact hl.backed.safe_insert hl.path_ne_nil r
  · rintro _ s' ⟨hl', r', hpost, -⟩
    exact ⟨hl', hpost⟩

/-- The rank of a replica that is put is shown. -/
theorem safe_putReplica (hK : Distinct K) {r : Replica} (hkey : r.name ∈ K) (value : Bytes)
    (now : Time) :
    Plan.Safe late (fun s' => Recoverable K root s'.disk)
      (fun a s' => Lists K late root s' ∧ ∀ time, a = .ok time → Catalog.Shown late s.catalog
        s'.catalog (s.disk.get? s.catalog.path) (s'.disk.get? s'.catalog.path) r.name r.rank)
      (putReplicaPlan r value now) s := by
  refine (hl.safe_write (fun res file' => ∀ a, res.1 = .ok a → Catalog.Shown late s.catalog res.2
    (s.disk.get? s.catalog.path) file' r.name r.rank) hK hkey ?_ value now).mono (fun _ => id) ?_
  · refine (hl.backed.safe_upsert hl.path_ne_nil r).mono (fun _ => id) fun res t' h => ?_
    rw [h.1.path] at h
    refine ⟨h.1, h.2, fun a ha hnone => ?_⟩
    have hm := (h.2 a ha).memory
    rw [hnone] at hm
    cases hm
  · rintro a s' ⟨hl', r', hpost, hdone⟩
    refine ⟨hl', fun time ha => ?_⟩
    obtain ⟨b, hb⟩ := hdone time ha
    exact hpost b hb

/-- A rank that is given to a listed key is shown. -/
theorem safe_setRank (key : String) (rank : Rank) :
    Plan.Safe late (fun s' => Recoverable K root s'.disk)
      (fun a s' => Lists K late root s' ∧ (a = .ok true → Catalog.Shown late s.catalog
        s'.catalog (s.disk.get? s.catalog.path) (s'.disk.get? s'.catalog.path) key rank))
      (setRankPlan key rank) s := by
  refine (hl.safe_catalog (hl.backed.safe_setRank hl.path_ne_nil key rank)).mono (fun _ => id) ?_
  rintro a s' ⟨hl', h⟩
  exact ⟨hl', h⟩

end Lists

/-! ## Deletions -/

/-- The index file of the key has one more record, that of a value without bytes behind the last
    one. -/
def Entombed (key : String) (s s' : Store) : Prop :=
  ∃ tip t old, tipAt s.disk (s.log.indexPath key) = .ok (some tip) ∧
    s.disk.get? (s.log.indexPath key) = some (.file old) ∧
    s'.disk.get? (s.log.indexPath key) =
      some (.file (old ++ Index.encodeRecord ⟨t, tip.span.stop⟩))

/-- The index file of the key is as before. -/
def Unwritten (key : String) (s s' : Store) : Prop :=
  s'.disk.get? (s.log.indexPath key) = s.disk.get? (s.log.indexPath key)

/-- What becomes of a store when a key is deleted: nothing new is listed, and a tombstone is
    written if and only if the key has been written to. If something fails, it may be written or
    not. -/
structure Deleted (key : String) (s : Store) (a : Except StorageError Bool) (s' : Store) :
    Prop where
  catalog : s'.catalog = s.catalog
  file : s'.disk.get? s.catalog.path = s.disk.get? s.catalog.path
  either : Unwritten key s s' ∨ Entombed key s s'
  written : a = .ok true → s.log.has key = true ∧ Entombed key s s'
  unwritten : a = .ok false → s.log.has key = false ∧ Unwritten key s s'

theorem has_of_tipAt {tip : Index.Tip} (h : tipAt s.disk (s.log.indexPath key) = .ok (some tip)) :
    s.log.has key = true := by
  rw [tipAt] at h
  split at h
  · cases h
  · cases h
  · rename_i hread
    exact has_of_read hread

/-- A key has no tip only if it has no index file. -/
theorem Lists.has_eq_false (hl : Lists K late root s) (hkey : key ∈ K)
    (h : tipAt s.disk (s.log.indexPath key) = .ok none) : s.log.has key = false := by
  rw [tipAt] at h
  split at h
  · rename_i hread
    exact has_of_read_notFound hread
  · cases h
  · rename_i bs hread
    have hget := get?_of_read hread
    rw [indexPath, hl.root_eq] at hget
    obtain ⟨fanout, fs, hne, rfl⟩ := hl.indexed.records key hkey bs hget
    split at h
    · cases h
    · rename_i hr
      rw [Except.ok.inj h] at hr
      exact absurd hr (Index.readTip_file_ne_none hne fanout)

/-- A tombstone is the value without bytes that is appended to a key with a tip. -/
theorem entombed_of_appended {tip : Index.Tip} {log₁ : Log} {bs : Bytes}
    (htip : tipAt s.disk (s.log.indexPath key) = .ok (some tip)) (hc : Consulted key s.log log₁)
    (h : Appended log₁ key [] bs)
    (hs' : s'.disk.get? (s.log.indexPath key) = some (.file bs)) : Entombed key s s' := by
  obtain ⟨tip', t, htip', old, hold, rfl⟩ := h
  rw [hc.disk, indexPath, hc.touches.root, ← indexPath] at htip' hold
  have : tip' = some tip := Except.ok.inj (htip'.symm.trans htip)
  subst this
  refine ⟨tip, t, old, htip, hold, ?_⟩
  rw [hs']
  simp [startBehind]

namespace Lists

variable (hl : Lists K late root s)

include hl

/-- What the write of a tombstone makes of a key with a tip. -/
theorem deleted_of_written {tip : Index.Tip} {log₁ : Log} {r : Except StorageError Index.Tip}
    (htip : tipAt s.disk (s.log.indexPath key) = .ok (some tip)) (hc : Consulted key s.log log₁)
    (hw : Written key (Appended log₁ key []) log₁ r s'.log) (hcat : s'.catalog = s.catalog) :
    Deleted key s (r.map fun _ => true) s' := by
  have hindex : log₁.indexPath key = s.log.indexPath key := by
    rw [indexPath, hc.touches.root, ← indexPath]
  have hentombed : ∀ bs, Appended log₁ key [] bs →
      s'.disk.get? (log₁.indexPath key) = some (.file bs) → Entombed key s s' := fun bs happ hbs =>
    entombed_of_appended htip hc happ (hindex ▸ hbs)
  refine ⟨hcat, hl.meta_of_touches (hc.touches.trans hw.grown.touches), ?_, fun h => ?_,
    fun h => ?_⟩
  · rcases hw.grown.index with h | ⟨bs, happ, hbs⟩
    · left
      rw [hc.disk] at h
      rw [Unwritten, ← hindex]
      exact h
    · exact .inr (hentombed bs happ hbs)
  · cases r with
    | error e => cases h
    | ok tip' =>
      obtain ⟨bs, happ, hbs⟩ := hw.done tip' rfl
      exact ⟨has_of_tipAt htip, hentombed bs happ hbs⟩
  · cases r <;> simp [Except.map] at h

theorem safe_delete (hK : Distinct K) (hkey : key ∈ K) (now : Time) :
    Plan.Safe late (fun s' => Recoverable K root s'.disk)
      (fun a s' => Lists K late root s' ∧ Deleted key s a s') (deletePlan key now) s := by
  have htip : Plan.Safe late (fun s' => Recoverable K root s'.disk)
      (fun r s' => ∃ log₁, s' = { s with log := log₁ } ∧ Consulted key s.log log₁ ∧
        ∀ tip, r = .ok tip → tipAt s.disk (s.log.indexPath key) = .ok tip)
      ((publishedTipPlan key).within logFocus) s := by
    refine (Plan.safe_within logFocus (safe_publishedTipPlan s.log key)).mono ?_ ?_
    · rintro _ ⟨log₁, h, rfl⟩
      exact (hl.consulted hK hkey h).recoverable
    · rintro r _ ⟨log₁, h, rfl⟩
      exact ⟨log₁, rfl, h⟩
  rw [deletePlan]
  refine htip.bind ?_
  rintro r _ ⟨log₁, rfl, hc, htip⟩ ha
  have hl₁ := hl.consulted hK hkey hc
  have hsame : Unwritten key s { s with log := log₁ } := by
    show log₁.disk.get? _ = _
    rw [hc.disk]
    rfl
  have hfile := hl.meta_of_touches hc.touches
  cases r with
  | error e => exact Plan.safe_pure ha ⟨hl₁, rfl, hfile, .inl hsame, by simp, by simp⟩
  | ok tip =>
    have htip := htip tip rfl
    cases tip with
    | none =>
      -- A key that has no tip is not listed, and nothing is written for it.
      have hhas := hl.has_eq_false hkey htip
      exact Plan.safe_pure ha ⟨hl₁, rfl, hfile, .inl hsame, by simp, fun _ => ⟨hhas, hsame⟩⟩
    | some tip =>
      have hlisted := hl.listed_of_tipAt hkey htip
      refine (hl₁.safe_appendNow hK hkey hlisted [] now).bind fun r s₂ h₂ ha => ?_
      obtain ⟨hl₂, hw, hcat⟩ := h₂
      have hd := hl.deleted_of_written htip hc hw hcat
      cases r with
      | error e => exact Plan.safe_pure ha ⟨hl₂, hd⟩
      | ok tip' =>
        exact Plan.safe_act_bind ha (Plan.safe_pure ha
          ⟨hl₂.count _, hd.catalog, hd.file, hd.either, hd.written, hd.unwritten⟩)

end Lists

/-! ## Runs -/

/-- What an open store can be asked to do. -/
inductive Call
  | put (r : Replica) (value : Bytes) (now : Time)
  | putReplica (r : Replica) (value : Bytes) (now : Time)
  | delete (key : String) (now : Time)
  | setRank (key : String) (rank : Rank)
  | get (key : String)

/-- The key that a call is about. -/
def Call.about : Call → String
  | put r _ _ | putReplica r _ _ => r.name
  | delete key _ | setRank key _ | get key => key

/-- What a call answers. -/
def Call.Answer : Call → Type
  | put .. | putReplica .. => Time
  | delete .. | setRank .. => Bool
  | get _ => Option Bytes

/-- The answer of a store, and the store after it. -/
def Call.run (s : Store) : (c : Call) → Except StorageError c.Answer × Store
  | put r value now => s.put r value now
  | putReplica r value now => s.putReplica r value now
  | delete key now => s.delete key now
  | setRank key rank => s.setRank key rank
  | get key => s.get key

/-- The accesses of a call. -/
def Call.plan : (c : Call) → Plan Store (Except StorageError c.Answer)
  | put r value now => putPlan r value now
  | putReplica r value now => putReplicaPlan r value now
  | delete key now => deletePlan key now
  | setRank key rank => setRankPlan key rank
  | get key => getPlan key

/-- Left alone, the accesses of a call do what the call does. -/
theorem Call.run_plan (s : Store) (c : Call) : c.plan.run s = c.run s := by
  cases c with
  | put r value now => exact run_putPlan s r value now
  | putReplica r value now => exact run_putReplicaPlan s r value now
  | delete key now => exact run_deletePlan s key now
  | setRank key rank => exact run_setRankPlan s key rank
  | get key => exact run_getPlan s key

/-- Nothing but files, or an open store with its files. -/
inductive Phase
  | closed (t : FileTree)
  | opened (s : Store)

/-- What can come to be of the store in the directory `root`. -/
inductive Reached (K : Set String) (late : Bool) (root : Path) : Phase → Prop
  /-- There is nothing yet. -/
  | fresh {t : FileTree} (hv : Vacant t root) : Reached K late root (.closed t)
  /-- The store is opened, with any settings. -/
  | opened {t t' : FileTree} {s : Store} {options : StoreOptions} {tally : Tally}
      (hr : Reached K late root (.closed t)) (ho : options.dataDir = root)
      (h : Plan.Ends late (openPlan options tally) t (.ok s) t') : Reached K late root (.opened s)
  /-- It cannot be opened, or the process stops in the middle of that. -/
  | unopened {t t' : FileTree} {options : StoreOptions} {tally : Tally}
      (hr : Reached K late root (.closed t)) (ho : options.dataDir = root)
      (h : Plan.Stops late (openPlan options tally) t t') : Reached K late root (.closed t')
  /-- A call is made, and anything may fail. -/
  | call {s s' : Store} (c : Call) (hkey : c.about ∈ K) {a : Except StorageError c.Answer}
      (hr : Reached K late root (.opened s)) (h : Plan.Ends late c.plan s a s') :
      Reached K late root (.opened s')
  /-- The process stops in the middle of a call. -/
  | stopped {s s' : Store} (c : Call) (hkey : c.about ∈ K) (hr : Reached K late root (.opened s))
      (h : Plan.Stops late c.plan s s') : Reached K late root (.closed s'.disk)

/-- Every key with an index file is listed, in memory or in the file of the catalog. -/
def Phase.Listing (K : Set String) (late : Bool) (root : Path) : Phase → Prop
  | closed t => Recoverable K root t
  | opened s => Lists K late root s

/-- No call takes a key off the list, whatever fails and wherever it stops. -/
theorem Lists.safe_call (hl : Lists K late root s) (hK : Distinct K) (c : Call) (hkey : c.about ∈ K) :
    Plan.Safe late (fun s' => Recoverable K root s'.disk) (fun _ s' => Lists K late root s')
      c.plan s := by
  cases c with
  | put r value now =>
    exact (hl.safe_put hK hkey value now).mono (fun _ => id) fun _ _ h => h.1
  | putReplica r value now =>
    exact (hl.safe_putReplica hK hkey value now).mono (fun _ => id) fun _ _ h => h.1
  | delete key now => exact (hl.safe_delete hK hkey now).mono (fun _ => id) fun _ _ h => h.1
  | setRank key rank => exact (hl.safe_setRank key rank).mono (fun _ => id) fun _ _ h => h.1
  | get key => exact (hl.safe_get key).mono (fun _ => id) fun _ _ h => h.1

theorem Reached.listing {p : Phase} (hr : Reached K late root p) (hK : Distinct K) :
    p.Listing K late root := by
  induction hr with
  | fresh hv => exact ⟨[], shelved_of_vacant hv⟩
  | opened _ ho h ih =>
    obtain ⟨es, hs⟩ := ih
    exact ((safe_openPlan ho _ hs).ends _ _ h _ rfl).1
  | unopened _ ho h ih =>
    obtain ⟨es, hs⟩ := ih
    exact (safe_openPlan ho _ hs).stops _ h
  | call c hkey _ h ih => exact (Lists.safe_call ih hK c hkey).ends _ _ h
  | stopped c hkey _ h ih => exact (Lists.safe_call ih hK c hkey).stops _ h

/-- The file of the catalog lists the key under the rank. -/
def OnFile (root : Path) (key : String) (rank : Rank) (t : FileTree) : Prop :=
  ∃ es, Catalog.Sorted es ∧ t.get? (metaPath root) = some (.file (Catalog.encode es)) ∧
    (Catalog.find? es key).map (·.rank) = some rank

theorem OnFile.congr {rank : Rank} (h : OnFile root key rank t)
    (hfile : t'.get? (metaPath root) = t.get? (metaPath root)) : OnFile root key rank t' := by
  rwa [OnFile, hfile]

/-- The file lists a key under one rank. -/
theorem OnFile.unique {rank rank' : Rank} (h : OnFile root key rank t)
    (h' : OnFile root key rank' t) : rank = rank' := by
  obtain ⟨es, -, hfile, hrank⟩ := h
  obtain ⟨es', -, hfile', hrank'⟩ := h'
  rw [hfile, Option.some.injEq, Item.file.injEq] at hfile'
  rw [Catalog.encode_injective hfile', hrank', Option.some.injEq] at hrank
  exact hrank.symm

/-- What becomes of a store when a rank is given to a key: memory lists it under the rank. The file,
    from which the list is read back, is written anew if memory had another rank before, and left
    alone otherwise. So it shows the rank if and only if memory had another one before, or the file
    had this one; and always, as long as no failure is late. -/
structure Ranked (late : Bool) (root : Path) (key : String) (rank : Rank) (s s' : Store) : Prop where
  memory : (s'.replica? key).map (·.rank) = some rank
  written : (s.replica? key).map (·.rank) ≠ some rank →
    s'.disk.get? (metaPath root) = some (.file (Catalog.encode s'.keySet))
  kept : (s.replica? key).map (·.rank) = some rank →
    s'.disk.get? (metaPath root) = s.disk.get? (metaPath root)
  shown : OnFile root key rank s'.disk ↔
    (s.replica? key).map (·.rank) ≠ some rank ∨ OnFile root key rank s.disk
  spared : late = false → s'.disk.get? (metaPath root) = some (.file (Catalog.encode s'.keySet)) ∧
    OnFile root key rank s'.disk
  read : (Catalog.payload s'.keySet).length < 2 ^ 32 →
    Catalog.decode (metaPath root) (Catalog.encode s'.keySet) = .ok s'.keySet

theorem Lists.ranked (hl : Lists K late root s) (hl' : Lists K late root s') {rank : Rank}
    (h : Catalog.Shown late s.catalog s'.catalog (s.disk.get? s.catalog.path)
      (s'.disk.get? s'.catalog.path) key rank) : Ranked late root key rank s s' := by
  rw [hl.path_eq, hl'.path_eq] at h
  have honFile : s'.disk.get? (metaPath root) = some (.file (Catalog.encode s'.keySet)) →
      OnFile root key rank s'.disk := fun hfile =>
    ⟨s'.keySet, hl'.backed.sorted, hfile, h.memory⟩
  refine ⟨h.memory, h.written, h.kept, ?_, fun hlate => ⟨h.spared hlate, honFile (h.spared hlate)⟩,
    Catalog.decode_encode _ hl'.backed.sorted⟩
  by_cases hrank : (s.replica? key).map (·.rank) = some rank
  · rw [OnFile, h.kept hrank, ← OnFile]
    exact (or_iff_right (not_not_intro hrank)).symm
  · exact iff_of_true (honFile (h.written hrank)) (.inl hrank)

/-- **A readable value is always listed.** Whatever was done to a store, whatever failed and
    wherever it was cut off: a key that is read with a value is listed. A value that is put
    leaves the ranks of all listed keys alone; a rank that was given is shown by memory, and by the
    file if it was written for it or had the rank before. A deletion lists nothing, and if it does
    not fail it writes a tombstone if and only if the key has been written to, as it tells. All this
    holds of calls of which any access may fail, and so of those that are left alone. -/
theorem readable_listed (hK : Distinct K) (hr : Reached K late root (.opened s)) (hkey : key ∈ K) :
    (∀ v s', Plan.Ends late (getPlan key) s (.ok (some v)) s' → ∃ r ∈ s.keySet, r.name = key) ∧
    (∀ r value now a s', r.name = key → Plan.Ends late (putPlan r value now) s a s' →
      ∀ name q, s.replica? name = some q → s'.replica? name = some q) ∧
    (∀ r value now time s', r.name = key →
      Plan.Ends late (putReplicaPlan r value now) s (.ok time) s' →
        Ranked late root key r.rank s s') ∧
    (∀ rank s', Plan.Ends late (setRankPlan key rank) s (.ok true) s' →
      Ranked late root key rank s s') ∧
    (∀ now a s', Plan.Ends late (deletePlan key now) s a s' → Deleted key s a s') ∧
    ∀ c : Call, Plan.Ends late c.plan s (c.run s).1 (c.run s).2 := by
  have hl : Lists K late root s := hr.listing hK
  refine ⟨fun v s' h => ?_, ?_, ?_, fun rank s' h => ?_, fun now a s' h => ?_, fun c => ?_⟩
  · have hlisted := ((hl.safe_get key).ends _ _ h).2 v rfl hkey
    obtain ⟨r, hr⟩ := Option.ne_none_iff_exists'.1 hlisted
    exact ⟨r, Catalog.mem_of_find? hr⟩
  · rintro r value now a s' rfl h
    exact ((hl.safe_put hK hkey value now).ends _ _ h).2
  · rintro r value now time s' rfl h
    obtain ⟨hl', hs⟩ := (hl.safe_putReplica hK hkey value now).ends _ _ h
    exact hl.ranked hl' (hs time rfl)
  · obtain ⟨hl', hs⟩ := (hl.safe_setRank key rank).ends _ _ h
    exact hl.ranked hl' (hs rfl)
  · exact ((hl.safe_delete hK hkey now).ends _ _ h).2
  · rw [← c.run_plan s]
    exact Plan.ends_run late c.plan s

/-- A store opened in a directory of an empty tree. -/
def sampleStore : Store where
  log := ⟨⟨[(["n", "index"], .dir), (["n", "data"], .dir), (["n"], .dir)]⟩, ["n"], 16, .always,
    .empty 1024, .zero⟩
  catalog := ⟨["n", Catalog.fileName], []⟩

theorem reached_sampleStore : Reached {"a"} true ["n"] (.opened sampleStore) := by
  have hopen : openAt .empty { dataDir := ["n"] } .zero = (.ok sampleStore, sampleStore.disk) := rfl
  have h := Plan.ends_run true (openPlan { dataDir := ["n"] } .zero) .empty
  rw [run_openPlan, hopen] at h
  exact .opened (.fresh (vacant_empty _)) rfl h

/-- Calls that are left alone lead on. -/
theorem Reached.run (hr : Reached K late root (.opened s)) (c : Call) (hkey : c.about ∈ K) :
    Reached K late root (.opened (c.run s).2) := by
  have h := Plan.ends_run late c.plan s
  rw [c.run_plan] at h
  exact .call c hkey hr h

/-- The call that writes one value to one key. -/
def sampleCall : Call := .put ⟨⟨"a", .ofNat 7⟩, 2⟩ [1] 5

/-- A key is put and can be read, and it is listed. -/
theorem readable_listed_sample :
    ∃ s, Distinct {"a"} ∧ Reached {"a"} true ["n"] (.opened s) ∧
      (s.get "a").1.toOption = some (some [1]) ∧ (s.replica? "a").map (·.rank) = some 2 ∧
      ∃ r ∈ s.keySet, r.name = "a" := by
  have hK : Distinct {"a"} := Set.injOn_singleton _ _
  have hkey : "a" ∈ ({"a"} : Set String) := Set.mem_singleton "a"
  have hr : Reached {"a"} true ["n"] (.opened (sampleCall.run sampleStore).2) :=
    reached_sampleStore.run sampleCall hkey
  have hget : ((sampleCall.run sampleStore).2.get "a").1.toOption = some (some [1]) := by
    decide +kernel
  have hrank : ((sampleCall.run sampleStore).2.replica? "a").map (·.rank) = some 2 := by
    decide +kernel
  refine ⟨_, hK, hr, hget, hrank, ?_⟩
  obtain ⟨v, s', hrun⟩ : ∃ v s', (sampleCall.run sampleStore).2.get "a" = (.ok (some v), s') := by
    generalize (sampleCall.run sampleStore).2.get "a" = a at hget
    obtain ⟨a | a, s'⟩ := a
    · cases hget
    · cases hget
      exact ⟨_, _, rfl⟩
  refine (readable_listed hK hr hkey).1 v s' ?_
  have h := (readable_listed hK hr hkey).2.2.2.2.2 (.get "a")
  rw [Call.run, hrun] at h
  exact h

/-! ## A late failure -/

/-- Another rank may be given to a key with a late failure: the file has it then, and memory is as
    before. -/
theorem ends_putReplicaPlan_late {r : Replica} {c : Catalog}
    (hne : (s.replica? r.name).map (·.rank) ≠ some r.rank)
    (h : s.catalog.store s.disk (Catalog.place r s.catalog.entries) = (.ok (), c, t))
    (value : Bytes) (now : Time) (e : IoError) :
    Plan.Ends true (putReplicaPlan r value now) s (.error (.io e))
      { s with log := { s.log with disk := t } } := by
  have hupsert : Plan.Ends true (s.catalog.upsertPlan r) s.disk (.error (.io e), s.catalog) t := by
    have hmemory : (Catalog.find? s.catalog.entries r.name).map (·.rank) ≠ some r.rank := hne
    rw [Catalog.upsertPlan, if_neg hmemory]
    exact Catalog.ends_changePlan_late _ h e
  have hcatalog : Plan.Ends true (catalogPlan (·.upsertPlan r)) s (.error (.io e))
      { s with log := { s.log with disk := t } } :=
    (Plan.ends_run true (.ask catalog) s).bind ((hupsert.within diskFocus).bind
      ((Plan.ends_run true (.touch _) _).bind .done))
  exact hcatalog.bind .done

/-- The entries that are stored are those on file, whatever memory has. -/
theorem Lists.onFile_of_store (hl : Lists K late root s) {r : Replica} {c : Catalog}
    (h : s.catalog.store s.disk (Catalog.place r s.catalog.entries) = (.ok (), c, t)) :
    OnFile root r.name r.rank t := by
  refine ⟨_, Catalog.sorted_place hl.backed.sorted r, ?_, ?_⟩
  · rw [← hl.path_eq]
    exact Catalog.get?_of_store hl.path_ne_nil h
  · rw [Catalog.find?_place hl.backed.sorted, if_pos rfl]
    rfl

/-- The entries whose storing failed late stay on file when the key is given the rank that memory
    has. -/
theorem Lists.onFile_of_late (hl : Lists K late root s) {r : Replica} {c : Catalog} {rank : Rank}
    (h : s.catalog.store s.disk (Catalog.place r s.catalog.entries) = (.ok (), c, t))
    (hrank : (s.replica? key).map (·.rank) = some rank)
    (hranked : Ranked late root key rank { s with log := { s.log with disk := t } } s') :
    OnFile root r.name r.rank s'.disk :=
  (hl.onFile_of_store h).congr (hranked.kept hrank)

/-- The one key, with some rank. -/
def sampleReplica (rank : Rank) : Replica := ⟨⟨"a", .ofNat 7⟩, rank⟩

/-- The store after the key was given rank 1. -/
def sampleFirst : Store := (sampleStore.putReplica (sampleReplica 1) [1] 5).2

/-- Its entries with rank 2, as they are stored. -/
def sampleStored : Except StorageError Unit × Catalog × FileTree :=
  sampleFirst.catalog.store sampleFirst.disk
    (Catalog.place (sampleReplica 2) sampleFirst.catalog.entries)

/-- The store after the key was then given rank 2 with a late failure. -/
def sampleLate : Store :=
  { sampleFirst with log := { sampleFirst.log with disk := sampleStored.2.2 } }

theorem eq_ok_of_toOption {ε : Type} {x : Except ε α} {a : α} (h : x.toOption = some a) :
    x = .ok a := by
  cases x with
  | error e => cases h
  | ok b => rw [Option.some.inj h]

/-- A call that is left alone and succeeds ends so. -/
theorem ends_putReplicaPlan {r : Replica} {time : Time}
    (h : (s.putReplica r value now).1.toOption = some time) :
    Plan.Ends late (putReplicaPlan r value now) s (.ok time) (s.putReplica r value now).2 := by
  have hends := Plan.ends_run late (putReplicaPlan r value now) s
  rwa [run_putReplicaPlan, eq_ok_of_toOption h] at hends

/-- A key is given rank 1, then rank 2 with a late failure, and then rank 1 again, which it is told
    to have. Memory lists it under rank 1 then, and the file under rank 2. -/
theorem rank_not_on_file :
    Reached {"a"} true ["n"] (.opened sampleStore) ∧
      Plan.Ends true (putReplicaPlan (sampleReplica 1) [1] 5) sampleStore (.ok 5) sampleFirst ∧
      Plan.Ends true (putReplicaPlan (sampleReplica 2) [2] 6) sampleFirst
        (.error (.io .notFound)) sampleLate ∧
      ∃ s, Plan.Ends true (putReplicaPlan (sampleReplica 1) [3] 7) sampleLate (.ok 7) s ∧
        (s.replica? "a").map (·.rank) = some 1 ∧ OnFile ["n"] "a" 2 s.disk ∧
        ¬OnFile ["n"] "a" 1 s.disk := by
  have hK : Distinct {"a"} := Set.injOn_singleton _ _
  have hkey : "a" ∈ ({"a"} : Set String) := Set.mem_singleton "a"
  have hfirst : Plan.Ends true (putReplicaPlan (sampleReplica 1) [1] 5) sampleStore (.ok 5)
      sampleFirst := ends_putReplicaPlan (by decide +kernel)
  have hl : Lists {"a"} true ["n"] sampleStore := reached_sampleStore.listing hK
  obtain ⟨hl₁, h₁⟩ := (hl.safe_putReplica hK (r := sampleReplica 1) hkey [1] 5).ends _ _ hfirst
  have hrank : (sampleFirst.replica? "a").map (·.rank) = some 1 := (h₁ 5 rfl).memory
  -- The file could be written for rank 2, so it may be written and the caller be told otherwise.
  have hstored : sampleStored.1 = .ok () := eq_ok_of_toOption (by decide +kernel)
  have hpair : sampleStored = (.ok (), sampleStored.2.1, sampleStored.2.2) := by rw [← hstored]
  have hlate : Plan.Ends true (putReplicaPlan (sampleReplica 2) [2] 6) sampleFirst
      (.error (.io .notFound)) sampleLate := by
    refine ends_putReplicaPlan_late (fun h => ?_) hpair [2] 6 .notFound
    cases hrank.symm.trans h
  obtain ⟨hl₂, -⟩ := (hl₁.safe_putReplica hK (r := sampleReplica 2) hkey [2] 6).ends _ _ hlate
  have hlast : Plan.Ends true (putReplicaPlan (sampleReplica 1) [3] 7) sampleLate (.ok 7)
      (sampleLate.putReplica (sampleReplica 1) [3] 7).2 := ends_putReplicaPlan (by decide +kernel)
  obtain ⟨hl₃, h₃⟩ := (hl₂.safe_putReplica hK (r := sampleReplica 1) hkey [3] 7).ends _ _ hlast
  have hranked := hl₂.ranked hl₃ (h₃ 7 rfl)
  have hfile := hl₁.onFile_of_late (r := sampleReplica 2) hpair hrank hranked
  exact ⟨reached_sampleStore, hfirst, hlate, _, hlast, hranked.memory, hfile,
    fun h => absurd (h.unique hfile) (by decide)⟩

end ReplicaRing.Store
