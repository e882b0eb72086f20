import ReplicaRing.Proofs.Catalog.Faults
import ReplicaRing.Proofs.Log.Faults
import ReplicaRing.Proofs.Log.Refinement
import ReplicaRing.Proofs.Store.Plan

/-!
# What a store lists when files fail

A key is listed before its value is written, and it is never taken off the list. So whatever
fails, a key with an index file is listed: in memory while the store is open (`Store.Lists`),
and in the file of the catalog (`Store.Shelved`), from which the store is opened again
(`Store.safe_openPlan`).

What changes the catalog, or the files of a listed key, keeps it so (`Store.Lists.becomes`,
`Store.Lists.grown`).
-/

namespace ReplicaRing.Store

open FileTree Log

variable {K : Set String} {late : Bool} {root r : Path} {s s' : Store} {t t' : FileTree}
  {log' : Log} {es fs : List Replica} {key : String} {value : Bytes} {now : Time} {α : Type}

/-! ## What is listed -/

/-- Where the catalog of a store is. -/
def metaPath (root : Path) : Path := root ++ [Catalog.fileName]

/-- Every key with an index file is listed, and the file tells of some value. -/
structure Indexed (K : Set String) (root : Path) (t : FileTree) (es : List Replica) : Prop where
  listed : ∀ k ∈ K, t.get? (filePath root k "index") ≠ none → Catalog.find? es k ≠ none
  records : ∀ k ∈ K, ∀ bs, t.get? (filePath root k "index") = some (.file bs) →
    ∃ fanout fs, fs ≠ [] ∧ bs = Index.file fanout fs

/-- The files of a store list every key with an index file. -/
structure Shelved (K : Set String) (root : Path) (t : FileTree) (es : List Replica) : Prop where
  sorted : Catalog.Sorted es
  filed : Catalog.Filed ⟨metaPath root, es⟩ t
  indexed : Indexed K root t es

/-- So they do for some entries. -/
def Recoverable (K : Set String) (root : Path) (t : FileTree) : Prop := ∃ es, Shelved K root t es

/-- An open store lists every key with an index file or with a tip in its cache, and its file
    lists at least what memory does. -/
structure Lists (K : Set String) (late : Bool) (root : Path) (s : Store) : Prop where
  root_eq : s.log.root = root
  path_eq : s.catalog.path = metaPath root
  backed : Catalog.Backed late s.catalog s.disk
  indexed : Indexed K root s.disk s.catalog.entries
  cached : ∀ k ∈ K, s.log.cache.peek k ≠ none → s.replica? k ≠ none

theorem fileSpot_metaPath (root : Path) : FileSpot root (metaPath root) :=
  fileSpot_beside root Catalog.not_isFolder_fileName

theorem not_territory_metaPath (root : Path) (key : String) : ¬Territory root key (metaPath root) :=
  not_territory_beside Catalog.not_isFolder_fileName

theorem Indexed.mono (h : Indexed K root t es) (hc : Catalog.Covers fs es) : Indexed K root t fs :=
  ⟨fun k hk hi => hc k (h.listed k hk hi), h.records⟩

theorem Indexed.congr (h : Indexed K root t es)
    (hi : ∀ k ∈ K, t'.get? (filePath root k "index") = t.get? (filePath root k "index")) :
    Indexed K root t' es :=
  ⟨fun k hk => hi k hk ▸ h.listed k hk, fun k hk => hi k hk ▸ h.records k hk⟩

theorem Shelved.congr (h : Shelved K root t es)
    (hg : ∀ r, FileSpot root r → t'.get? r = t.get? r) : Shelved K root t' es where
  sorted := h.sorted
  filed := by
    rw [Catalog.Filed, hg _ (fileSpot_metaPath root)]
    exact h.filed
  indexed := h.indexed.congr fun k _ => hg _ (fileSpot_filePath root k "index")

/-! ## Opening -/

theorem shelved_of_vacant (hv : Vacant t root) : Shelved K root t [] := by
  have hnone : ∀ r, FileSpot root r → t.get? r = none := fun r hr =>
    hv.vacant r hr.root_above fun h => hr.not_above_root (h ▸ List.prefix_refl r)
  refine ⟨.nil, .inl ⟨hnone _ (fileSpot_metaPath root), rfl⟩, fun k _ hi => ?_, fun k _ bs hi => ?_⟩
  · exact absurd (hnone _ (fileSpot_filePath root k "index")) hi
  · rw [hnone _ (fileSpot_filePath root k "index")] at hi
    cases hi

/-- The directories of a store are made where directories may be. -/
theorem exists_of_folders {st : Step} (hs : st ∈ folders root) :
    ∃ p, st = .makeDirs p ∧ DirSpot root p := by
  simp only [folders, List.mem_cons, List.not_mem_nil, or_false] at hs
  rcases hs with rfl | rfl | rfl
  · exact ⟨_, rfl, .inl (List.prefix_refl _)⟩
  · exact ⟨_, rfl, dirSpot_concat root (.inl rfl)⟩
  · exact ⟨_, rfl, dirSpot_concat root (.inr rfl)⟩

/-- Making the directories of a store touches no file. -/
theorem not_touches_of_folders {st : Step} (hs : st ∈ folders root) (hr : FileSpot root r) :
    ¬st.Touches r := by
  obtain ⟨p, rfl, hp⟩ := exists_of_folders hs
  exact hp.not_above hr

/-- When the directories of a store are made, they are there, and all above them. -/
theorem dir_of_folders (h : t.run (folders root) = (.ok (), t')) (hr : r <+: root ++ ["index"]) :
    t'.get? r = some .dir := by
  obtain ⟨t₁, -, h⟩ := exists_of_run_cons h
  obtain ⟨t₂, -, h⟩ := exists_of_run_cons h
  obtain ⟨t₃, h₃, h⟩ := exists_of_run_cons h
  cases h
  rw [makes_of_makeDirs (ioStep_eq_ok h₃) r, if_pos hr]

/-- What the file of the catalog lists is what a catalog opened there lists. -/
theorem eq_of_load (hs : Catalog.Sorted es) (hf : Catalog.Filed ⟨metaPath root, es⟩ t)
    (hd : ∀ r, r <+: root → t.get? r = some .dir) {c : Catalog}
    (hl : Catalog.load t (metaPath root) = .ok c) : c = ⟨metaPath root, es⟩ := by
  have hr : t.Rooted (metaPath root) := rooted_concat hd
  rw [Catalog.load] at hl
  rcases hf with ⟨hnone, rfl⟩ | hf
  · rw [read_missing (hr.clear (by simp [hnone])) hnone] at hl
    exact (Except.ok.inj hl).symm
  · rw [read_of_get? hr hf] at hl
    dsimp only at hl
    by_cases hlen : (Catalog.payload es).length < 2 ^ 32
    · rw [Catalog.decode_encode _ hs hlen] at hl
      exact (Except.ok.inj hl).symm
    · rw [Catalog.decode_encode_of_ge _ hlen] at hl
      cases hl

/-- Whatever fails when a store is opened, its files list what they did; and the store, if
    there is one, lists just that. -/
theorem safe_openPlan {options : StoreOptions} (ho : options.dataDir = root) (tally : Tally)
    (h : Shelved K root t es) :
    Plan.Safe late (Recoverable K root)
      (fun r t' => ∀ s, r = .ok s → Lists K late root s ∧ s.disk = t')
      (openPlan options tally) t := by
  subst ho
  -- The folders of a store are no place for a file, so making them changes none.
  have hframe : Plan.Safe late
      (fun t' => ∀ r, FileSpot options.dataDir r → t'.get? r = t.get? r)
      (fun _ t' => ∀ r, FileSpot options.dataDir r → t'.get? r = t.get? r)
      (attemptAll (folders options.dataDir)) t :=
    safe_attemptAll (fun _ _ => rfl) fun st hst t₁ res t₂ h₁ hg r hr => by
      rw [Step.get?_of_gives hg (not_touches_of_folders hst hr), h₁ r hr]
  rw [openPlan]
  refine ((hframe.and (safe_attemptAll_run t _)).mono (fun _ ht => ⟨es, h.congr ht.1⟩)
    fun _ _ => id).bind fun res t₁ ht₁ hrec => ?_
  obtain ⟨hf, hrun⟩ := ht₁
  cases res with
  | error e => exact Plan.safe_pure hrec (by simp)
  | ok u =>
    have h₁ := h.congr hf
    refine ((Catalog.safe_loadPlan (metaPath options.dataDir) t₁).mono (fun _ ht => ht ▸ hrec)
      fun _ _ => id).bind fun res t₂ hload _ => ?_
    obtain ⟨rfl, hload⟩ := hload
    cases res with
    | error e => exact Plan.safe_pure hrec (by simp)
    | ok c =>
      obtain rfl : c = ⟨metaPath options.dataDir, es⟩ := by
        rcases hload with hload | ⟨e, hload⟩
        · exact eq_of_load h₁.sorted h₁.filed
            (fun r hr => dir_of_folders (hrun rfl) (hr.trans (List.prefix_append _ _))) hload.symm
        · cases hload
      refine Plan.safe_ask_bind (Plan.safe_pure hrec fun s hs => ?_)
      cases hs
      exact ⟨⟨rfl, rfl, ⟨h₁.sorted, es, h₁.sorted, h₁.filed, .refl es, fun _ => rfl⟩, h₁.indexed,
        fun _ _ hp => absurd rfl hp⟩, rfl⟩

/-! ## Changes to the catalog -/

/-- Accesses to the files are safe for the store if they are for its catalog. -/
theorem safe_catalogPlan {change : Catalog → Plan FileTree (Except StorageError α × Catalog)}
    {always : FileTree → Prop} {post : Except StorageError α × Catalog → FileTree → Prop}
    (h : Plan.Safe late always post (change s.catalog) s.disk) :
    Plan.Safe late (fun s' => always s'.disk)
      (fun a s' => post (a, s'.catalog) s'.disk ∧ s' = ⟨{ s.log with disk := s'.disk }, s'.catalog⟩)
      (catalogPlan change) s := by
  refine Plan.safe_ask_bind (((Plan.safe_within diskFocus h).mono ?_ fun _ _ => id).bind ?_)
  · rintro _ ⟨t, ht, rfl⟩
    exact ht
  · rintro r _ ⟨t, ht, rfl⟩ ha
    exact Plan.safe_act_bind ha (Plan.safe_pure ha ⟨ht, rfl⟩)

/-- A change to a catalog touches no file of a key. -/
theorem get?_of_beside (hb : Catalog.Beside (metaPath root) t t') (key folder : String) :
    t'.get? (filePath root key folder) = t.get? (filePath root key folder) := by
  refine hb.frame _ (filePath_ne_beside root key folder _) fun i h => ?_
  rw [metaPath, Catalog.tempName_fileName] at h
  exact filePath_ne_beside root key folder _ h

namespace Lists

variable (hl : Lists K late root s)

include hl

theorem path_ne_nil : s.catalog.path ≠ [] := by
  rw [hl.path_eq, metaPath]
  simp

theorem recoverable : Recoverable K root s.disk := by
  obtain ⟨es, hs, hf, hc, -⟩ := hl.backed.file
  rw [hl.path_eq] at hf
  exact ⟨es, hs, hf, hl.indexed.mono hc⟩

theorem count (m : Metric) : Lists K late root (s.count m) :=
  ⟨hl.root_eq, hl.path_eq, hl.backed, hl.indexed, hl.cached⟩

theorem recoverable_of_passes (h : Catalog.Passes s.catalog s.disk t') : Recoverable K root t' := by
  obtain ⟨es, hs, hf, hc⟩ := h.file
  have hb := h.beside
  rw [hl.path_eq] at hf hb
  exact ⟨es, hs, hf, (hl.indexed.mono hc).congr fun k _ => get?_of_beside hb k "index"⟩

theorem becomes {c : Catalog} (h : Catalog.Becomes late s.catalog s.disk c t') :
    Lists K late root ⟨{ s.log with disk := t' }, c⟩ := by
  have hb := h.beside
  rw [hl.path_eq] at hb
  refine ⟨hl.root_eq, h.path.trans hl.path_eq, h.backed, ?_, fun k hk hp => ?_⟩
  · exact (hl.indexed.mono h.covers).congr fun k _ => get?_of_beside hb k "index"
  · exact h.covers k (hl.cached k hk hp)

/-- Changing the catalog takes no key off the list. -/
theorem safe_catalog {change : Catalog → Plan FileTree (Except StorageError α × Catalog)}
    {post : Except StorageError α × Catalog → FileTree → Prop}
    (h : Plan.Safe late (Catalog.Passes s.catalog s.disk)
      (fun r t' => Catalog.Becomes late s.catalog s.disk r.2 t' ∧ post r t')
      (change s.catalog) s.disk) :
    Plan.Safe late (fun s' => Recoverable K root s'.disk)
      (fun a s' => Lists K late root s' ∧ post (a, s'.catalog) s'.disk) (catalogPlan change) s := by
  refine (safe_catalogPlan h).mono (fun _ => hl.recoverable_of_passes) fun a s' ⟨⟨hc, hp⟩, hs'⟩ => ?_
  refine ⟨?_, hp⟩
  rw [hs']
  exact hl.becomes hc

/-! ## Changes to the log -/

/-- What is touched of a listed key does not matter, as long as its index file is one. -/
theorem touches (hK : Distinct K) (hkey : key ∈ K) (ht : Touches key s.log log')
    (hi : log'.disk.get? (filePath root key "index") ≠ none → s.replica? key ≠ none)
    (hr : ∀ bs, log'.disk.get? (filePath root key "index") = some (.file bs) →
      ∃ fanout fs, fs ≠ [] ∧ bs = Index.file fanout fs)
    (hc : log'.cache.peek key ≠ none → s.replica? key ≠ none) :
    Lists K late root { s with log := log' } := by
  have hroot := hl.root_eq
  have hother : ∀ k ∈ K, k ≠ key →
      log'.disk.get? (filePath root k "index") = s.disk.get? (filePath root k "index") :=
    fun k hk hne => ht.frame _ (hroot ▸ not_territory hK hk hkey hne (.inr rfl))
  refine ⟨ht.root.trans hroot, hl.path_eq, ⟨hl.backed.sorted, ?_⟩,
    ⟨fun k hk h => ?_, fun k hk bs h => ?_⟩, fun k hk h => ?_⟩
  · obtain ⟨es, hs, hf, hcov, hes⟩ := hl.backed.file
    have hmeta : log'.disk.get? (metaPath root) = s.disk.get? (metaPath root) :=
      ht.frame _ (hroot ▸ not_territory_metaPath _ key)
    refine ⟨es, hs, ?_, hcov, hes⟩
    rw [Catalog.Filed, hl.path_eq] at hf ⊢
    show log'.disk.get? _ = _ ∧ _ ∨ log'.disk.get? _ = _
    rwa [hmeta]
  · by_cases hkk : k = key
    · exact hkk ▸ hi (hkk ▸ h)
    · exact hl.indexed.listed k hk (hother k hk hkk ▸ h)
  · by_cases hkk : k = key
    · exact hr bs (hkk ▸ h)
    · exact hl.indexed.records k hk bs (hother k hk hkk ▸ h)
  · by_cases hkk : k = key
    · exact hkk ▸ hc (hkk ▸ h)
    · exact hl.cached k hk (ht.cache k hkk h)

theorem untouched (h : Untouched s.log log') : Lists K late root { s with log := log' } := by
  have hd : log'.disk = s.disk := h.disk
  refine ⟨h.root.trans hl.root_eq, hl.path_eq, ?_, ?_, fun k hk hp => ?_⟩
  · show Catalog.Backed late s.catalog log'.disk
    rw [hd]
    exact hl.backed
  · show Indexed K root log'.disk _
    rw [hd]
    exact hl.indexed
  · exact hl.cached k hk (h.cache k ▸ hp)

/-- Whoever finds a tip in an index file finds a listed key. -/
theorem listed_of_tipAt (hkey : key ∈ K) {tip : Index.Tip}
    (h : tipAt s.disk (s.log.indexPath key) = .ok (some tip)) : s.replica? key ≠ none := by
  refine hl.indexed.listed key hkey ?_
  rw [tipAt] at h
  split at h
  · cases h
  · cases h
  · rename_i hread
    rw [← hl.root_eq, ← indexPath, get?_of_read hread]
    simp

theorem consulted (hK : Distinct K) (hkey : key ∈ K) (h : Consulted key s.log log') :
    Lists K late root { s with log := log' } := by
  have hd : log'.disk = s.disk := h.disk
  refine hl.touches hK hkey h.touches (fun hi => ?_) (fun bs hbs => ?_) fun hp => ?_
  · exact hl.indexed.listed key hkey (hd ▸ hi)
  · exact hl.indexed.records key hkey bs (hd ▸ hbs)
  · rcases h.cache hp with hp | ⟨tip, htip⟩
    · exact hl.cached key hkey hp
    · exact hl.listed_of_tipAt hkey htip

/-- An index file with a value more is an index file with values. -/
theorem records_of_appended (hkey : key ∈ K) {bs : Bytes} (h : Appended s.log key value bs) :
    ∃ fanout fs, fs ≠ [] ∧ bs = Index.file fanout fs := by
  obtain ⟨tip, t, -, old, hold, rfl⟩ := h
  cases tip with
  | none =>
    obtain ⟨fanout, rfl⟩ := hold
    exact ⟨fanout, [⟨t, startBehind none + UInt64.ofNat value.length⟩], by simp, by simp [Index.file]⟩
  | some tip =>
    have hget : s.disk.get? (filePath root key "index") = some (.file old) := by
      rw [← hl.root_eq]
      exact hold
    obtain ⟨fanout, fs, -, rfl⟩ := hl.indexed.records key hkey old hget
    exact ⟨fanout, fs ++ [_], by simp, (Index.file_concat fanout fs _).symm⟩

/-- The value of a listed key may be appended, or part of it. -/
theorem grown (hK : Distinct K) (hkey : key ∈ K) (hlisted : s.replica? key ≠ none)
    (h : Grown key (Appended s.log key value) s.log log') :
    Lists K late root { s with log := log' } := by
  refine hl.touches hK hkey h.touches (fun _ => hlisted) (fun bs hbs => ?_) fun _ => hlisted
  have hindex := h.index
  rw [indexPath, hl.root_eq] at hindex
  rcases hindex with hsame | ⟨bs', happ, hnew⟩
  · exact hl.indexed.records key hkey bs (hsame ▸ hbs)
  · rw [hbs, Option.some.injEq, Item.file.injEq] at hnew
    exact hnew ▸ hl.records_of_appended hkey happ

end Lists

end ReplicaRing.Store
