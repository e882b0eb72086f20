import ReplicaRing.Proofs.Log.Image

/-!
# What a write makes of the files, path by path

A change to a tree is told by what it lays over the tree: a file or a directory at some paths, and
nothing at all others (`FileTree.Overlaid`). Two changes that lay nothing different over the same
path may be made in either order (`FileTree.or_left_comm`).

* A file that is replaced by way of a temporary one is laid over the tree, and nothing else is
  (`FileTree.overlaid_replaced`).
* A write of a key lays over the tree the two files of the key and the directories above them
  (`Log.keyFiles`, `Log.overlaid_write`). That is so of any tree in which the write succeeds.
-/

namespace ReplicaRing

namespace FileTree

variable {t t' : FileTree} {f : Path → Option Item} {p path temp : Path}

/-! ## Overlays -/

/-- `t'` is `t` with `f` laid over it. -/
def Overlaid (t : FileTree) (f : Path → Option Item) (t' : FileTree) : Prop :=
  ∀ p, t'.get? p = (f p).or (t.get? p)

theorem Overlaid.get?_of_none (h : t.Overlaid f t') (hp : f p = none) : t'.get? p = t.get? p := by
  rw [h p, hp, Option.none_or]

/-- Where both lay something over the tree it is the same, so either may come first. -/
theorem or_left_comm {x y z : Option Item} (h : x = none ∨ y = none ∨ x = y) :
    x.or (y.or z) = y.or (x.or z) := by
  rcases h with rfl | rfl | rfl
  · rw [Option.none_or, Option.none_or]
  · rw [Option.none_or, Option.none_or]
  · rfl

/-- One file. -/
def oneFile (path : Path) (bs : Bytes) (p : Path) : Option Item :=
  if p = path then some (.file bs) else none

/-- What is moved away is gone. -/
theorem get?_of_renamed (hne : temp ≠ path) (htemp : temp ≠ [])
    (h : (Step.rename temp path).apply t = .ok t') : t'.get? temp = none := by
  obtain ⟨bs, -, rfl⟩ := rename_eq_ok (ioStep_eq_ok h)
  rw [get?_set_of_ne _ _ hne, get?_erase _ htemp, if_pos rfl]

/-- A file is replaced, and nothing is left of the temporary one. -/
theorem overlaid_replaced (pieces : List Bytes) (hpath : path ≠ [])
    (h : t.run (replaceWith (t.freshTemp path) path pieces) = (.ok (), t')) :
    t.Overlaid (oneFile path pieces.flatten) t' := by
  obtain ⟨i, hi⟩ := exists_freshTemp t path
  have htemp : t.freshTemp path ≠ [] := hi ▸ tempName_ne_nil path i
  have hne : path ≠ t.freshTemp path := hi ▸ ne_tempName hpath i
  have hsafe : Plan.Safe false _ _ (attemptAll (replaceWith (t.freshTemp path) path pieces)) t :=
    safe_replace hne htemp hpath pieces
  have hrepl := hsafe.ends _ _ (Plan.ends_run _ _ _)
  rw [run_attemptAll, h] at hrepl
  intro p
  rw [oneFile]
  by_cases hp : p = path
  · rw [if_pos hp, Option.some_or, hp]
    exact hrepl.done rfl
  · rw [if_neg hp, Option.none_or]
    by_cases hpt : p = t.freshTemp path
    · -- The temporary file was not there before, and it has been moved.
      rw [hpt, get?_freshTemp]
      rw [replaceWith, ← List.cons_append, run_append] at h
      split at h
      · obtain ⟨t₂, hmove, hrest⟩ := exists_of_run_cons h
        cases hrest
        exact get?_of_renamed hne.symm htemp hmove
      · cases h
    · exact hrepl.frame p hpt hp

/-! ## Trees that name the same -/

theorem walk_congr (h : ∀ p, t'.get? p = t.get? p) (ps : List Path) : t'.walk ps = t.walk ps := by
  induction ps with
  | nil => rfl
  | cons p ps ih => rw [walk, walk, h p, ih]

theorem find_congr (h : ∀ p, t'.get? p = t.get? p) (p : Path) : t'.find p = t.find p := by
  rw [find, find, reach, reach, walk_congr h, h p]

theorem read_congr (h : ∀ p, t'.get? p = t.get? p) (p : Path) : t'.read p = t.read p := by
  rw [read, read, find_congr h]

end FileTree

namespace Log

open FileTree

variable {K : Set String} {H : String → History} {t t' : FileTree} {root path p : Path}
  {log log' : Log} {key k folder : String} {value data index : Bytes} {time : Time}
  {start : Offset} {tip : Option Index.Tip}

instance (root : Path) (key : String) (p : Path) : Decidable (OnTheWay root key p) :=
  inferInstanceAs (Decidable (_ ∨ _))

/-- The files of a key and the directories above them. -/
def keyFiles (root : Path) (key : String) (data index : Bytes) (p : Path) : Option Item :=
  if p = filePath root key "data" then some (.file data)
  else if p = filePath root key "index" then some (.file index)
  else if OnTheWay root key p then some .dir
  else none

@[simp] theorem keyFiles_data (root : Path) (key : String) (data index : Bytes) :
    keyFiles root key data index (filePath root key "data") = some (.file data) :=
  if_pos rfl

@[simp] theorem keyFiles_index (root : Path) (key : String) (data index : Bytes) :
    keyFiles root key data index (filePath root key "index") = some (.file index) := by
  rw [keyFiles, if_neg (dataPath_ne_indexPath root key key).symm, if_pos rfl]

theorem keyFiles_of_onTheWay (h : OnTheWay root key p) :
    keyFiles root key data index p = some .dir := by
  have hne : ∀ folder, p ≠ filePath root key folder := fun folder hp =>
    not_onTheWay_filePath root key key folder (hp ▸ h)
  rw [keyFiles, if_neg (hne "data"), if_neg (hne "index"), if_pos h]

theorem keyFiles_eq_none (hd : p ≠ filePath root key "data") (hi : p ≠ filePath root key "index")
    (hw : ¬OnTheWay root key p) : keyFiles root key data index p = none := by
  rw [keyFiles, if_neg hd, if_neg hi, if_neg hw]

theorem keyFiles_of_not_territory (h : ¬Territory root key p) :
    keyFiles root key data index p = none :=
  keyFiles_eq_none (fun hp => h (.data hp)) (fun hp => h (.index hp)) fun hw =>
    h (hw.elim .dataFolder .indexFolder)

/-- What is laid over a path is a directory on the way, or a file of the key. -/
theorem keyFiles_cases (root : Path) (key : String) (data index : Bytes) (p : Path) :
    keyFiles root key data index p = none ∨
      OnTheWay root key p ∧ keyFiles root key data index p = some .dir ∨
      ∃ folder bs, IsFolder folder ∧ p = filePath root key folder ∧
        keyFiles root key data index p = some (.file bs) := by
  by_cases hd : p = filePath root key "data"
  · exact .inr (.inr ⟨"data", data, .inl rfl, hd, by rw [hd, keyFiles_data]⟩)
  by_cases hi : p = filePath root key "index"
  · exact .inr (.inr ⟨"index", index, .inr rfl, hi, by rw [hi, keyFiles_index]⟩)
  by_cases hw : OnTheWay root key p
  · exact .inr (.inl ⟨hw, keyFiles_of_onTheWay hw⟩)
  · exact .inl (keyFiles_eq_none hd hi hw)

/-- Two keys have nothing but directories in common. -/
theorem keyFiles_disjoint {data' index' : Bytes} (hK : Distinct K) (hkey : key ∈ K) (hk : k ∈ K)
    (hne : key ≠ k) (p : Path) :
    keyFiles root key data index p = none ∨ keyFiles root k data' index' p = none ∨
      keyFiles root key data index p = keyFiles root k data' index' p := by
  rcases keyFiles_cases root key data index p with h | ⟨hw, h⟩ | ⟨folder, bs, hf, rfl, h⟩
  · exact .inl h
  · rcases keyFiles_cases root k data' index' p with h' | ⟨hw', h'⟩ | ⟨folder, bs, hf, rfl, -⟩
    · exact .inr (.inl h')
    · exact .inr (.inr (h.trans h'.symm))
    · exact absurd hw (not_onTheWay_filePath root key k folder)
  · exact .inr (.inl (keyFiles_of_not_territory (not_territory hK hkey hk hne hf)))

/-! ## Writes -/

theorem get?_of_dataSteps (h : t.run (dataSteps path start value) = (.ok (), t')) :
    (∀ p, p <+: folderOf path → p ≠ path → t'.get? p = some .dir) ∧
      ∀ p, ¬p <+: folderOf path → p ≠ path → t'.get? p = t.get? p := by
  refine ⟨fun p hp hne => ?_, fun p hp hne => ?_⟩
  · obtain ⟨t₁, hmake, hrest⟩ := exists_of_run_cons h
    have hrun : (t₁.run [.create path, .cut path start.toNat, .add path value]).2.get? p =
        t₁.get? p := get?_run fun s hs ht => by
      simp only [List.mem_cons, List.not_mem_nil, or_false] at hs
      rcases hs with rfl | rfl | rfl <;> exact hne ht
    rw [hrest] at hrun
    exact hrun.trans (get?_of_makes (ioStep_eq_ok hmake) hp).1
  · have hrun : (t.run (dataSteps path start value)).2.get? p = t.get? p :=
      get?_run fun s hs ht => (touches_dataSteps hs ht).elim hp hne
    rwa [h] at hrun

theorem get?_of_writeIndex {e : Index.Entry} {hasTip : Bool}
    (h : log.writeIndex key e hasTip = (.ok (), log')) :
    (∀ p, p <+: folderOf (log.indexPath key) → log'.disk.get? p = some .dir) ∧
      ∀ p, ¬p <+: folderOf (log.indexPath key) → p ≠ log.indexPath key →
        log'.disk.get? p = log.disk.get? p := by
  have hpath : ¬log.indexPath key <+: folderOf (log.indexPath key) :=
    not_prefix_folderOf_index _ _ _ _
  rw [writeIndex] at h
  dsimp only [enter, indexPath] at h hpath ⊢
  split at h
  · cases h
  · rename_i disk hmake
    split at h
    · cases h
    · rename_i old _
      split at h
      · rename_i hrun
        cases h
        have hlaid := overlaid_replaced [old, Index.encodeRecord e]
          (filePath_ne_nil log.root key "index") hrun
        have hkept : ∀ p, p ≠ filePath log.root key "index" → oneFile
            (filePath log.root key "index") [old, Index.encodeRecord e].flatten p = none :=
          fun p hp => if_neg hp
        refine ⟨fun p hp => ?_, fun p hp hne => ?_⟩
        · rw [hlaid.get?_of_none (hkept p fun hpe => hpath (hpe ▸ hp))]
          exact (get?_of_makes hmake hp).1
        · rw [hlaid.get?_of_none (hkept p hne), get?_of_makeDirs hmake hp]
      · cases h

/-- A write that succeeds lays the files of the key over the tree, whatever the tree. -/
theorem overlaid_write {new : Index.Tip} (h : log.write key tip value time = (.ok new, log'))
    (hdata : log'.disk.get? (log.dataPath key) = some (.file data))
    (hindex : log'.disk.get? (log.indexPath key) = some (.file index)) :
    log.disk.Overlaid (keyFiles log.root key data index) log'.disk := by
  rw [write] at h
  split at h
  · cases h
  rw [writeSpan] at h
  split at h
  · cases h
  · rename_i log₁ hwd
    obtain ⟨hroot, -, hrun, -⟩ := of_writeData hwd
    obtain ⟨hdirs, hkept⟩ := get?_of_dataSteps hrun
    split at h
    · cases h
    · rename_i log₂ hwi
      cases h
      obtain ⟨hdirs', hkept'⟩ := get?_of_writeIndex hwi
      simp only [indexPath, dataPath, hroot] at hdirs' hkept' hdirs hkept hdata hindex
      intro p
      by_cases hd : p = filePath log.root key "data"
      · rw [hd, keyFiles_data, Option.some_or, ← hdata]
      by_cases hi : p = filePath log.root key "index"
      · rw [hi, keyFiles_index, Option.some_or, ← hindex]
      by_cases hpi : p <+: folderOf (filePath log.root key "index")
      · rw [keyFiles_of_onTheWay (.inr hpi)]
        exact hdirs' p hpi
      by_cases hpd : p <+: folderOf (filePath log.root key "data")
      · rw [keyFiles_of_onTheWay (.inl hpd)]
        exact (hkept' p hpi hi).trans (hdirs p hpd hd)
      · rw [keyFiles_eq_none hd hi (not_or.2 ⟨hpd, hpi⟩), Option.none_or]
        exact (hkept' p hpi hi).trans (hkept p hpd hd)

end Log

end ReplicaRing
