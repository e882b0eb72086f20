import ReplicaRing.Proofs.Log.Faults

/-!
# Writes that fail

Nothing is asked here of the files that a write finds: they may be cut short, damaged or missing,
directories may lie where files belong and files where directories do. A write that fails leaves
the history of the key alone (`Log.Spares`): the index file is as it was, and the data file still
begins with the bytes that the index file tells of. Files of other keys are not touched at all.

* So it is whichever access fails, as long as the new index file is not in its place yet
  (`Log.safe_appendPlan_spares`, `Log.safe_appendNowPlan_spares`). Then a temporary file may be
  left behind, for its removal may fail as well.
* If it is the files that make the write fail, no temporary file is left behind
  (`Log.undone_of_failed`).
-/

namespace ReplicaRing.Log

open FileTree

variable {late : Bool} {root p : Path} {key : String} {n : Nat} {t t' t'' : FileTree}
  {log log' log'' : Log} {value : Bytes} {time : Time} {start : Offset} {s : Step} {ε α : Type}

/-! ## What is spared -/

/-- A directory may be made there for the files of the key. -/
def OnTheWay (root : Path) (key : String) (p : Path) : Prop :=
  p <+: folderOf (filePath root key "data") ∨ p <+: folderOf (filePath root key "index")

theorem not_onTheWay_filePath (root : Path) (key k folder : String) :
    ¬OnTheWay root key (filePath root k folder) := fun h =>
  h.elim (not_prefix_folderOf_data root k key folder) (not_prefix_folderOf_index root k key folder)

theorem not_onTheWay_tempName (root : Path) (key : String) (i : Nat) :
    ¬OnTheWay root key (tempName (filePath root key "index") i) := by
  have hspot := fileSpot_tempName root key "index" i
  rintro (h | h)
  · exact (dirSpot_folderOf root key (.inl rfl)).not_above hspot h
  · exact (dirSpot_folderOf root key (.inr rfl)).not_above hspot h

/-- A path is as it was, or there is a directory on the way to the files of the key where there
    was nothing. -/
def SameOrMade (root : Path) (key : String) (t t' : FileTree) (p : Path) : Prop :=
  t'.get? p = t.get? p ∨ OnTheWay root key p ∧ t.get? p = none ∧ t'.get? p = some .dir

/-- If the data file of the key begins with `n` bytes, it still begins with the same. All other
    paths but those of temporary files are as they were, or a directory has been made there. -/
structure Spares (root : Path) (key : String) (n : Nat) (t t' : FileTree) : Prop where
  data : ∀ kept rest, kept.length = n →
    t.get? (filePath root key "data") = some (.file (kept ++ rest)) →
      ∃ rest', t'.get? (filePath root key "data") = some (.file (kept ++ rest'))
  frame : ∀ p, p ≠ filePath root key "data" → (∀ i, p ≠ tempName (filePath root key "index") i) →
    SameOrMade root key t t' p

theorem SameOrMade.trans (h : SameOrMade root key t t' p) (h' : SameOrMade root key t' t'' p) :
    SameOrMade root key t t'' p := by
  rcases h' with h' | ⟨hw, hn, hd⟩
  · rw [SameOrMade, h']
    exact h
  · rcases h with h | ⟨-, -, hd'⟩
    · exact .inr ⟨hw, h ▸ hn, hd⟩
    · rw [hn] at hd'
      cases hd'

/-- No directory is made in the place of a file. -/
theorem SameOrMade.get?_eq (h : SameOrMade root key t t' p) (hp : ¬OnTheWay root key p) :
    t'.get? p = t.get? p :=
  h.resolve_right fun h => hp h.1

/-- Where only temporary files differ, everything is spared. -/
theorem spares_of_frame
    (h : ∀ p, (∀ i, p ≠ tempName (filePath root key "index") i) → t'.get? p = t.get? p) :
    Spares root key n t t' where
  data kept rest _ hg := ⟨rest, by
    rw [h _ fun i => (tempName_ne_filePath root key key i (.inl rfl)).symm, hg]⟩
  frame p _ hp := .inl (h p hp)

theorem Spares.refl (root : Path) (key : String) (n : Nat) (t : FileTree) :
    Spares root key n t t :=
  spares_of_frame fun _ _ => rfl

theorem Spares.trans (h : Spares root key n t t') (h' : Spares root key n t' t'') :
    Spares root key n t t'' where
  data kept rest hn hg := by
    obtain ⟨rest', hg'⟩ := h.data kept rest hn hg
    exact h'.data kept rest' hn hg'
  frame p hd hp := (h.frame p hd hp).trans (h'.frame p hd hp)

/-! ## Steps -/

theorem spares_of_makeDirs (hp : ∀ q, q <+: p → OnTheWay root key q)
    (h : t.makeDirs p = .ok t') : Spares root key n t t' := by
  have hfile : ∀ folder, ¬filePath root key folder <+: p := fun folder hf =>
    not_onTheWay_filePath root key key folder (hp _ hf)
  refine ⟨fun kept rest _ hg => ⟨rest, ?_⟩, fun q _ _ => ?_⟩
  · rw [get?_of_makeDirs h (hfile "data"), hg]
  · by_cases hq : q <+: p
    · obtain ⟨hd, ho | ho⟩ := get?_of_makes h hq
      · exact .inl (hd.trans ho.symm)
      · exact .inr ⟨hp q hq, ho, hd⟩
    · exact .inl (get?_of_makeDirs h hq)

/-- A step on the data file behind its first `n` bytes spares them. -/
theorem spares_of_apply (hs : s ∈ dataSteps (filePath root key "data") start value)
    (h : s.apply t = .ok t') : Spares root key start.toNat t t' := by
  have hframe : (∀ p, s.Touches p → p = filePath root key "data") → ∀ p,
      p ≠ filePath root key "data" → (∀ i, p ≠ tempName (filePath root key "index") i) →
      SameOrMade root key t t' p :=
    fun hs p hp _ => .inl (Step.get?_of_apply h fun ht => hp (hs p ht))
  simp only [dataSteps, List.mem_cons, List.not_mem_nil, or_false] at hs
  rcases hs with rfl | rfl | rfl | rfl
  · exact spares_of_makeDirs (fun _ => .inl) (ioStep_eq_ok h)
  · refine ⟨fun kept rest _ hg => ⟨rest, ?_⟩, hframe fun _ => id⟩
    obtain ⟨bs, ho, hg'⟩ := file_of_openFile (ioStep_eq_ok h)
    rw [hg] at ho
    rcases ho with ho | ⟨ho, -⟩
    · exact hg'.trans ho.symm
    · cases ho
  · -- The file is cut just behind the bytes that are to be kept.
    refine ⟨fun kept rest hn hg => ⟨[], ?_⟩, hframe fun _ => id⟩
    rw [Step.apply] at h
    split at h
    · cases h
    · rename_i hread
      split at h
      · cases h
      · cases h
        rw [get?_of_read hread, Option.some.injEq, Item.file.injEq] at hg
        rw [get?_set _ (ne_nil_of_get? (get?_of_read hread) (by simp)), if_pos rfl, hg, ← hn,
          List.take_left, List.append_nil]
  · refine ⟨fun kept rest _ hg => ⟨rest ++ value, ?_⟩, hframe fun _ => id⟩
    rw [get?_of_add h hg, List.append_assoc]

/-- So does one that fails, for what it leaves behind is what some other step does. -/
theorem spares_of_gives {res : Except StepError Unit}
    (hs : s ∈ dataSteps (filePath root key "data") start value)
    (hg : (attempt s).Gives late t res t') : Spares root key start.toNat t t' := by
  cases res with
  | ok u => exact spares_of_apply hs (apply_of_gives hg)
  | error e =>
    rcases left_of_gives hg with rfl | hp | ⟨h, -⟩
    · exact .refl _ _ _ _
    · cases hp with
      | makeDirs i h =>
        obtain rfl := by simpa [dataSteps] using hs
        exact spares_of_makeDirs (fun q hq => .inl (hq.trans (List.take_prefix i _))) h
      | @add _ bs _ i h =>
        obtain ⟨rfl, -⟩ := by simpa [dataSteps] using hs
        have hpart : Step.add (filePath root key "data") (bs.take i) ∈
            dataSteps (filePath root key "data") start (bs.take i) := by simp [dataSteps]
        exact spares_of_apply hpart h
    · exact spares_of_apply hs h

/-- An index file that could not be replaced is as it was. -/
theorem spares_of_replaced {res : Except StepError Unit} {e : StepError} {i : Nat} {bs : Bytes}
    (h : Replaced false (tempName (filePath root key "index") i) (filePath root key "index") bs t
      res t') (hres : res = .error e) : Spares root key n t t' := by
  refine spares_of_frame fun p hp => ?_
  by_cases hi : p = filePath root key "index"
  · rw [hi]
    exact (h.failed (by simp [hres])).resolve_right (by simp)
  · exact h.frame p (hp i) hi

/-! ## Plans -/

/-- The files are spared. -/
structure Spared (key : String) (n : Nat) (log log' : Log) : Prop where
  root : log'.root = log.root
  files : Spares log.root key n log.disk log'.disk

theorem Spared.trans (h : Spared key n log log') (h' : Spared key n log' log'') :
    Spared key n log log'' :=
  ⟨h'.root.trans h.root, h.files.trans (h.root ▸ h'.files)⟩

theorem spared_of_disk (hr : log'.root = log.root) (hd : log'.disk = log.disk) :
    Spared key n log log' :=
  ⟨hr, hd ▸ .refl _ _ _ _⟩

theorem Spared.onto (h : Spared key n log log') (ht : Spares log.root key n log'.disk t) :
    Spared key n log { log' with disk := t } :=
  ⟨h.root, h.files.trans ht⟩

/-- If the plan fails, the files are spared. -/
def SparedIfFailed (key : String) (n : Nat) (log : Log) (r : Except ε α) (log' : Log) : Prop :=
  ∀ e, r = .error e → Spared key n log log'

theorem Spared.ifFailed {r : Except ε α} (h : Spared key n log log') :
    SparedIfFailed key n log r log' :=
  fun _ _ => h

theorem safe_writeDataPlan_spares (log : Log) (key : String) (start : Offset) (value : Bytes) :
    Plan.Safe late (Spared key start.toNat log) (fun _ => Spared key start.toNat log)
      (writeDataPlan key start value) log := by
  rw [writeDataPlan]
  have h₁ : Spared key start.toNat log (log.enter "data_write") := spared_of_disk rfl rfl
  refine Plan.safe_act_bind (spared_of_disk rfl rfl) (Plan.safe_ask_bind ?_)
  have hsteps : Plan.Safe late (Spares log.root key start.toNat log.disk)
      (fun _ => Spares log.root key start.toNat log.disk)
      (attemptAll (dataSteps (filePath log.root key "data") start value)) log.disk :=
    safe_attemptAll (.refl _ _ _ _) fun s hs t₁ res t₂ ht hg => ht.trans (spares_of_gives hs hg)
  have hfiles : Plan.Safe late (Spared key start.toNat log)
      (fun _ => Spared key start.toNat log)
      ((attemptAll (dataSteps (filePath log.root key "data") start value)).within diskFocus)
      (log.enter "data_write") := by
    refine (Plan.safe_within diskFocus (s := log.enter "data_write") hsteps).mono ?_ ?_
    · rintro _ ⟨t, ht, rfl⟩
      exact ⟨h₁.root, ht⟩
    · rintro _ _ ⟨t, ht, rfl⟩
      exact ⟨h₁.root, ht⟩
  refine hfiles.bind fun res log₁ h _ => ?_
  cases res with
  | ok u => exact Plan.safe_pure h h
  | error e => exact Plan.safe_pure h h

/-- If the new index file cannot be built and moved to its place, the old one is there. -/
theorem safe_recordPlan_spares (n : Nat) (log : Log) (key : String) (old : Bytes) (e : Index.Entry)
    (i : Nat) :
    Plan.Safe false (fun _ => True) (SparedIfFailed key n log)
      (recordPlan (filePath log.root key "index") old e
        (tempName (filePath log.root key "index") i)) log := by
  set path := filePath log.root key "index" with hpath
  have hnil : path ≠ [] := filePath_ne_nil _ _ _
  have hrepl : Plan.Safe false _ _ (attemptAll (indexSteps (tempName path i) path old e))
      log.disk :=
    safe_replace (ne_tempName hnil i) (tempName_ne_nil _ i) hnil [old, Index.encodeRecord e]
  have hfiles : Plan.Safe false (fun _ => True)
      (fun res log' => ∀ e, res = .error e → Spared key n log log')
      ((attemptAll (indexSteps (tempName path i) path old e)).within diskFocus) log := by
    refine (Plan.safe_within diskFocus hrepl).mono (fun _ _ => trivial) ?_
    rintro res _ ⟨t, ht, rfl⟩ e hres
    exact ⟨rfl, spares_of_replaced ht hres⟩
  rw [recordPlan]
  refine hfiles.bind fun res log₁ h _ => ?_
  cases res with
  | ok u => exact Plan.safe_pure trivial (by simp [SparedIfFailed])
  | error err =>
    refine Plan.safe_access_bind trivial fun u log₂ hx => ?_
    obtain ⟨t, hg, rfl⟩ := Access.gives_within hx
    have hclean : Spares log.root key n log₁.disk t :=
      spares_of_frame fun p hp => get?_of_discard hg (hp i)
    exact Plan.safe_pure trivial ((h err rfl).onto hclean).ifFailed

/-- An index file that is not put in its place for a failure before is as it was. -/
theorem safe_writeIndexPlan_spares (n : Nat) (log : Log) (key : String) (e : Index.Entry)
    (hasTip : Bool) : Plan.Safe false (fun _ => True) (SparedIfFailed key n log)
      (writeIndexPlan key e hasTip) log := by
  rw [writeIndexPlan]
  refine Plan.safe_act_bind trivial (Plan.safe_ask_bind ?_)
  refine Plan.safe_access_bind trivial fun res log₁ hx => ?_
  obtain ⟨t, hg, rfl⟩ := Access.gives_within hx
  have hmade : Spares log.root key n log.disk t := by
    cases res with
    | ok u => exact spares_of_makeDirs (fun _ => .inr) (ioStep_eq_ok (apply_of_gives hg))
    | error e =>
      -- Before it failed it may have made all of the folders, or some, or none.
      rcases left_of_gives hg with rfl | hp | ⟨h, -⟩
      · exact .refl _ _ _ _
      · cases hp with
        | makeDirs i h =>
          exact spares_of_makeDirs (fun q hq => .inr (hq.trans (List.take_prefix i _))) h
      · exact spares_of_makeDirs (fun _ => .inr) (ioStep_eq_ok h)
  have h₁ : Spared key n log { log.enter "index_write" with disk := t } := ⟨rfl, hmade⟩
  cases res with
  | error err => exact Plan.safe_pure trivial h₁.ifFailed
  | ok u =>
    refine Plan.safe_ask_bind (Plan.safe_access_bind trivial fun res log₂ hx => ?_)
    obtain rfl : log₂ = { log.enter "index_write" with disk := t } := by
      rcases hx with hx | ⟨-, rfl⟩
      · exact (Prod.mk.inj hx).2.symm
      · rfl
    cases res with
    | error err => exact Plan.safe_pure trivial h₁.ifFailed
    | ok old =>
      obtain ⟨i, hi⟩ := exists_freshTemp t (filePath log.root key "index")
      have hrec := safe_recordPlan_spares n { log.enter "index_write" with disk := t } key old e i
      have hplan : Plan.Safe false (fun _ => True) (SparedIfFailed key n log)
          (recordPlan (filePath log.root key "index") old e
            (tempName (filePath log.root key "index") i))
          { log.enter "index_write" with disk := t } :=
        hrec.mono (fun _ => id) fun r log' h err hr => h₁.trans (h err hr)
      rwa [← hi] at hplan

/-! ## Writes whose accesses fail -/

/-- The end of the last value that the index file of the key tells of is `n`, if it can be told. -/
def EndsAt (log : Log) (key : String) (n : Nat) : Prop :=
  ∀ tip, tipAt log.disk (log.indexPath key) = .ok tip → (startBehind tip).toNat = n

theorem safe_writeSpanPlan_spares (log : Log) (key : String) (hasTip : Bool) (value : Bytes)
    (new : Index.Tip) :
    Plan.Safe false (fun _ => True) (SparedIfFailed key new.span.start.toNat log)
      (writeSpanPlan key hasTip value new) log := by
  rw [writeSpanPlan]
  refine ((safe_writeDataPlan_spares log key new.span.start value).mono
    (fun _ _ => trivial) fun _ _ h => h).bind fun res log₁ h₁ _ => ?_
  cases res with
  | error e => exact Plan.safe_pure trivial h₁.ifFailed
  | ok u =>
    refine (safe_writeIndexPlan_spares new.span.start.toNat log₁ key _ _).bind
      fun res log₂ h₂ _ => ?_
    cases res with
    | error e => exact Plan.safe_pure trivial (h₁.trans (h₂ e rfl)).ifFailed
    | ok u => exact Plan.safe_act_bind trivial (Plan.safe_pure trivial (by simp [SparedIfFailed]))

/-- A write that breaks off has touched nothing yet. -/
theorem safe_writePlan_spares (log : Log) (key : String) (tip : Option Index.Tip) (value : Bytes)
    (time : Time) : Plan.Safe false (fun _ => True) (SparedIfFailed key (startBehind tip).toNat log)
      (writePlan key tip value time) log := by
  rw [writePlan]
  cases wordAfter? (startBehind tip) value.length with
  | none => exact Plan.safe_pure trivial (spared_of_disk rfl rfl).ifFailed
  | some stop =>
    exact safe_writeSpanPlan_spares log key tip.isSome value ⟨time, startBehind tip, stop⟩

/-- What comes of a write that fails after the tip has been looked up in the index file. -/
theorem safe_publishedTipPlan_spares (h : EndsAt log key n)
    {f : Except StorageError (Option Index.Tip) → Plan Log (Except StorageError α)}
    (herr : ∀ e, f (.error e) = pure (.error e))
    (hok : ∀ tip log', (startBehind tip).toNat = n →
      Plan.Safe false (fun _ => True) (SparedIfFailed key n log') (f (.ok tip)) log') :
    Plan.Safe false (fun _ => True) (SparedIfFailed key n log) (publishedTipPlan key >>= f)
      log := by
  refine ((safe_publishedTipPlan log key).mono (fun _ _ => trivial) fun _ _ h => h).bind
    fun res log₁ h₁ _ => ?_
  have hlog : Spared key n log log₁ := spared_of_disk h₁.1.touches.root h₁.1.disk
  cases res with
  | error e =>
    rw [herr]
    exact Plan.safe_pure trivial hlog.ifFailed
  | ok tip =>
    exact (hok tip log₁ (h tip (h₁.2 tip rfl))).mono (fun _ => id)
      fun r log' h e hr => hlog.trans (h e hr)

/-- Whichever access of a write fails, unless it fails late: the files are spared. -/
theorem safe_appendPlan_spares (h : EndsAt log key n) (value : Bytes) (time : Time) :
    Plan.Safe false (fun _ => True) (SparedIfFailed key n log) (appendPlan key value time) log := by
  rw [appendPlan]
  refine safe_publishedTipPlan_spares h (fun _ => rfl) fun tip log' htip => ?_
  dsimp only
  split
  · exact Plan.safe_pure trivial (spared_of_disk rfl rfl).ifFailed
  · exact htip ▸ safe_writePlan_spares log' key tip value time

theorem safe_appendNowPlan_spares (h : EndsAt log key n) (value : Bytes) (now : Time) :
    Plan.Safe false (fun _ => True) (SparedIfFailed key n log) (appendNowPlan key value now)
      log := by
  rw [appendNowPlan]
  refine safe_publishedTipPlan_spares h (fun _ => rfl) fun tip log' htip => ?_
  dsimp only
  split
  · exact Plan.safe_pure trivial (spared_of_disk rfl rfl).ifFailed
  · exact htip ▸ safe_writePlan_spares log' key tip value _

/-! ## Writes that the files make fail -/

/-- Steps leave alone what none of them is about. -/
theorem get?_run {ss : List Step} (h : ∀ s ∈ ss, ¬s.Touches p) :
    (t.run ss).2.get? p = t.get? p := by
  have hsafe : Plan.Safe false (fun t' => t'.get? p = t.get? p)
      (fun _ t' => t'.get? p = t.get? p) (attemptAll ss) t :=
    safe_attemptAll rfl fun s hs t₁ res t₂ ht hg => (Step.get?_of_gives hg (h s hs)).trans ht
  simpa using hsafe.ends _ _ (Plan.ends_run false (attemptAll ss) t)

/-- There are the same temporary files for the index file of the key as before. -/
structure Tidy (key : String) (log log' : Log) : Prop where
  root : log'.root = log.root
  temp : ∀ i, log'.disk.get? (tempName (log.indexPath key) i) =
    log.disk.get? (tempName (log.indexPath key) i)

theorem tidy_of_disk (hr : log'.root = log.root) (hd : log'.disk = log.disk) : Tidy key log log' :=
  ⟨hr, fun _ => by rw [hd]⟩

theorem Tidy.trans (h : Tidy key log log') (h' : Tidy key log' log'') : Tidy key log log'' := by
  refine ⟨h'.root.trans h.root, fun i => ?_⟩
  have := h'.temp i
  rw [indexPath, h.root, ← indexPath] at this
  exact this.trans (h.temp i)

theorem tidy_writeData {res : Except StorageError Unit}
    (h : log.writeData key start value = (res, log')) : Tidy key log log' := by
  have hrun : ∀ i, (log.disk.run (dataSteps (log.dataPath key) start value)).2.get?
      (tempName (log.indexPath key) i) = log.disk.get? (tempName (log.indexPath key) i) := fun i =>
    get?_run fun s hs h => by
      rcases touches_dataSteps hs h with h | h
      · exact not_onTheWay_tempName log.root key i (.inl h)
      · exact tempName_ne_filePath log.root key key i (.inl rfl) h
  rw [writeData] at h
  dsimp only [enter, dataPath] at hrun h
  split at h <;> rename_i hr <;> rw [hr] at hrun <;> cases h <;> exact ⟨rfl, hrun⟩

/-- The temporary file that could not be moved is removed; before there was none of its name. -/
theorem tidy_indexSteps {disk disk' : FileTree} {path : Path} {old : Bytes} {e : Index.Entry}
    {res : Except StepError Unit} (hpath : path ≠ [])
    (h : disk.run (indexSteps (disk.freshTemp path) path old e) = (res, disk')) (i : Nat) :
    (disk'.erase (disk.freshTemp path)).get? (tempName path i) = disk.get? (tempName path i) := by
  obtain ⟨j, hj⟩ := exists_freshTemp disk path
  by_cases hi : tempName path i = disk.freshTemp path
  · rw [hi, get?_freshTemp, get?_erase _ (hj ▸ tempName_ne_nil path j), if_pos rfl]
  · have hrun : (disk.run (indexSteps (disk.freshTemp path) path old e)).2.get?
        (tempName path i) = disk.get? (tempName path i) := get?_run fun s hs ht => by
        simp only [indexSteps, List.mem_cons, List.not_mem_nil, or_false] at hs
        have hne : tempName path i ≠ path := (ne_tempName hpath i).symm
        rcases hs with rfl | rfl | rfl | rfl
        · exact hi ht
        · exact hi ht
        · exact hi ht
        · exact ht.elim hi hne
    rw [h] at hrun
    rw [get?_erase_of_ne _ hi, hrun]

theorem tidy_writeIndex {e : Index.Entry} {hasTip : Bool} {err : StorageError}
    (h : log.writeIndex key e hasTip = (.error err, log')) : Tidy key log log' := by
  rw [writeIndex] at h
  dsimp only [enter, indexPath] at h
  split at h
  · cases h
    exact tidy_of_disk rfl rfl
  · rename_i disk hm
    have hmade : ∀ i, disk.get? (tempName (log.indexPath key) i) =
        log.disk.get? (tempName (log.indexPath key) i) := fun i =>
      get?_of_makeDirs hm fun h => not_onTheWay_tempName log.root key i (.inr h)
    split at h
    · cases h
      exact ⟨rfl, hmade⟩
    · split at h
      · cases h
      · rename_i hrun
        cases h
        exact ⟨rfl, fun i => (tidy_indexSteps (filePath_ne_nil _ _ _) hrun i).trans (hmade i)⟩

theorem tidy_writeSpan {hasTip : Bool} {new : Index.Tip} {err : StorageError}
    (h : log.writeSpan key hasTip value new = (.error err, log')) : Tidy key log log' := by
  rw [writeSpan] at h
  split at h
  · rename_i hdata
    cases h
    exact tidy_writeData hdata
  · rename_i hdata
    split at h
    · rename_i hindex
      cases h
      exact (tidy_writeData hdata).trans (tidy_writeIndex hindex)
    · cases h

theorem tidy_write {tip : Option Index.Tip} {err : StorageError}
    (h : log.write key tip value time = (.error err, log')) : Tidy key log log' := by
  rw [write] at h
  split at h
  · cases h
    exact tidy_of_disk rfl rfl
  · exact tidy_writeSpan h

/-- Looking the tip up in the index file leaves all but the cache alone. -/
theorem exists_publishedTip (log : Log) (key : String) : ∃ cache tally, log.publishedTip key =
    (tipAt log.disk (log.indexPath key), { log with cache := cache, tally := tally }) := by
  have hstored : log.storedTip key =
      (tipAt log.disk (log.indexPath key), log.enter "index_read") := rfl
  rw [publishedTip, hstored]
  cases tipAt log.disk (log.indexPath key) with
  | error e => exact ⟨_, _, rfl⟩
  | ok tip => cases tip <;> exact ⟨_, _, rfl⟩

/-- The write fails or breaks off, at the time given or at that of the clock. -/
def Fails (key : String) (value : Bytes) (time : Time) (log log' : Log) : Prop :=
  ∃ e, log.append key value time = (.error e, log') ∨
    log.appendNow key value time = (.error e, log')

theorem fails_of_append {e : StorageError} (h : (log.append key value time).1 = .error e) :
    Fails key value time log (log.append key value time).2 :=
  ⟨e, .inl (Prod.ext h rfl)⟩

/-- A write that fails has come no further than looking the tip up, or else it has been begun. -/
theorem Fails.cases (h : Fails key value time log log') : ∃ log₁ : Log, log₁.root = log.root ∧
    log₁.disk = log.disk ∧ (log' = log₁ ∨ ∃ tip time e,
      tipAt log.disk (log.indexPath key) = .ok tip ∧
        log₁.write key tip value time = (.error e, log')) := by
  obtain ⟨cache, tally, hp⟩ := log.exists_publishedTip key
  refine ⟨{ log with cache := cache, tally := tally }, rfl, rfl, ?_⟩
  obtain ⟨e, h | h⟩ := h
  · rw [Log.append, hp] at h
    cases htip : tipAt log.disk (log.indexPath key) with
    | error e' =>
      rw [htip] at h
      exact .inl (Prod.mk.inj h).2.symm
    | ok tip =>
      rw [htip] at h
      dsimp only at h
      split at h
      · exact .inl (Prod.mk.inj h).2.symm
      · exact .inr ⟨tip, time, e, rfl, h⟩
  · rw [Log.appendNow, hp] at h
    cases htip : tipAt log.disk (log.indexPath key) with
    | error e' =>
      rw [htip] at h
      exact .inl (Prod.mk.inj h).2.symm
    | ok tip =>
      rw [htip] at h
      dsimp only at h
      split at h
      · exact .inl (Prod.mk.inj h).2.symm
      · exact .inr ⟨tip, _, e, rfl, h⟩

theorem Fails.tidy (h : Fails key value time log log') : Tidy key log log' := by
  obtain ⟨log₁, hr, hd, rfl | ⟨tip, time, e, -, hw⟩⟩ := h.cases
  · exact tidy_of_disk hr hd
  · exact (tidy_of_disk hr hd).trans (tidy_write hw)

/-- A write to a key whose index file cannot be read leaves all files alone. -/
theorem Fails.disk (h : Fails key value time log log') {e : StorageError}
    (he : tipAt log.disk (log.indexPath key) = .error e) : log'.disk = log.disk := by
  obtain ⟨log₁, -, hd, rfl | ⟨tip, time, e, htip, -⟩⟩ := h.cases
  · exact hd
  · rw [he] at htip
    cases htip

theorem Fails.spared (h : Fails key value time log log') (hn : EndsAt log key n) :
    Spared key n log log' := by
  obtain ⟨e, h | h⟩ := h
  · have hrun := (safe_appendPlan_spares hn value time).ends _ _ (Plan.ends_run _ _ _)
    rw [run_appendPlan, h] at hrun
    exact hrun e rfl
  · have hrun := (safe_appendNowPlan_spares hn value time).ends _ _ (Plan.ends_run _ _ _)
    rw [run_appendNowPlan, h] at hrun
    exact hrun e rfl

/-- What a log keeps when a write to the key fails. -/
structure Undone (key : String) (log log' : Log) : Prop where
  index : log'.disk.get? (log.indexPath key) = log.disk.get? (log.indexPath key)
  /-- The data file begins with the same bytes up to the end of the last value, if it had as many
      bytes. -/
  data : ∀ tip kept rest, tipAt log.disk (log.indexPath key) = .ok tip →
    kept.length = (startBehind tip).toNat →
    log.disk.get? (log.dataPath key) = some (.file (kept ++ rest)) →
      ∃ rest', log'.disk.get? (log.dataPath key) = some (.file (kept ++ rest'))
  /-- If the index file does not tell where the last value ends, nothing is changed. -/
  unreadable : ∀ e, tipAt log.disk (log.indexPath key) = .error e → log'.disk = log.disk
  temp : ∀ i, log'.disk.get? (tempName (log.indexPath key) i) =
    log.disk.get? (tempName (log.indexPath key) i)
  /-- Keys with other digests have other files. -/
  others : ∀ k folder, Digest.sha1 (Bytes.ofString k) ≠ Digest.sha1 (Bytes.ofString key) →
    log'.disk.get? (filePath log.root k folder) = log.disk.get? (filePath log.root k folder)
  /-- But for the data file, nothing differs at all save for directories that were missing. -/
  frame : ∀ p, p ≠ log.dataPath key → SameOrMade log.root key log.disk log'.disk p

/-- A write that fails leaves what is written alone, whatever the files hold. -/
theorem undone_of_failed (h : Fails key value time log log') : Undone key log log' := by
  obtain ⟨n, hn⟩ : ∃ n, EndsAt log key n := by
    cases htip : tipAt log.disk (log.indexPath key) with
    | error e => exact ⟨0, fun tip h => by rw [htip] at h; cases h⟩
    | ok tip => exact ⟨_, fun tip' h => by rw [htip] at h; cases h; rfl⟩
  have hfiles := (h.spared hn).files
  have hframe : ∀ p, p ≠ log.dataPath key → SameOrMade log.root key log.disk log'.disk p := by
    intro p hp
    by_cases htemp : ∃ i, p = tempName (log.indexPath key) i
    · obtain ⟨i, rfl⟩ := htemp
      exact .inl (h.tidy.temp i)
    · exact hfiles.frame p hp fun i hi => htemp ⟨i, hi⟩
  have hfile : ∀ k folder, filePath log.root k folder ≠ log.dataPath key →
      log'.disk.get? (filePath log.root k folder) = log.disk.get? (filePath log.root k folder) :=
    fun k folder hp => (hframe _ hp).get?_eq (not_onTheWay_filePath _ _ _ _)
  exact {
    index := hfile key "index" (dataPath_ne_indexPath log.root key key).symm
    data := fun tip kept rest htip hlen hg =>
      hfiles.data kept rest (hlen.trans (hn tip htip)) hg
    unreadable := fun _ he => h.disk he
    temp := h.tidy.temp
    others := fun k folder hk => hfile k folder fun he => hk (filePath_inj he).2
    frame := hframe }

/-- A log whose data file has been cut to one of the three bytes that the index tells of. -/
def sampleCutShort : Log :=
  let log := (append ⟨.empty, [], 2, .batch, .empty 1, .zero⟩ "a" [1, 2, 3] 7).2
  { log with disk := log.disk.set (log.dataPath "a") (.file [1]) }

theorem undone_of_failed_sampleCutShort :
    tipAt sampleCutShort.disk (sampleCutShort.indexPath "a") = .ok (some ⟨7, 0, 3⟩) ∧
      Fails "a" [4] 9 sampleCutShort (sampleCutShort.append "a" [4] 9).2 ∧
        Undone "a" sampleCutShort (sampleCutShort.append "a" [4] 9).2 := by
  have herr : (sampleCutShort.append "a" [4] 9).1 =
      .error (.corrupt (sampleCutShort.dataPath "a") (.shortData 1 3)) := by decide +kernel
  have h := fails_of_append herr
  exact ⟨by decide +kernel, h, undone_of_failed h⟩

end ReplicaRing.Log
