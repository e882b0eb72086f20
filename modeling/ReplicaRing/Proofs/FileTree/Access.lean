import ReplicaRing.Proofs.FileTree
import ReplicaRing.Proofs.Plan

/-!
# Accesses to a tree of files

A step is one access (`FileTree.attempt`). It may fail, and then leave behind nothing, some
part of what it does, or all of it. Only a move is not done by halves: if it fails, the file is
where it was. All the same its caller may be told that it failed, when the directory cannot be
flushed after it; such a failure is *late*.

* Whether or not it fails, a step touches only the paths it is about
  (`FileTree.Step.get?_of_gives`).
* A file is replaced by writing another beside it and moving that over it. Whatever fails,
  there is the old file or the new one (`FileTree.safe_replace`).
-/

namespace ReplicaRing.FileTree

variable {t t' t'' : FileTree} {p q r temp path : Path} {bs : Bytes} {s : Step} {ss : List Step}

/-! ## What steps touch -/

/-- The step is about the path. -/
def Step.Touches : Step → Path → Prop
  | makeDirs p, r => r <+: p
  | create p, r | cut p _, r | clear p, r | add p _, r => r = p
  | rename p q, r => r = p ∨ r = q

/-- The step moves a file. -/
def Step.Moves : Step → Prop
  | rename _ _ => True
  | _ => False

theorem get?_set_of_ne (t : FileTree) (e : Item) (h : r ≠ p) : (t.set p e).get? r = t.get? r := by
  have hb : (r == p) = false := by simpa using h
  rw [get?, get?, set, List.lookup_cons, hb, lookup_filter_ne, if_neg h]

theorem get?_erase_of_ne (t : FileTree) (h : r ≠ p) : (t.erase p).get? r = t.get? r := by
  rw [get?, get?, erase, lookup_filter_ne, if_neg h]

theorem get?_of_makeDirsAlong {ps : List Path} (h : t.makeDirsAlong ps = .ok t') (hr : r ∉ ps) :
    t'.get? r = t.get? r := by
  induction ps generalizing t with
  | nil =>
    cases h
    rfl
  | cons p ps ih =>
    rw [List.mem_cons, not_or] at hr
    rw [makeDirsAlong] at h
    split at h
    · exact ih h hr.2
    · cases h
    · rw [ih h hr.2, get?_set_of_ne t _ hr.1]

theorem get?_of_makeDirs (h : t.makeDirs p = .ok t') (hr : ¬r <+: p) : t'.get? r = t.get? r := by
  refine get?_of_makeDirsAlong h fun hmem => hr ?_
  obtain ⟨i, -, rfl⟩ := List.mem_map.1 hmem
  exact List.take_prefix _ _

/-- Directories that could be made had no file in their way. -/
theorem clear_of_makeDirsAlong {ps : List Path} (h : t.makeDirsAlong ps = .ok t') :
    ∀ q ∈ ps, ∀ bs, t.get? q ≠ some (.file bs) := by
  induction ps generalizing t with
  | nil => nofun
  | cons p ps ih =>
    rw [makeDirsAlong] at h
    intro q hq bs hf
    split at h
    · rename_i hp
      rcases List.mem_cons.1 hq with rfl | hq
      · rw [hp] at hf
        cases hf
      · exact ih h q hq bs hf
    · cases h
    · rename_i hp
      have hne : q ≠ p := by
        rintro rfl
        rw [hp] at hf
        cases hf
      exact ih h q (List.mem_of_ne_of_mem hne hq) bs (by rw [get?_set_of_ne t _ hne, hf])

theorem clear_of_makeDirs (h : t.makeDirs p = .ok t') : t.Clear p := by
  intro q hq bs hf
  by_cases hnil : q = []
  · rw [hnil, get?_nil] at hf
    cases hf
  refine clear_of_makeDirsAlong h q (List.mem_map.2 ⟨q.length - 1, ?_, ?_⟩) bs hf
  all_goals have := List.length_pos_iff.2 hnil
  · rw [List.mem_range]
    have := hq.length_le
    omega
  · rw [Nat.sub_add_cancel this]
    exact (List.prefix_iff_eq_take.1 hq).symm

theorem makes_of_makeDirs (h : t.makeDirs p = .ok t') : t.Makes p t' := by
  obtain ⟨t₁, ht₁, hm⟩ := exists_makeDirs (clear_of_makeDirs h)
  rw [h, Except.ok.injEq] at ht₁
  exact ht₁ ▸ hm

/-- Where directories can be made there are some already, or nothing. -/
theorem get?_of_makes (h : t.makeDirs p = .ok t') (hr : r <+: p) :
    t'.get? r = some .dir ∧ (t.get? r = some .dir ∨ t.get? r = none) := by
  refine ⟨by rw [makes_of_makeDirs h r, if_pos hr], ?_⟩
  cases hg : t.get? r with
  | none => exact .inr rfl
  | some e =>
    cases e with
    | dir => exact .inl rfl
    | file bs => exact absurd hg (clear_of_makeDirs h r hr bs)

theorem get?_of_find {e : Item} (h : t.find p = .ok e) : t.get? p = some e := by
  rw [find] at h
  split at h
  · cases h
  · split at h
    · cases h
    · rename_i hg
      cases h
      exact hg

/-- What is read is there. -/
theorem get?_of_read (h : t.read p = .ok bs) : t.get? p = some (.file bs) := by
  rw [read] at h
  split at h
  · cases h
  · cases h
  · rename_i hf
    cases h
    exact get?_of_find hf

/-- What is read can be found. -/
theorem has_of_read (h : t.read p = .ok bs) : t.has p = true := by
  rw [read] at h
  split at h
  · cases h
  · cases h
  · rename_i hf
    rw [has, hf]
    rfl

/-- What is told to be missing when it is to be read cannot be found. -/
theorem has_of_read_notFound (h : t.read p = .error .notFound) : t.has p = false := by
  rw [read] at h
  split at h
  · rename_i hf
    rw [has, hf]
    rfl
  · cases h
  · cases h

theorem get?_of_openFile (h : t.openFile p = .ok t') (hr : r ≠ p) : t'.get? r = t.get? r := by
  rw [openFile] at h
  split at h
  · split at h
    · cases h
    · cases h
      exact get?_set_of_ne t _ hr
  · cases h
  · cases h
  · cases h
    rfl

/-- A file that is opened for writing holds what it held, or nothing if it was missing. -/
theorem file_of_openFile (h : t.openFile p = .ok t') :
    ∃ bs, (t.get? p = some (.file bs) ∨ t.get? p = none ∧ bs = []) ∧
      t'.get? p = some (.file bs) := by
  rw [openFile] at h
  split at h
  · rename_i hfind
    split at h
    · cases h
    · rename_i hreach
      rw [find, hreach] at hfind
      cases hg : t.get? p with
      | none =>
        cases h
        refine ⟨[], .inr ⟨rfl, rfl⟩, ?_⟩
        rw [get?_set _ (fun hnil => ?_), if_pos rfl]
        rw [hnil, get?_nil] at hg
        cases hg
      | some e =>
        rw [hg] at hfind
        cases hfind
  · cases h
  · cases h
  · rename_i hfind
    cases h
    exact ⟨_, .inl (get?_of_find hfind), get?_of_find hfind⟩

theorem get?_of_writeFile (h : t.writeFile p bs = .ok t') (hr : r ≠ p) : t'.get? r = t.get? r := by
  rw [writeFile] at h
  split at h
  · cases h
  · rename_i ho
    cases h
    rw [get?_set_of_ne _ _ hr, get?_of_openFile ho hr]

theorem get?_of_modifyFile {f : Bytes → Bytes} (h : t.modifyFile p f = .ok t') (hr : r ≠ p) :
    t'.get? r = t.get? r := by
  rw [modifyFile] at h
  split at h
  · cases h
  · cases h
    exact get?_set_of_ne t _ hr

/-- A file that is moved was there, and is moved as it was. -/
theorem rename_eq_ok (h : t.rename p q = .ok t') :
    ∃ bs, t.get? p = some (.file bs) ∧ t' = (t.erase p).set q (.file bs) := by
  rw [rename] at h
  split at h
  · cases h
  · cases h
  · rename_i hp _
    cases h
    exact ⟨_, get?_of_read hp, rfl⟩
  · rename_i hp _
    split at h
    · cases h
    · cases h
      exact ⟨_, get?_of_read hp, rfl⟩
  · cases h

theorem ioStep_eq_ok {x : Except IoError FileTree} (h : ioStep x = .ok t') : x = .ok t' := by
  cases x with
  | ok t =>
    cases h
    rfl
  | error e => cases h

/-- A step that is carried out leaves alone what it is not about. -/
theorem Step.get?_of_apply (h : s.apply t = .ok t') (hr : ¬s.Touches r) :
    t'.get? r = t.get? r := by
  cases s with
  | makeDirs p => exact get?_of_makeDirs (ioStep_eq_ok h) hr
  | create p => exact get?_of_openFile (ioStep_eq_ok h) hr
  | cut p n =>
    rw [Step.apply] at h
    split at h
    · cases h
    · split at h
      · cases h
      · cases h
        exact get?_set_of_ne t _ hr
  | clear p => exact get?_of_writeFile (ioStep_eq_ok h) hr
  | add p bs => exact get?_of_modifyFile (ioStep_eq_ok h) hr
  | rename p q =>
    obtain ⟨hp, hq⟩ := not_or.1 hr
    obtain ⟨bs, -, rfl⟩ := rename_eq_ok (ioStep_eq_ok h)
    rw [get?_set_of_ne _ _ hq, get?_erase_of_ne _ hp]

theorem Part.get?_eq (h : Part t s t') (hr : ¬s.Touches r) : t'.get? r = t.get? r := by
  cases h with
  | makeDirs i h => exact get?_of_makeDirs h fun h => hr (h.trans (List.take_prefix _ _))
  | add i h => exact Step.get?_of_apply h hr

/-! ## Accesses -/

/-- A step that may fail. If it does, it may have been carried out in part; and if it is no
    move, or the failure is late, to its end. -/
def attempt (s : Step) : Access FileTree (Except StepError Unit) where
  run t := match s.apply t with
    | .ok t => (.ok (), t)
    | .error e => (.error e, t)
  fails late t r t' := ∃ e, r = .error (.io e) ∧
    (t' = t ∨ Part t s t' ∨ s.apply t = .ok t' ∧ (s.Moves → late = true))

/-- Steps one after the other, up to the first that fails. -/
def attemptAll : List Step → Plan FileTree (Except StepError Unit)
  | [] => pure (.ok ())
  | s :: ss => do
    match ← Plan.access (attempt s) with
    | .ok () => attemptAll ss
    | .error e => return .error e

/-- The file at `p` is removed, or it stays. -/
def discard (p : Path) : Access FileTree Unit where
  run t := ((), t.erase p)
  fails _ t _ t' := t' = t

/-- Something is read off the files, which may fail; but nothing is told to be missing that is
    there. -/
def consult {α : Type} (f : FileTree → Except IoError α) : Access FileTree (Except IoError α) where
  run t := (f t, t)
  fails _ t r t' := (∃ e, e ≠ .notFound ∧ r = .error e) ∧ t' = t

@[simp] theorem run_attemptAll (t : FileTree) (ss : List Step) :
    (attemptAll ss).run t = t.run ss := by
  induction ss generalizing t with
  | nil => rfl
  | cons s ss ih =>
    rw [attemptAll, Plan.run_bind, Plan.run_access, run]
    cases h : s.apply t with
    | ok t₁ => simp [attempt, h, ih]
    | error e => simp [attempt, h]

variable {late : Bool} {res : Except StepError Unit}

/-- A step that is told to have been carried out has been. -/
theorem apply_of_gives (h : (attempt s).Gives late t (.ok ()) t') : s.apply t = .ok t' := by
  rcases h with h | ⟨e, h, -⟩
  · simp only [attempt] at h
    split at h
    · rename_i hs
      rw [Prod.mk.injEq] at h
      rw [hs, h.2]
    · rw [Prod.mk.injEq] at h
      cases h.1
  · cases h

/-- What a step may leave behind that is told to have failed. -/
theorem left_of_gives {e : StepError} (h : (attempt s).Gives late t (.error e) t') :
    t' = t ∨ Part t s t' ∨ s.apply t = .ok t' ∧ (s.Moves → late = true) := by
  rcases h with h | ⟨-, -, h⟩
  · simp only [attempt] at h
    split at h
    · rw [Prod.mk.injEq] at h
      cases h.1
    · rw [Prod.mk.injEq] at h
      exact .inl h.2.symm
  · exact h

/-- Whether or not it fails, directories are made up to some point, if any. -/
theorem makes_of_gives {res : Except StepError Unit}
    (hg : (attempt (.makeDirs p)).Gives late t res t') : t' = t ∨ ∃ j, t.Makes (p.take j) t' := by
  have hall : ∀ {t'}, (Step.makeDirs p).apply t = .ok t' → ∃ j, t.Makes (p.take j) t' := fun h =>
    ⟨p.length, by rw [List.take_length]; exact makes_of_makeDirs (ioStep_eq_ok h)⟩
  cases res with
  | ok u => exact .inr (hall (apply_of_gives hg))
  | error e =>
    rcases left_of_gives hg with h | hpart | ⟨h, -⟩
    · exact .inl h
    · cases hpart with
      | makeDirs j h => exact .inr ⟨j, makes_of_makeDirs h⟩
    · exact .inr (hall h)

theorem Step.get?_of_gives (h : (attempt s).Gives late t res t') (hr : ¬s.Touches r) :
    t'.get? r = t.get? r := by
  cases res with
  | ok u => exact Step.get?_of_apply (apply_of_gives h) hr
  | error e =>
    rcases left_of_gives h with rfl | h | ⟨h, -⟩
    · rfl
    · exact h.get?_eq hr
    · exact Step.get?_of_apply h hr

theorem get?_of_discard {u : Unit} (h : (discard p).Gives late t u t') (hr : r ≠ p) :
    t'.get? r = t.get? r := by
  rcases h with h | h
  · cases h
    exact get?_erase_of_ne t hr
  · exact h ▸ rfl

theorem gives_consult {α : Type} {f : FileTree → Except IoError α} {res : Except IoError α}
    (h : (consult f).Gives late t res t') :
    t' = t ∧ (res = f t ∨ ∃ e, e ≠ .notFound ∧ res = .error e) := by
  rcases h with h | ⟨h, rfl⟩
  · cases h
    exact ⟨rfl, .inl rfl⟩
  · exact ⟨rfl, .inr h⟩

/-! ## Plans of steps -/

/-- What no step can change, whether or not it fails, is true all the time. -/
theorem safe_attemptAll {always : FileTree → Prop} (ha : always t)
    (hs : ∀ s ∈ ss, ∀ t₁ res t₂, always t₁ → (attempt s).Gives late t₁ res t₂ → always t₂) :
    Plan.Safe late always (fun _ => always) (attemptAll ss) t := by
  induction ss generalizing t with
  | nil => exact Plan.safe_pure ha ha
  | cons s ss ih =>
    rw [List.forall_mem_cons] at hs
    refine Plan.safe_access_bind ha fun res t₁ hg => ?_
    have h₁ := hs.1 t res t₁ ha hg
    cases res with
    | ok u => exact ih h₁ hs.2
    | error e => exact Plan.safe_pure h₁ h₁

/-- Steps that are told to have been carried out have been. -/
theorem safe_attemptAll_run (t : FileTree) (ss : List Step) :
    Plan.Safe late (fun _ => True) (fun res t' => res = .ok () → t.run ss = (.ok (), t'))
      (attemptAll ss) t := by
  induction ss generalizing t with
  | nil => exact Plan.safe_pure trivial fun _ => rfl
  | cons s ss ih =>
    refine Plan.safe_access_bind trivial fun res t₁ hg => ?_
    cases res with
    | ok u =>
      rw [run, apply_of_gives hg]
      exact ih t₁
    | error e => exact Plan.safe_pure trivial (by simp)

theorem dir_of_set (h : (t.set p (.file bs)).get? r = some .dir) : t.get? r = some .dir := by
  by_cases hr : r = p
  · by_cases hp : p = []
    · rw [hr, hp, get?_nil]
    · rw [get?_set _ hp, if_pos hr] at h
      cases h
  · rwa [get?_set_of_ne _ _ hr] at h

theorem dir_of_openFile (ho : t.openFile p = .ok t') (h : t'.get? r = some .dir) :
    t.get? r = some .dir := by
  rw [openFile] at ho
  split at ho
  · split at ho
    · cases ho
    · cases ho
      exact dir_of_set h
  · cases ho
  · cases ho
  · cases ho
    exact h

theorem dir_of_modifyFile {f : Bytes → Bytes} (hm : t.modifyFile p f = .ok t')
    (h : t'.get? r = some .dir) : t.get? r = some .dir := by
  rw [modifyFile] at hm
  split at hm
  · cases hm
  · cases hm
    exact dir_of_set h

theorem dir_of_erase (h : (t.erase p).get? r = some .dir) : t.get? r = some .dir := by
  by_cases hr : r = p
  · by_cases hp : p = []
    · rw [hr, hp, get?_nil]
    · rw [get?_erase _ hp, if_pos hr] at h
      cases h
  · rwa [get?_erase_of_ne _ hr] at h

/-- Only making directories makes directories. -/
theorem Step.dir_of_apply (hs : ∀ p, s ≠ .makeDirs p) (ha : s.apply t = .ok t')
    (h : t'.get? r = some .dir) : t.get? r = some .dir := by
  cases s with
  | makeDirs p => exact absurd rfl (hs p)
  | create p => exact dir_of_openFile (ioStep_eq_ok ha) h
  | cut p n =>
    rw [Step.apply] at ha
    split at ha
    · cases ha
    · split at ha
      · cases ha
      · cases ha
        exact dir_of_set h
  | clear p =>
    have ha := ioStep_eq_ok ha
    rw [writeFile] at ha
    split at ha
    · cases ha
    · rename_i ho
      cases ha
      exact dir_of_openFile ho (dir_of_set h)
  | add p bs => exact dir_of_modifyFile (ioStep_eq_ok ha) h
  | rename p q =>
    obtain ⟨bs, -, rfl⟩ := rename_eq_ok (ioStep_eq_ok ha)
    exact dir_of_erase (dir_of_set h)

theorem Step.dir_of_gives (hs : ∀ p, s ≠ .makeDirs p) (hg : (attempt s).Gives late t res t')
    (h : t'.get? r = some .dir) : t.get? r = some .dir := by
  cases res with
  | ok u => exact Step.dir_of_apply hs (apply_of_gives hg) h
  | error e =>
    rcases left_of_gives hg with rfl | hp | ⟨ha, -⟩
    · exact h
    · cases hp with
      | makeDirs i => exact absurd rfl (hs _)
      | add i ha => exact Step.dir_of_apply (s := .add _ _) nofun ha h
    · exact Step.dir_of_apply hs ha h

theorem exists_of_run_cons (h : t.run (s :: ss) = (.ok (), t')) :
    ∃ t₁, s.apply t = .ok t₁ ∧ t₁.run ss = (.ok (), t') := by
  rw [run] at h
  split at h
  · cases h
  · rename_i hs
    exact ⟨_, hs, h⟩

/-- Steps may all be carried out, and the last be told to have failed. -/
theorem ends_attemptAll_late (ss : List Step) (s : Step) (e : IoError)
    (h : t.run (ss ++ [s]) = (.ok (), t')) :
    Plan.Ends true (attemptAll (ss ++ [s])) t (.error (.io e)) t' := by
  induction ss generalizing t with
  | nil =>
    obtain ⟨t₁, hs, hrest⟩ := exists_of_run_cons h
    cases hrest
    exact .next (.inr ⟨e, rfl, .inr (.inr ⟨hs, fun _ => rfl⟩)⟩) .done
  | cons s' ss ih =>
    obtain ⟨t₁, hs, hrest⟩ := exists_of_run_cons h
    have hgives : (attempt s').Gives true t (.ok ()) t₁ := .inl (by simp only [attempt, hs])
    exact .next hgives (ih hrest)

/-! ## Temporary files -/

theorem tempName_ne_nil (path : Path) (i : Nat) : tempName path i ≠ [] := by simp [tempName]

/-- A temporary file is not the file that it is made for. -/
theorem ne_tempName (hp : path ≠ []) (i : Nat) : path ≠ tempName path i := by
  intro h
  rcases List.eq_nil_or_concat path with rfl | ⟨dir, name, rfl⟩
  · exact hp rfl
  · rw [List.concat_eq_append, tempName, List.dropLast_concat, List.append_cancel_left_eq,
      List.singleton_inj] at h
    have hlen := congrArg String.length h
    simp only [String.length_append] at hlen
    have h5 : ".tmp-".length = 5 := by decide
    simp at hlen
    omega

theorem tempName_injective (path : Path) : Function.Injective (tempName path) := fun i j h => by
  rw [tempName, tempName, List.append_cancel_left_eq, List.singleton_inj,
    String.append_right_inj] at h
  have h := congrArg (fun s => Nat.ofDigitChars 10 s.toList 0) h
  simpa [Nat.toString_eq_repr] using h

/-- The name found for a temporary file is not taken. -/
theorem get?_freshTemp (t : FileTree) (path : Path) : t.get? (t.freshTemp path) = none := by
  rw [freshTemp, get?, if_neg (tempName_ne_nil path _)]
  set free := fun i => (t.entries.lookup (tempName path i)).isNone
  cases hf : (List.range (t.entries.length + 1)).find? free with
  | some i =>
    have hi : free i = true := List.find?_some hf
    simpa [free] using hi
  | none =>
    -- More names would be taken than there are entries.
    have htaken : (List.range (t.entries.length + 1)).map (tempName path) ⊆
        t.entries.map Prod.fst := by
      intro p hp
      obtain ⟨i, hi, rfl⟩ := List.mem_map.1 hp
      have hi : t.entries.lookup (tempName path i) ≠ none := by
        simpa [free] using List.find?_eq_none.1 hf i hi
      rw [Ne, List.lookup_eq_none_iff] at hi
      push Not at hi
      obtain ⟨x, hx, he⟩ := hi
      exact List.mem_map.2 ⟨x, hx, (by simpa using he : tempName path i = x.1).symm⟩
    have hlen := ((List.nodup_range.map (tempName_injective path)).subperm htaken).length_le
    simp at hlen

/-! ## Replacing a file -/

/-- The steps by which the file at `path` is replaced: a file at `temp` is written piece by
    piece and then moved over it. -/
def replaceWith (temp path : Path) (pieces : List Bytes) : List Step :=
  .clear temp :: (pieces.map (.add temp) ++ [.rename temp path])

theorem get?_of_clear (hp : p ≠ []) (h : (Step.clear p).apply t = .ok t') :
    t'.get? p = some (.file []) := by
  have h := ioStep_eq_ok h
  rw [writeFile] at h
  split at h
  · cases h
  · cases h
    rw [get?_set _ hp, if_pos rfl]

theorem get?_of_add {more : Bytes} (h : (Step.add p more).apply t = .ok t')
    (hg : t.get? p = some (.file bs)) : t'.get? p = some (.file (bs ++ more)) := by
  have h := ioStep_eq_ok h
  rw [modifyFile] at h
  split at h
  · cases h
  · rename_i hread
    cases h
    have := get?_of_read hread
    rw [hg, Option.some.injEq, Item.file.injEq] at this
    rw [get?_set _ (ne_nil_of_get? hg (by simp)), if_pos rfl, this]

theorem get?_of_rename (hq : q ≠ []) (h : (Step.rename p q).apply t = .ok t')
    (hg : t.get? p = some (.file bs)) : t'.get? q = some (.file bs) := by
  obtain ⟨bs', hp, rfl⟩ := rename_eq_ok (ioStep_eq_ok h)
  rw [hg, Option.some.injEq, Item.file.injEq] at hp
  rw [get?_set _ hq, if_pos rfl, hp]

/-- What becomes of the file at `path` when it is replaced by `bs`, with the paths `T` being
    written to. -/
structure Replaced (late : Bool) (temp path : Path) (bs : Bytes) (t : FileTree)
    (res : Except StepError Unit) (t' : FileTree) : Prop where
  frame : ∀ r, r ≠ temp → r ≠ path → t'.get? r = t.get? r
  done : res = .ok () → t'.get? path = some (.file bs)
  failed : res ≠ .ok () → t'.get? path = t.get? path ∨
    late = true ∧ t'.get? path = some (.file bs)

/-- At every moment there is the old file or the new one. -/
structure Replacing (temp path : Path) (bs : Bytes) (t t' : FileTree) : Prop where
  frame : ∀ r, r ≠ temp → r ≠ path → t'.get? r = t.get? r
  either : t'.get? path = t.get? path ∨ t'.get? path = some (.file bs)

theorem Replaced.replacing (h : Replaced late temp path bs t res t') :
    Replacing temp path bs t t' := by
  refine ⟨h.frame, ?_⟩
  by_cases hres : res = .ok ()
  · exact .inr (h.done hres)
  · exact (h.failed hres).imp_right And.right

/-- As long as only the temporary file is written to, the old one is there. -/
theorem replaced_of_frame (h : ∀ r, r ≠ temp → t'.get? r = t.get? r) (hne : path ≠ temp)
    (hres : res ≠ .ok ()) : Replaced late temp path bs t res t' where
  frame r hr _ := h r hr
  done h := absurd h hres
  failed _ := .inl (h path hne)

/-- The move of a file written beside the old one ends the replacement. -/
theorem replaced_of_rename {t₁ : FileTree} (hne : path ≠ temp) (hpath : path ≠ [])
    (h₁ : ∀ r, r ≠ temp → t₁.get? r = t.get? r) (hg : t₁.get? temp = some (.file bs))
    (h : (attempt (.rename temp path)).Gives late t₁ res t') :
    Replaced late temp path bs t res t' := by
  have hframe : ∀ r, r ≠ temp → r ≠ path → t'.get? r = t.get? r := fun r hr hr' => by
    rw [Step.get?_of_gives h fun h => h.elim hr hr', h₁ r hr]
  cases res with
  | ok u =>
    exact ⟨hframe, fun _ => get?_of_rename hpath (apply_of_gives h) hg, fun h => absurd rfl h⟩
  | error e =>
    refine ⟨hframe, nofun, fun _ => ?_⟩
    rcases left_of_gives h with rfl | hp | ⟨hs, hlate⟩
    · exact .inl (h₁ path hne)
    · cases hp
    · exact .inr ⟨hlate trivial, get?_of_rename hpath hs hg⟩

theorem safe_pieces {done : Bytes} {pieces : List Bytes} {t₁ : FileTree}
    (hne : path ≠ temp) (hpath : path ≠ []) (h₁ : ∀ r, r ≠ temp → t₁.get? r = t.get? r)
    (hg : t₁.get? temp = some (.file done)) :
    Plan.Safe late (Replacing temp path (done ++ pieces.flatten) t)
      (Replaced late temp path (done ++ pieces.flatten) t)
      (attemptAll (pieces.map (.add temp) ++ [.rename temp path])) t₁ := by
  have hnow : ∀ {bs t₁}, (∀ r, r ≠ temp → t₁.get? r = t.get? r) → Replacing temp path bs t t₁ :=
    fun h => ⟨fun r hr _ => h r hr, .inl (h path hne)⟩
  induction pieces generalizing done t₁ with
  | nil =>
    rw [List.flatten_nil, List.append_nil, List.map_nil, List.nil_append, attemptAll]
    refine Plan.safe_access_bind (hnow h₁) fun res t₂ h => ?_
    have hr := replaced_of_rename hne hpath h₁ hg h
    cases res with
    | ok u => exact Plan.safe_pure hr.replacing hr
    | error e => exact Plan.safe_pure hr.replacing hr
  | cons piece pieces ih =>
    rw [List.map_cons, List.cons_append, attemptAll]
    refine Plan.safe_access_bind (hnow h₁) fun res t₂ h => ?_
    have h₂ : ∀ r, r ≠ temp → t₂.get? r = t.get? r := fun r hr => by
      rw [Step.get?_of_gives h hr, h₁ r hr]
    cases res with
    | ok u =>
      have := ih h₂ (get?_of_add (apply_of_gives h) hg)
      rwa [List.append_assoc] at this
    | error e => exact Plan.safe_pure (hnow h₂) (replaced_of_frame h₂ hne nofun)

/-- Whatever fails when a file is replaced, there is the old one or the new one: the new one if
    all went well, and the old one if something failed, unless it failed late. -/
theorem safe_replace (hne : path ≠ temp) (htemp : temp ≠ []) (hpath : path ≠ [])
    (pieces : List Bytes) :
    Plan.Safe late (Replacing temp path pieces.flatten t)
      (Replaced late temp path pieces.flatten t)
      (attemptAll (replaceWith temp path pieces)) t := by
  rw [replaceWith, attemptAll]
  refine Plan.safe_access_bind ⟨fun _ _ _ => rfl, .inl rfl⟩ fun res t₁ h => ?_
  have h₁ : ∀ r, r ≠ temp → t₁.get? r = t.get? r := fun r hr => Step.get?_of_gives h hr
  cases res with
  | ok u => exact safe_pieces hne hpath h₁ (get?_of_clear htemp (apply_of_gives h))
  | error e =>
    exact Plan.safe_pure ⟨fun r hr _ => h₁ r hr, .inl (h₁ path hne)⟩
      (replaced_of_frame h₁ hne nofun)

end ReplicaRing.FileTree
