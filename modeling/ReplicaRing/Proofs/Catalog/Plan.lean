import ReplicaRing.Proofs.Catalog.File
import ReplicaRing.Proofs.FileTree.Access

/-!
# The accesses of a catalog

Every change to a catalog is a decision, for which memory is enough, and a replacement of its
file (`Catalog.changePlan`). Left alone, the plans do what the changes do
(`Catalog.run_insertPlan` and so on). Whatever fails, the answer tells what became of memory and
file (`Catalog.safe_changePlan`): either both have changed or neither has, unless a failure is
late.
-/

namespace ReplicaRing.Catalog

open FileTree

variable {c c' : Catalog} {t t' : FileTree} {es : List Replica} {late : Bool} {α : Type}

/-! ## Plans -/

/-- The accesses of `Catalog.store`. -/
def storePlan (c : Catalog) (es : List Replica) :
    Plan FileTree (Except StorageError Unit × Catalog) := do
  let temp ← .ask fun t => t.freshTemp c.path
  match ← attemptAll (replaceSteps temp c.path (encode es)) with
  | .ok () => return (.ok (), { c with entries := es })
  | .error e =>
    .access (discard temp)
    return (.error (.ofStep e), c)

/-- Stores `es` and answers `a`. -/
def changePlan (c : Catalog) (es : List Replica) (a : α) :
    Plan FileTree (Except StorageError α × Catalog) := do
  match ← c.storePlan es with
  | (.ok (), c) => return (.ok a, c)
  | (.error e, c) => return (.error e, c)

/-- The accesses of `Catalog.insert`. -/
def insertPlan (c : Catalog) (r : Replica) : Plan FileTree (Except StorageError Bool × Catalog) :=
  match find? c.entries r.name with
  | some _ => return (.ok false, c)
  | none => c.changePlan (place r c.entries) true

/-- The accesses of `Catalog.upsert`. -/
def upsertPlan (c : Catalog) (r : Replica) :
    Plan FileTree (Except StorageError (Option Rank) × Catalog) :=
  let previous := (find? c.entries r.name).map (·.rank)
  if previous = some r.rank then return (.ok previous, c)
  else c.changePlan (place r c.entries) previous

/-- The accesses of `Catalog.setRank`. -/
def setRankPlan (c : Catalog) (name : String) (rank : Rank) :
    Plan FileTree (Except StorageError Bool × Catalog) :=
  match find? c.entries name with
  | none => return (.ok false, c)
  | some r =>
    if r.rank = rank then return (.ok true, c)
    else c.changePlan (place { r with rank } c.entries) true

/-- The accesses of `Catalog.load`. -/
def loadPlan (path : Path) : Plan FileTree (Except StorageError Catalog) := do
  match ← .access (consult fun t => t.read path) with
  | .error .notFound => return .ok ⟨path, []⟩
  | .error e => return .error (.io e)
  | .ok bs => return (decode path bs).map fun entries => ⟨path, entries⟩

theorem run_storePlan (c : Catalog) (es : List Replica) (t : FileTree) :
    (c.storePlan es).run t =
      (((c.store t es).1, (c.store t es).2.1), (c.store t es).2.2) := by
  rw [storePlan, store, Plan.run_bind, Plan.run_ask, Plan.run_bind, run_attemptAll]
  cases t.run (replaceSteps (t.freshTemp c.path) c.path (encode es)) with
  | mk res t' => cases res <;> rfl

theorem run_changePlan (c : Catalog) (es : List Replica) (a : α) (t : FileTree) :
    (c.changePlan es a).run t = match c.store t es with
      | (.ok (), c, t) => ((.ok a, c), t)
      | (.error e, c, t) => ((.error e, c), t) := by
  rw [changePlan, Plan.run_bind, run_storePlan]
  cases c.store t es with
  | mk res r => cases res <;> rfl

theorem run_insertPlan (c : Catalog) (r : Replica) (t : FileTree) :
    (c.insertPlan r).run t = (((c.insert t r).1, (c.insert t r).2.1), (c.insert t r).2.2) := by
  rw [insertPlan, insert]
  cases find? c.entries r.name with
  | some _ => rfl
  | none =>
    simp only [run_changePlan]
    cases c.store t (place r c.entries) with
    | mk res r => cases res <;> rfl

theorem run_upsertPlan (c : Catalog) (r : Replica) (t : FileTree) :
    (c.upsertPlan r).run t = (((c.upsert t r).1, (c.upsert t r).2.1), (c.upsert t r).2.2) := by
  rw [upsertPlan, upsert]
  split
  · rfl
  · rw [run_changePlan]
    cases c.store t (place r c.entries) with
    | mk res r => cases res <;> rfl

theorem run_setRankPlan (c : Catalog) (name : String) (rank : Rank) (t : FileTree) :
    (c.setRankPlan name rank).run t =
      (((c.setRank t name rank).1, (c.setRank t name rank).2.1), (c.setRank t name rank).2.2) := by
  rw [setRankPlan, setRank]
  cases find? c.entries name with
  | none => rfl
  | some r =>
    dsimp only
    split
    · rfl
    · rw [run_changePlan]
      cases c.store t (place { r with rank } c.entries) with
      | mk res r => cases res <;> rfl

theorem run_loadPlan (path : Path) (t : FileTree) :
    (loadPlan path).run t = (load t path, t) := by
  rw [loadPlan, load, Plan.run_bind, Plan.run_access]
  simp only [consult]
  cases t.read path with
  | ok bs => rfl
  | error e => cases e <;> rfl

/-- A catalog that is opened is the one in the file. -/
theorem safe_loadPlan (path : Path) (t : FileTree) :
    Plan.Safe late (fun t' => t' = t) (fun r t' => t' = t ∧ (r = load t path ∨ ∃ e, r = .error e))
      (loadPlan path) t := by
  refine Plan.safe_access_bind rfl fun res t' h => ?_
  obtain ⟨rfl, rfl | ⟨e, hne, rfl⟩⟩ := gives_consult h
  · rw [load]
    cases t'.read path with
    | ok bs => exact Plan.safe_pure rfl ⟨rfl, .inl rfl⟩
    | error e => cases e <;> exact Plan.safe_pure rfl ⟨rfl, .inl rfl⟩
  · cases e with
    | notFound => exact absurd rfl hne
    | _ => exact Plan.safe_pure rfl ⟨rfl, .inr ⟨_, rfl⟩⟩

/-! ## What becomes of a change -/

/-- Only the file of the catalog and temporary files beside it differ, and there are no new
    directories. -/
structure Beside (path : Path) (t t' : FileTree) : Prop where
  frame : ∀ r, r ≠ path → (∀ i, r ≠ tempName path i) → t'.get? r = t.get? r
  dirs : ∀ r, t'.get? r = some .dir → t.get? r = some .dir

theorem Beside.refl (path : Path) (t : FileTree) : Beside path t t := ⟨fun _ _ _ => rfl, fun _ => id⟩

/-- At every moment of a change to the entries `es`, the file is the old one or the new one. -/
structure Changing (c : Catalog) (es : List Replica) (t t' : FileTree) : Prop where
  beside : Beside c.path t t'
  file : t'.get? c.path = t.get? c.path ∨ t'.get? c.path = some (.file (encode es))

/-- What becomes of memory and file when the entries are to be `es` and the answer `a`. -/
structure Changed (late : Bool) (c : Catalog) (es : List Replica) (a : α) (t : FileTree)
    (r : Except StorageError α × Catalog) (t' : FileTree) : Prop where
  beside : Beside c.path t t'
  done : ∀ b, r.1 = .ok b → b = a ∧ r.2 = { c with entries := es } ∧
    t'.get? c.path = some (.file (encode es))
  failed : ∀ e, r.1 = .error e → r.2 = c ∧
    (t'.get? c.path = t.get? c.path ∨ late = true ∧ t'.get? c.path = some (.file (encode es)))

theorem safe_storePlan (hp : c.path ≠ []) :
    Plan.Safe late (Changing c es t) (Changed late c es () t) (c.storePlan es) t := by
  refine Plan.safe_ask_bind ?_
  obtain ⟨i, hi⟩ := exists_freshTemp t c.path
  rw [hi]
  have hbeside : ∀ {t' : FileTree},
      (∀ r, r ≠ tempName c.path i → r ≠ c.path → t'.get? r = t.get? r) →
      (∀ r, t'.get? r = some .dir → t.get? r = some .dir) → Beside c.path t t' :=
    fun hf hd => ⟨fun r hr ht => hf r (ht i) hr, hd⟩
  have hdirs : Plan.Safe late (fun t' => ∀ r, t'.get? r = some .dir → t.get? r = some .dir)
      (fun _ t' => ∀ r, t'.get? r = some .dir → t.get? r = some .dir)
      (attemptAll (replaceSteps (tempName c.path i) c.path (encode es))) t := by
    refine safe_attemptAll (fun _ => id) fun s hs t₁ res t₂ h₁ hg r hr => h₁ r ?_
    refine Step.dir_of_gives (fun p h => ?_) hg hr
    rw [h] at hs
    simp [replaceSteps] at hs
  -- The temporary name is free, so the entries get to their place in one step or not at all.
  have hrepl : Plan.Safe late (Replacing (tempName c.path i) c.path (encode es) t)
      (Replaced late (tempName c.path i) c.path (encode es) t)
      (attemptAll (replaceSteps (tempName c.path i) c.path (encode es))) t := by
    have h : Plan.Safe late _ _ _ t :=
      safe_replace (ne_tempName hp i) (tempName_ne_nil _ i) hp [encode es]
    rw [List.flatten_singleton] at h
    exact h
  refine ((hrepl.and hdirs).mono (fun t' h => ⟨hbeside h.1.frame h.2, h.1.either⟩)
    fun _ _ h => h).bind ?_
  rintro res t₁ ⟨hr, hd⟩ ha
  cases res with
  | ok u =>
    exact Plan.safe_pure ha ⟨hbeside hr.frame hd, fun _ _ => ⟨rfl, rfl, hr.done rfl⟩, by simp⟩
  | error e =>
    -- Removing the temporary file may fail as well; the entries are at another place.
    refine Plan.safe_access_bind ha fun u t₂ hg => ?_
    have hpath : t₂.get? c.path = t₁.get? c.path := get?_of_discard hg (ne_tempName hp i)
    have hb : Beside c.path t t₂ := by
      refine hbeside (fun r ht hp => ?_) fun r h => hd r ?_
      · rw [get?_of_discard hg ht, hr.frame r ht hp]
      · rcases hg with hg | rfl
        · cases hg
          exact dir_of_erase h
        · exact h
    have hfile := hr.failed (by simp)
    rw [← hpath] at hfile
    exact Plan.safe_pure ⟨hb, hfile.imp_right And.right⟩ ⟨hb, by simp, fun _ _ => ⟨rfl, hfile⟩⟩

/-- Whatever fails during a change, memory and file go together: the answer is the one meant
    and both have changed, or it is an error and neither has, unless it failed late. -/
theorem safe_changePlan (hp : c.path ≠ []) (a : α) :
    Plan.Safe late (Changing c es t) (Changed late c es a t) (c.changePlan es a) t := by
  refine (safe_storePlan hp).bind fun r t₁ h ha => ?_
  obtain ⟨res, c'⟩ := r
  cases res with
  | ok u =>
    have hdone := (h.done () rfl).2
    exact Plan.safe_pure ha ⟨h.beside, fun b hb => ⟨(Except.ok.inj hb).symm, hdone⟩, nofun⟩
  | error e => exact Plan.safe_pure ha ⟨h.beside, nofun, fun _ _ => h.failed e rfl⟩

end ReplicaRing.Catalog
