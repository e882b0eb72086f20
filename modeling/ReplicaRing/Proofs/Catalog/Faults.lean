import ReplicaRing.Proofs.Catalog.Durable

/-!
# What a catalog lists when files fail

A failure may be late: the new file is in its place, but the caller is told that it is not, and
memory keeps the old entries. From then on the file may list keys that memory does not, and
other ranks. It never lists fewer keys (`Catalog.Backed`), whatever fails and wherever the
process stops (`Catalog.Backed.safe_insert` and so on).

A rank that was given is in memory. It is in the file as well if the file is written for it; but
if memory had the rank already the file is left alone, and a late failure may have put another
one there (`Catalog.Shown`, `Catalog.ends_changePlan_late`). And no other ranks come up than those
that were given (`Catalog.AllRanks`).
-/

namespace ReplicaRing.Catalog

open FileTree

variable {c c' : Catalog} {t t' : FileTree} {es fs : List Replica} {late : Bool} {α : Type}

/-- Every name in `fs` is in `es`. -/
def Covers (es fs : List Replica) : Prop := ∀ name, find? fs name ≠ none → find? es name ≠ none

/-- The file of the catalog lists at least what memory does, and the same if no failure is late. -/
structure Backed (late : Bool) (c : Catalog) (t : FileTree) : Prop where
  sorted : Sorted c.entries
  file : ∃ es, Sorted es ∧ Filed ⟨c.path, es⟩ t ∧ Covers es c.entries ∧
    (late = false → es = c.entries)

/-- What may be seen in the middle of a change: the file lists at least what memory does. -/
structure Passes (c : Catalog) (t t' : FileTree) : Prop where
  beside : Beside c.path t t'
  file : ∃ es, Sorted es ∧ Filed ⟨c.path, es⟩ t' ∧ Covers es c.entries

/-- What becomes of a catalog and its file: no name is lost. -/
structure Becomes (late : Bool) (c : Catalog) (t : FileTree) (c' : Catalog) (t' : FileTree) :
    Prop where
  beside : Beside c.path t t'
  path : c'.path = c.path
  covers : Covers c'.entries c.entries
  backed : Backed late c' t'

/-- The key is listed under the rank in memory. If memory had another one before, the file is
    written with what memory has then; if not, `file` is left alone. That is the same if no failure
    is late. -/
structure Shown (late : Bool) (c c' : Catalog) (file file' : Option Item) (name : String)
    (rank : Rank) : Prop where
  memory : (c'.get? name).map (·.rank) = some rank
  written : (c.get? name).map (·.rank) ≠ some rank → file' = some (.file (encode c'.entries))
  kept : (c.get? name).map (·.rank) = some rank → file' = file
  spared : late = false → file' = some (.file (encode c'.entries))

theorem Covers.refl (es : List Replica) : Covers es es := fun _ => id

theorem covers_place (hs : Sorted es) (r : Replica) : Covers (place r es) es := by
  intro name h
  rw [find?_place hs]
  split
  · nofun
  · exact h

namespace Backed

variable (hb : Backed late c t)

include hb

theorem passes : Passes c t t := by
  obtain ⟨es, hs, hf, hc, -⟩ := hb.file
  exact ⟨.refl _ t, es, hs, hf, hc⟩

theorem becomes : Becomes late c t c t := ⟨.refl _ t, rfl, .refl _, hb⟩

/-- If no failure is late, the file of a catalog with entries holds them. -/
theorem get?_of_ne_nil (hl : late = false) (hne : c.entries ≠ []) :
    t.get? c.path = some (.file (encode c.entries)) := by
  obtain ⟨es, -, hf, -, hes⟩ := hb.file
  obtain rfl := hes hl
  exact hf.resolve_left fun h => hne h.2

theorem passes_of_changing (hs : Sorted es) (hc : Covers es c.entries)
    (h : Changing c es t t') : Passes c t t' := by
  rcases h.file with hf | hf
  · obtain ⟨es₀, hs₀, hf₀, hc₀, -⟩ := hb.file
    refine ⟨h.beside, es₀, hs₀, ?_, hc₀⟩
    rwa [Filed, hf]
  · exact ⟨h.beside, es, hs, .inr hf, hc⟩

theorem becomes_of_changed {a : α} {r : Except StorageError α × Catalog} (hs : Sorted es)
    (hc : Covers es c.entries) (h : Changed late c es a t r t') : Becomes late c t r.2 t' := by
  obtain ⟨res, c'⟩ := r
  cases res with
  | ok b =>
    obtain ⟨-, hc', hf⟩ := h.done b rfl
    obtain rfl : c' = { c with entries := es } := hc'
    exact ⟨h.beside, rfl, hc, hs, es, hs, .inr hf, .refl es, fun _ => rfl⟩
  | error e =>
    obtain ⟨hc', hf⟩ := h.failed e rfl
    obtain rfl : c' = c := hc'
    refine ⟨h.beside, rfl, .refl _, hb.sorted, ?_⟩
    rcases hf with hf | ⟨hlate, hf⟩
    · obtain ⟨es₀, hs₀, hf₀, hc₀, hes₀⟩ := hb.file
      refine ⟨es₀, hs₀, ?_, hc₀, hes₀⟩
      rwa [Filed, hf]
    · exact ⟨es, hs, .inr hf, hc, fun h => absurd (h.symm.trans hlate) (by decide)⟩

/-- A change is made to memory and file, or it is told to have failed and memory is as before. -/
theorem safe_change (hp : c.path ≠ []) (hs : Sorted es) (hc : Covers es c.entries) (a : α) :
    Plan.Safe late (Passes c t)
      (fun r t' => Becomes late c t r.2 t' ∧
        (∀ b, r.1 = .ok b → r.2.entries = es ∧ t'.get? r.2.path = some (.file (encode es))) ∧
        ∀ e, r.1 = .error e → r.2 = c)
      (c.changePlan es a) t := by
  refine (safe_changePlan hp a).mono (fun _ => hb.passes_of_changing hs hc) fun r t' h =>
    ⟨hb.becomes_of_changed hs hc h, fun b hr => ?_, fun e hr => (h.failed e hr).1⟩
  obtain ⟨-, hc', hf⟩ := h.done b hr
  rw [hc']
  exact ⟨rfl, hf⟩

/-- A listed key keeps its entry when a replica is inserted, and if all goes well the key of the
    replica is listed. -/
theorem safe_insert (hp : c.path ≠ []) (r : Replica) :
    Plan.Safe late (Passes c t)
      (fun res t' => Becomes late c t res.2 t' ∧
        (∀ name q, c.get? name = some q → res.2.get? name = some q) ∧
        ∀ b, res.1 = .ok b → res.2.get? r.name ≠ none)
      (c.insertPlan r) t := by
  rw [insertPlan]
  cases hf : find? c.entries r.name with
  | some q =>
    refine Plan.safe_pure hb.passes ⟨hb.becomes, fun _ _ => id, fun _ _ => ?_⟩
    simp [get?, hf]
  | none =>
    refine (hb.safe_change hp (sorted_place hb.sorted r) (covers_place hb.sorted r) true).mono
      (fun _ => id) fun res t' h => ?_
    obtain ⟨hc, hok, herr⟩ := h
    refine ⟨hc, fun name q hq => ?_, fun b hres => ?_⟩
    · cases hres : res.1 with
      | ok b =>
        -- The key of the replica was not listed.
        have hne : name ≠ r.name := by
          rintro rfl
          exact absurd (hf.symm.trans hq) (by simp)
        rw [get?, (hok b hres).1, find?_place hb.sorted, if_neg hne]
        exact hq
      | error e => rwa [herr e hres]
    · rw [get?, (hok b hres).1, find?_place hb.sorted, if_pos rfl]
      simp

/-- What is listed already is shown. -/
theorem shown_self {name : String} {rank : Rank} (h : (c.get? name).map (·.rank) = some rank) :
    Shown late c c (t.get? c.path) (t.get? c.path) name rank := by
  refine ⟨h, fun hne => absurd h hne, fun _ => rfl, fun hl => hb.get?_of_ne_nil hl fun hnil => ?_⟩
  rw [get?, hnil] at h
  cases h

/-- A change that puts a replica in its place shows its rank. -/
theorem shown_place {file : Option Item} (r : Replica)
    (hne : (c.get? r.name).map (·.rank) ≠ some r.rank) (he : c'.entries = place r c.entries)
    (hf : t'.get? c'.path = some (.file (encode (place r c.entries)))) :
    Shown late c c' file (t'.get? c'.path) r.name r.rank := by
  refine ⟨?_, fun _ => he ▸ hf, fun h => absurd h hne, fun _ => he ▸ hf⟩
  rw [get?, he, find?_place hb.sorted, if_pos rfl]
  rfl

/-- A replica that is listed whatever its rank was is shown with its own. -/
theorem safe_upsert (hp : c.path ≠ []) (r : Replica) :
    Plan.Safe late (Passes c t)
      (fun res t' => Becomes late c t res.2 t' ∧
        ∀ b, res.1 = .ok b →
          Shown late c res.2 (t.get? c.path) (t'.get? res.2.path) r.name r.rank)
      (c.upsertPlan r) t := by
  rw [upsertPlan]
  split
  · rename_i h
    exact Plan.safe_pure hb.passes ⟨hb.becomes, fun _ _ => hb.shown_self h⟩
  · rename_i hne
    refine (hb.safe_change hp (sorted_place hb.sorted r) (covers_place hb.sorted r) _).mono
      (fun _ => id) fun res t' h => ?_
    obtain ⟨hc, hok, -⟩ := h
    exact ⟨hc, fun b hres => hb.shown_place r hne (hok b hres).1 (hok b hres).2⟩

/-- A rank that is given to a listed key is shown. -/
theorem safe_setRank (hp : c.path ≠ []) (name : String) (rank : Rank) :
    Plan.Safe late (Passes c t)
      (fun res t' => Becomes late c t res.2 t' ∧
        (res.1 = .ok true →
          Shown late c res.2 (t.get? c.path) (t'.get? res.2.path) name rank))
      (c.setRankPlan name rank) t := by
  rw [setRankPlan]
  cases hf : find? c.entries name with
  | none => exact Plan.safe_pure hb.passes ⟨hb.becomes, by simp⟩
  | some r =>
    dsimp only
    split
    · rename_i h
      refine Plan.safe_pure hb.passes ⟨hb.becomes, fun _ => hb.shown_self ?_⟩
      rw [get?, hf, ← h]
      rfl
    · rename_i hrank
      obtain ⟨-, rfl⟩ := mem_of_find? hf
      have hne : (c.get? r.name).map (·.rank) ≠ some rank := by
        rw [get?, hf]
        exact fun h => hrank (Option.some.inj h)
      refine (hb.safe_change hp (sorted_place hb.sorted { r with rank })
        (covers_place hb.sorted _) true).mono (fun _ => id) fun res t' h => ?_
      obtain ⟨hc, hok, -⟩ := h
      refine ⟨hc, fun hres => ?_⟩
      exact hb.shown_place { r with rank } hne (hok true hres).1 (hok true hres).2

end Backed

/-- Entries that are stored are in the file. -/
theorem get?_of_store (hp : c.path ≠ []) (h : c.store t es = (.ok (), c', t')) :
    t'.get? c.path = some (.file (encode es)) := by
  have hends := Plan.ends_run false (c.changePlan es ()) t
  rw [run_changePlan, h] at hends
  exact (((safe_changePlan hp ()).ends _ _ hends).done () rfl).2.2

/-- Entries that could be stored may be stored with a late failure: the new file is in its place,
    and memory is as before. -/
theorem ends_changePlan_late (a : α) (h : c.store t es = (.ok (), c', t')) (e : IoError) :
    Plan.Ends true (c.changePlan es a) t (.error (.io e), c) t' := by
  rw [store] at h
  split at h
  · rename_i t₁ hrun
    obtain rfl : t₁ = t' := congrArg (·.2.2) h
    have hfiles := ends_attemptAll_late [.clear (t.freshTemp c.path),
      .add (t.freshTemp c.path) (encode es)] (.rename (t.freshTemp c.path) c.path) e hrun
    -- There is no temporary file any more that could be removed.
    have hdiscard : (FileTree.discard (t.freshTemp c.path)).Gives true t₁ () t₁ := .inr rfl
    have hstore : Plan.Ends true (c.storePlan es) t (.error (.io e), c) t₁ :=
      (Plan.ends_run true _ t).bind (hfiles.bind (.next hdiscard .done))
    exact hstore.bind .done
  · cases h

/-! ## Ranks -/

variable {P : Rank → Prop} {path : Path}

/-- The ranks in the file of a catalog all have `P`. -/
def RanksOnFile (P : Rank → Prop) (path : Path) (t : FileTree) : Prop :=
  ∃ es, Sorted es ∧ Filed ⟨path, es⟩ t ∧ ∀ r ∈ es, P r.rank

/-- The ranks in memory and in the file all have `P`. -/
structure AllRanks (P : Rank → Prop) (c : Catalog) (t : FileTree) : Prop where
  sorted : Sorted c.entries
  memory : ∀ r ∈ c.entries, P r.rank
  file : RanksOnFile P c.path t

/-- What is seen in the middle of a change if the ranks all have `P`. -/
structure RanksPass (P : Rank → Prop) (c : Catalog) (t t' : FileTree) : Prop where
  beside : Beside c.path t t'
  file : RanksOnFile P c.path t'

/-- What becomes of a catalog if the ranks all have `P`. -/
structure RanksStay (P : Rank → Prop) (c : Catalog) (t : FileTree) (c' : Catalog)
    (t' : FileTree) : Prop where
  beside : Beside c.path t t'
  path : c'.path = c.path
  ranks : AllRanks P c' t'

theorem RanksOnFile.congr (h : RanksOnFile P path t) (hg : t'.get? path = t.get? path) :
    RanksOnFile P path t' := by
  obtain ⟨es, hs, hf, hes⟩ := h
  exact ⟨es, hs, by rwa [Filed, hg], hes⟩

namespace AllRanks

variable (hr : AllRanks P c t)

include hr

theorem pass : RanksPass P c t t := ⟨.refl _ t, hr.file⟩

theorem stay : RanksStay P c t c t := ⟨.refl _ t, rfl, hr⟩

theorem safe_change (hp : c.path ≠ []) (hs : Sorted es) (hes : ∀ r ∈ es, P r.rank) (a : α) :
    Plan.Safe late (RanksPass P c t) (fun r t' => RanksStay P c t r.2 t') (c.changePlan es a) t := by
  have hnew : ∀ {t'}, t'.get? c.path = t.get? c.path ∨
      t'.get? c.path = some (.file (encode es)) → RanksOnFile P c.path t' := by
    rintro t' (h | h)
    · exact hr.file.congr h
    · exact ⟨es, hs, .inr h, hes⟩
  refine (safe_changePlan hp a).mono (fun t' h => ⟨h.beside, hnew h.file⟩) ?_
  rintro ⟨res, c'⟩ t' h
  cases res with
  | ok b =>
    obtain ⟨-, rfl, hf⟩ := h.done b rfl
    exact ⟨h.beside, rfl, hs, hes, hnew (.inr hf)⟩
  | error e =>
    obtain ⟨rfl, hf⟩ := h.failed e rfl
    exact ⟨h.beside, rfl, hr.sorted, hr.memory, hnew (hf.imp_right And.right)⟩

/-- A replica of such a rank may be put in its place. -/
theorem safe_place (hp : c.path ≠ []) {r : Replica} (h : P r.rank) (a : α) :
    Plan.Safe late (RanksPass P c t) (fun r t' => RanksStay P c t r.2 t')
      (c.changePlan (place r c.entries) a) t := by
  refine hr.safe_change hp (sorted_place hr.sorted r) (fun q hq => ?_) a
  rcases mem_place hq with rfl | hq
  · exact h
  · exact hr.memory q hq

theorem safe_insert (hp : c.path ≠ []) {r : Replica} (h : P r.rank) :
    Plan.Safe late (RanksPass P c t) (fun r t' => RanksStay P c t r.2 t') (c.insertPlan r) t := by
  rw [insertPlan]
  split
  · exact Plan.safe_pure hr.pass hr.stay
  · exact hr.safe_place hp h true

theorem safe_upsert (hp : c.path ≠ []) {r : Replica} (h : P r.rank) :
    Plan.Safe late (RanksPass P c t) (fun r t' => RanksStay P c t r.2 t') (c.upsertPlan r) t := by
  rw [upsertPlan]
  split
  · exact Plan.safe_pure hr.pass hr.stay
  · exact hr.safe_place hp h _

theorem safe_setRank (hp : c.path ≠ []) (name : String) {rank : Rank} (h : P rank) :
    Plan.Safe late (RanksPass P c t) (fun r t' => RanksStay P c t r.2 t')
      (c.setRankPlan name rank) t := by
  rw [setRankPlan]
  split
  · exact Plan.safe_pure hr.pass hr.stay
  · rename_i r _
    split
    · exact Plan.safe_pure hr.pass hr.stay
    · have hrank : P ({ r with rank } : Replica).rank := h
      exact hr.safe_place hp hrank true

end AllRanks

end ReplicaRing.Catalog
