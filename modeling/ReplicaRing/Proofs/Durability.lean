import ReplicaRing.Proofs.Sound

/-!
# When a write is lost

On a ring that nodes join and leave in any order, a read does not always answer the last write:
an old copy that a join left behind can come round to the owner (`Cluster.lost_write`).

`Cluster.reads_last_iff` tells when: the reads of a run all answer the last write if and only if
no move of the run endangers the key (`Cluster.Endangers`). One that does sends a stale copy
round to the owner, over so few nodes that its ranks last.
-/

namespace ReplicaRing.Cluster

/-- The copy of a key that is seen on the node at `p`. -/
def copyAt (c : Cluster) (key : String) : Row := fun p =>
  (c.rankAt key p).bind fun rank => (c.valueAt key p).map fun value => ⟨rank, value⟩

/-- The move sends a stale copy of the key round to its owner. -/
def Endangers (E : Setting) (c : Cluster) (key : String) (last : Option Bytes) (mv : Move) : Prop :=
  ∃ v, last = some v ∧ Row.Endangers E key v c.members (c.copyAt key) mv

variable {E : Setting} {b : Nat} {c : Cluster} {rows : String → Row} {mvs : List Move}
  {mv : Move} {key : String} {last : Option Bytes} {v : Bytes}

theorem Shows.copyAt_eq (hs : c.Shows E b rows) (hkey : key ∈ E.keys) :
    c.copyAt key = rows key := by
  funext p
  rw [copyAt, hs.rankAt_eq, hs.valueAt_eq hkey]
  cases rows key p <;> rfl

theorem Shows.endangers_iff (hs : c.Shows E b rows) (hkey : key ∈ E.keys) :
    c.Endangers E key (some v) mv ↔ Row.Endangers E key v c.members (rows key) mv := by
  rw [Endangers, hs.copyAt_eq hkey]
  simp

/-- Only moves of the ring endanger a key. -/
theorem write_of_endangers {m : Members} {row : Row} (h : row.Endangers E key v m mv) :
    mv.write key last = last := by
  cases mv with
  | join p => rfl
  | fail p => rfl
  | _ => exact False.elim h

/-- What is tracked is read. -/
theorem Shows.reads_of_tracks (hs : c.Shows E b rows) (hkey : key ∈ E.keys)
    (h : Row.Tracks E key c.members (rows key) last) (hsize : 1 ≤ c.members.size) :
    c.Reads key last := by
  obtain ⟨o, ho⟩ : ∃ o, (c.members.chain (E.point key)).head? = some o :=
    ⟨_, head_chain_target (E := E) key (.ofNat 0) hsize⟩
  rw [hs.reads hkey hsize ho]
  cases last with
  | none =>
    rw [show rows key = fun _ => none from h]
    rfl
  | some v =>
    rw [h.2.owner o ho]
    rfl

/-- What is lost is not read. -/
theorem Shows.not_reads_of_lost (hs : c.Shows E b rows) (hkey : key ∈ E.keys)
    (h : Row.Lost v c.members (E.point key) (rows key)) :
    1 ≤ c.members.size ∧ ¬c.Reads key (some v) := by
  obtain ⟨o, ho, hv⟩ := h
  have hsize : 1 ≤ c.members.size := by
    rw [← Members.length_chain c.members (E.point key)]
    exact List.length_pos_of_mem (List.mem_of_head? ho)
  exact ⟨hsize, fun hr => hv ((hs.reads hkey hsize ho (some v)).1 hr)⟩

/-- What holds of all beginnings of a run holds of the empty one and of those that begin with its
    first move. -/
theorem forall_past_cons {P : List Move → Prop} :
    (∀ past, past <+: mv :: mvs → P past) ↔ P [] ∧ ∀ past, past <+: mvs → P (mv :: past) := by
  refine ⟨fun h => ⟨h [] List.nil_prefix, fun past hp =>
    h (mv :: past) (List.cons_prefix_cons.2 ⟨rfl, hp⟩)⟩, fun h past hp => ?_⟩
  cases past with
  | nil => exact h.1
  | cons a past =>
    obtain ⟨rfl, hp'⟩ := List.cons_prefix_cons.1 hp
    exact h.2 past hp'

/-- So for what holds of all moves of a run and what was before them. -/
theorem forall_move_cons {P : List Move → Move → Prop} :
    (∀ past mv', past ++ [mv'] <+: mv :: mvs → P past mv') ↔
      P [] mv ∧ ∀ past mv', past ++ [mv'] <+: mvs → P (mv :: past) mv' := by
  refine ⟨fun h => ⟨h [] mv (by simp), fun past mv' hp =>
    h (mv :: past) mv' (List.cons_prefix_cons.2 ⟨rfl, hp⟩)⟩, fun h past mv' hp => ?_⟩
  cases past with
  | nil =>
    obtain rfl : mv' = mv := (List.cons_prefix_cons.1 hp).1
    exact h.1
  | cons a past =>
    obtain ⟨rfl, hp'⟩ := List.cons_prefix_cons.1 hp
    exact h.2 past mv' hp'

/-- The reads of a run that begins with a key that is tracked. -/
theorem Shows.reads_iff (hs : c.Shows E b rows) (hadm : AllAdmissible E c.members mvs)
    (hbudget : b + mvs.length * cost E ≤ E.budget) (hkey : key ∈ E.keys)
    (h : Row.Tracks E key c.members (rows key) last) :
    (∀ past, past <+: mvs → 1 ≤ (c.after past).members.size →
      (c.after past).Reads key (past.foldl (Move.write key) last)) ↔
    ∀ past mv, past ++ [mv] <+: mvs →
      ¬(c.after past).Endangers E key (past.foldl (Move.write key) last) mv := by
  induction mvs generalizing c b rows last with
  | nil =>
    refine ⟨fun _ past mv hp => ?_, fun _ past hp hsize => ?_⟩
    · exact absurd (List.prefix_nil.1 hp) (by simp)
    · rw [List.prefix_nil.1 hp] at hsize ⊢
      exact hs.reads_of_tracks hkey h hsize
  | cons mv mvs ih =>
    rw [List.length_cons, Nat.succ_mul] at hbudget
    obtain ⟨c', hperform, hm, hs'⟩ := hs.perform hadm.1 (by omega)
    have hafter : ∀ past, c.after (mv :: past) = c'.after past := fun past => by
      rw [after, List.foldl_cons, make_of_prompt hperform]
      rfl
    rw [forall_past_cons, forall_move_cons]
    simp only [hafter, List.foldl_cons]
    by_cases hsafe : c.Endangers E key last mv
    · -- The first such move is the last one after which the last write is read.
      refine iff_of_false (fun hall => ?_) fun hall => hall.1 hsafe
      obtain ⟨v, rfl, hv⟩ := hsafe
      rw [hs.copyAt_eq hkey] at hv
      have hlost := (h.2.move h.1 (hs.kept key) hadm.1).2 hv
      rw [← hm] at hlost
      obtain ⟨hsize, hnot⟩ := hs'.not_reads_of_lost hkey hlost
      have hread := hall.2 [] List.nil_prefix hsize
      rw [List.foldl_nil, write_of_endangers hv] at hread
      exact hnot hread
    · have htracks := h.move (hs.kept key) hadm.1 (fun v hv => by
        rw [hv, hs.endangers_iff hkey] at hsafe
        exact hsafe)
      rw [← hm] at htracks
      have hrest := ih hs' (hm.symm ▸ hadm.2) (by omega) htracks
      exact and_congr (iff_of_true (hs.reads_of_tracks hkey h) hsafe) hrest

/-- Every move of a run succeeds, and the reads of a key at any time of the run all answer its
    last write if and only if no move endangers the key. -/
theorem reads_last_iff {o : ClusterOptions} {now : Time} (hspace : o.space = E.space)
    (hcopies : o.copies = E.copies) (hlistening : o.listening = false)
    (hnow : now.toNat ≤ E.latest) (hadm : AllAdmissible E .empty mvs)
    (hbudget : mvs.length * cost E ≤ E.budget) :
    let start := Cluster.empty o .calm now
    (∀ a ∈ start.answers mvs, ∃ a', a = some a' ∧ a'.Succeeds) ∧
    ∀ key ∈ E.keys,
      (∀ past, past <+: mvs → 1 ≤ (start.after past).members.size →
        (start.after past).Reads key (lastWrite key past)) ↔
      ∀ past mv, past ++ [mv] <+: mvs →
        ¬(start.after past).Endangers E key (lastWrite key past) mv := by
  intro start
  have hs : start.Shows E 0 fun _ _ => none := shows_empty hspace hcopies hlistening hnow
  refine ⟨(hs.run hadm (by rwa [Nat.zero_add])).2.2, fun key hkey => ?_⟩
  exact hs.reads_iff hadm (by rwa [Nat.zero_add]) hkey rfl

/-- The node at `sampleB` comes between two puts, and fails after the second. -/
def sampleLoss : List Move :=
  [.join sampleA, .join sampleC, .put sampleA "c" sampleOld, .join sampleB,
    .put sampleA "c" sampleNew, .fail sampleB]

theorem allAdmissible_sampleLoss : AllAdmissible sampleSetting .empty sampleLoss := by decide

theorem reads_last_iff_sampleLoss :
    AllAdmissible sampleSetting .empty sampleLoss ∧
    sampleLoss.length * cost sampleSetting ≤ sampleSetting.budget ∧
    let start := Cluster.empty sampleOptions .calm 0
    ((∀ past, past <+: sampleLoss → 1 ≤ (start.after past).members.size →
        (start.after past).Reads "c" (lastWrite "c" past)) ↔
      ∀ past mv, past ++ [mv] <+: sampleLoss →
        ¬(start.after past).Endangers sampleSetting "c" (lastWrite "c" past) mv) :=
  ⟨allAdmissible_sampleLoss, by decide,
    (reads_last_iff rfl rfl rfl (by decide) allAdmissible_sampleLoss (by decide)).2 "c" rfl⟩

/-- The second copy that the join has put out of its place has its rank still. When the node
    before it fails it is taken for the owner's, and goes round to the owner. -/
theorem lost_write :
    let start := Cluster.empty sampleOptions .calm 0
    AllAdmissible sampleSetting .empty sampleLoss ∧
    (∀ a ∈ start.answers sampleLoss, ∃ a', a = some a' ∧ a'.Succeeds) ∧
    lastWrite "c" sampleLoss = some sampleNew ∧
    (start.after sampleLoss).Reads "c" (some sampleOld) ∧
    ¬(start.after sampleLoss).Reads "c" (lastWrite "c" sampleLoss) := by
  intro start
  have hs : start.Shows sampleSetting 0 fun _ _ => none := shows_empty rfl rfl rfl (by decide)
  obtain ⟨hm, hs, ha⟩ := hs.run allAdmissible_sampleLoss (by decide)
  have hsize : 1 ≤ (start.after sampleLoss).members.size := by
    rw [hm]
    decide
  have ho : ((start.after sampleLoss).members.chain (sampleSetting.point "c")).head? =
      some sampleA := by
    rw [hm]
    decide +kernel
  have hkey : "c" ∈ sampleSetting.keys := rfl
  have hreads := hs.reads hkey hsize ho
  have hrow : (Row.moves sampleSetting .empty "c" (fun _ => none) sampleLoss sampleA).map
      (·.value) = some sampleOld := by decide +kernel
  have hlast : lastWrite "c" sampleLoss = some sampleNew := rfl
  refine ⟨allAdmissible_sampleLoss, ha, hlast, (hreads _).2 hrow, fun h => ?_⟩
  have h := ((hreads _).1 h).symm.trans hrow
  rw [hlast] at h
  exact absurd h (by decide)

end ReplicaRing.Cluster
