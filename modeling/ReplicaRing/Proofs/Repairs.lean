import ReplicaRing.Proofs.Arrivals

/-!
# Repairs

What a node does when its neighbours change, for all keys it lists and all values it keeps. An
event *concerns* some of the listed copies (`Event.Concerns`); those with a value are sent to one
peer, in one request (`Event.Sends`), and a copy without a value is not sent.

Of what the node holds nothing changes but ranks (`Event.rankAfter`):

* copies that were handed over to a new predecessor become second ones, once the predecessor has
  confirmed them;
* second copies become first ones when the predecessor failed, whether their chains can be walked
  anew or not.

Main statement: `Node.repairs`.
-/

namespace ReplicaRing

open Log

/-! ## What an event asks for -/

namespace Event

/-- Who is sent something. -/
def recipient (view : View) : Event → Option Point
  | newPredecessor _ current | newSuccessor _ current => some current |>.filter (· ≠ view.self)
  | successorFailed _ replacement => replacement.filter (· ≠ view.self)
  | predecessorFailed _ _ => view.nextHop

/-- The event concerns a listed copy: one that the new predecessor owns now, one that is not the
    last of its chain, or one whose owner failed. -/
def Concerns (view : View) (n : Rank) (r : Replica) : Event → Prop
  | newPredecessor previous current =>
    r.rank = 1 ∧ r.key.point.inArc (previous.getD view.self) current false true = true
  | newSuccessor _ _ | successorFailed _ _ => r.rank < n
  | predecessorFailed _ _ => r.rank = 2

/-- The rank that a copy is sent under. -/
def sentRank (rank : Rank) : Event → Rank
  | newPredecessor _ _ | predecessorFailed _ _ => rank
  | newSuccessor _ _ | successorFailed _ _ => rank + 1

/-- The copy `y` is sent: its key is listed as one that the event concerns, and it has the last
    value. -/
def Sends (view : View) (n : Rank) (C : Contents) (event : Event) (y : Replica × Bytes) : Prop :=
  (event.recipient view).isSome ∧ ∃ r, C.listed y.1.name = some r ∧ event.Concerns view n r ∧
    y.1 = { r with rank := event.sentRank r.rank } ∧ (C.history y.1.name).latest = some y.2

/-- How the copies are sent. -/
def request (batch : Batch) : Event → Request
  | newPredecessor _ _ => .putObjects batch
  | newSuccessor _ _ | successorFailed _ _ | predecessorFailed _ _ => .makeReplicas batch

/-- What the reply is waited for with. -/
def awaited (batch : Batch) : Event → After
  | newPredecessor _ _ => .migrated (batch.map (·.1))
  | newSuccessor _ _ | successorFailed _ _ | predecessorFailed _ _ =>
    .forwarded batch.length .done

/-- The rank of a listed copy after the event, if the peer has confirmed that it has the copy or
    not. -/
def rankAfter (n : Rank) (confirmed : Bool) (rank : Rank) : Event → Rank
  | newPredecessor _ _ => if confirmed ∧ 2 ≤ n then 2 else rank
  | predecessorFailed _ _ => if rank = 2 then 1 else rank
  | newSuccessor _ _ | successorFailed _ _ => rank

end Event

/-! ## Ranks -/

namespace Contents

variable {C : Contents}

/-- All listed keys get other ranks, and nothing else changes. -/
def mapRanks (f : String → Rank → Rank) (C : Contents) : Contents :=
  { C with listed := fun k => (C.listed k).map fun r => { r with rank := f k r.rank } }

/-- Nothing changes if no listed key gets another rank. -/
theorem mapRanks_eq_self {f : String → Rank → Rank}
    (h : ∀ k r, C.listed k = some r → f k r.rank = r.rank) : C.mapRanks f = C := by
  refine ext_of_agrees fun k => ⟨?_, rfl⟩
  show (C.listed k).map _ = _
  cases hk : C.listed k with
  | none => rfl
  | some r => rw [Option.map_some, h k r hk]

theorem mapRanks_congr {f g : String → Rank → Rank}
    (h : ∀ k r, C.listed k = some r → f k r.rank = g k r.rank) : C.mapRanks f = C.mapRanks g := by
  refine ext_of_agrees fun k => ⟨?_, rfl⟩
  show (C.listed k).map _ = (C.listed k).map _
  cases hk : C.listed k with
  | none => rfl
  | some r => rw [Option.map_some, Option.map_some, h k r hk]

theorem mapRanks_setRank (key : String) (rank : Rank) (f : String → Rank → Rank) :
    (C.setRank key rank).mapRanks f =
      C.mapRanks fun k old => f k (if k = key then rank else old) := by
  refine ext_of_agrees fun k => ⟨?_, rfl⟩
  rw [mapRanks, mapRanks, listed_setRank]
  by_cases hk : k = key
  · subst hk
    simp [Function.comp_def]
  · simp [hk]

end Contents

/-! ## Listed copies -/

namespace Store.Holds

variable {K : Set String} {store : Store} {C : Contents} {r : Replica} {rs : List Replica}
  {batch : Batch}

theorem mem_keySet (hs : store.Holds K C) : r ∈ store.keySet ↔ C.listed r.name = some r := by
  have hfind : Catalog.find? store.catalog.entries r.name = C.listed r.name := hs.listed r.name
  rw [← hfind]
  exact ⟨Catalog.find?_of_mem hs.sorted, fun h => (Catalog.mem_of_find? h).1⟩

theorem name_of_listed (hs : store.Holds K C) {k : String} (h : C.listed k = some r) :
    r.name = k :=
  (Catalog.mem_of_find? ((hs.listed k).trans h)).2

/-- Listed keys get another rank. -/
theorem setRanks (hs : store.Holds K C) (rank : Rank) (rs : List Replica) :
    ∃ store', Node.setRanks store rank rs = (.ok (), store') ∧
      store'.Holds K (C.mapRanks fun k old => if k ∈ rs.map (·.name) then rank else old) := by
  induction rs generalizing store C with
  | nil => exact ⟨store, rfl, by rwa [Contents.mapRanks_eq_self (by simp)]⟩
  | cons r rs ih =>
    obtain ⟨store₁, hset, hs₁⟩ := hs.setRank r.name rank
    obtain ⟨store', hrec, hs'⟩ := ih hs₁
    refine ⟨store', ?_, ?_⟩
    · rw [Node.setRanks, hset]
      exact hrec
    · rw [Contents.mapRanks_setRank] at hs'
      convert hs' using 4 with k old
      by_cases hk : k = r.name <;> simp [hk]

/-- The last values of keys are gathered; a key without a value is left out. -/
theorem latestValues (hs : store.Holds K C) (hrs : ∀ r ∈ rs, r.name ∈ K)
    (hnodup : (rs.map (·.name)).Nodup) (hsorted : batch.Sorted)
    (hfresh : ∀ r ∈ rs, r.name ∉ batch.map (·.1.name)) :
    ∃ batch' store', Node.latestValues store batch rs = (.ok batch', store') ∧
      store'.Holds K C ∧ batch'.Sorted ∧ ∀ y, y ∈ batch' ↔ y ∈ batch ∨
        y.1 ∈ rs ∧ (C.history y.1.name).latest = some y.2 := by
  induction rs generalizing store batch with
  | nil => exact ⟨batch, store, rfl, hs, hsorted, by simp⟩
  | cons r rs ih =>
    obtain ⟨hr, hnodup⟩ := List.nodup_cons.1 hnodup
    obtain ⟨store₁, hget, hs₁⟩ := hs.get (hrs r List.mem_cons_self)
    have hrs' : ∀ r ∈ rs, r.name ∈ K := fun r hr => hrs r (List.mem_cons_of_mem _ hr)
    rw [Node.latestValues, hget]
    cases hl : (C.history r.name).latest with
    | none =>
      obtain ⟨batch', store', hrec, hs', hsorted', hmem⟩ := ih hs₁ hrs' hnodup hsorted
        fun r hr => hfresh r (List.mem_cons_of_mem _ hr)
      refine ⟨batch', store', hrec, hs', hsorted', fun y => ?_⟩
      rw [hmem, List.mem_cons, or_and_right]
      refine or_congr_right (or_iff_right ?_).symm
      rintro ⟨rfl, hy⟩
      rw [hl] at hy
      cases hy
    | some v =>
      have hfresh_r := hfresh r List.mem_cons_self
      obtain ⟨batch', store', hrec, hs', hsorted', hmem⟩ := ih hs₁ hrs' hnodup
        (Batch.sorted_insert v hsorted hfresh_r) fun s hs h =>
          ((Batch.mem_names_insert v hfresh_r).1 h).elim
            (fun h => hr (List.mem_map.2 ⟨s, hs, h⟩)) (hfresh s (List.mem_cons_of_mem _ hs))
      refine ⟨batch', store', hrec, hs', hsorted', fun y => ?_⟩
      rw [hmem, Batch.mem_insert_iff v hfresh_r, List.mem_cons, or_and_right, or_comm (a := y = _),
        or_assoc]
      refine or_congr_right (or_congr_left ⟨?_, ?_⟩)
      · rintro rfl
        exact ⟨rfl, hl⟩
      · rintro ⟨rfl, hy⟩
        rw [hl, Option.some.injEq] at hy
        rw [hy]

end Store.Holds

/-! ## Nodes -/

namespace Node

variable {K : Set String} {space : Space} {n : Rank} {node : Node} {C : Contents} {view : View}
  {rs : List Replica}

/-- What the node does about an event: it asks at most one peer, and finishes with the reply. In
    the meantime nobody asks anything of it. -/
def handleEvent (node : Node) (view : View) (event : Event) (reply : Except PeerError Reply) :
    Except ReplicationError Reply × Node :=
  match node.react view event with
  | (.done result, node) => (result, node)
  | (.ask _ _ after, node) => node.resume after reply

namespace Holds

/-- Copies are sent with their last values, if one of them has a value. -/
theorem sendLatest (hn : node.Holds K space n C) (hrs : ∀ r ∈ rs, r.name ∈ K)
    (hnodup : (rs.map (·.name)).Nodup) (ask : Batch → Step) :
    ∃ (batch : Batch) (node' : Node), node.sendLatest rs ask =
        (if batch = [] then .done (.ok .done) else ask batch, node') ∧
      node'.Holds K space n C ∧ batch.Sorted ∧
      ∀ y, y ∈ batch ↔ y.1 ∈ rs ∧ (C.history y.1.name).latest = some y.2 := by
  obtain ⟨batch, store', hlatest, hs', hsorted, hmem⟩ := hn.store.latestValues hrs hnodup .nil
    fun _ _ => List.not_mem_nil
  refine ⟨batch, { node with store := store' }, ?_, ⟨hn.space, hn.copies, hs'⟩, hsorted,
    fun y => by simpa using hmem y⟩
  rw [Node.sendLatest, hlatest]
  cases batch <;> rfl

/-- So are listed copies that are chosen from all, under ranks of their own. -/
theorem sendListed (hn : node.Holds K space n C) (hlisted : ∀ k r, C.listed k = some r → k ∈ K)
    (P : Replica → Bool) (up : Rank → Rank) (ask : Batch → Step) :
    ∃ (batch : Batch) (node' : Node), node.sendLatest
          ((node.store.keySet.filter P).map fun r => { r with rank := up r.rank }) ask =
        (if batch = [] then .done (.ok .done) else ask batch, node') ∧
      node'.Holds K space n C ∧ batch.Sorted ∧ ∀ y, y ∈ batch ↔
        ∃ r, C.listed y.1.name = some r ∧ P r = true ∧ y.1 = { r with rank := up r.rank } ∧
          (C.history y.1.name).latest = some y.2 := by
  have hnodup : (((node.store.keySet.filter P).map fun r =>
      ({ r with rank := up r.rank } : Replica)).map (·.name)).Nodup := by
    rw [List.map_map]
    exact (Catalog.nodup_names hn.store.sorted).sublist (List.filter_sublist.map _)
  obtain ⟨batch, node', hsend, hn', hsorted, hmem⟩ := hn.sendLatest (fun r hr => by
    obtain ⟨s, hs, rfl⟩ := List.mem_map.1 hr
    exact hlisted s.name s (hn.store.mem_keySet.1 (List.mem_filter.1 hs).1)) hnodup ask
  refine ⟨batch, node', hsend, hn', hsorted, fun y => ?_⟩
  rw [hmem, List.mem_map]
  constructor
  · rintro ⟨⟨r, hr, hy⟩, hlatest⟩
    obtain ⟨hr, hP⟩ := List.mem_filter.1 hr
    refine ⟨r, ?_, hP, hy.symm, hlatest⟩
    rw [← hy]
    exact hn.store.mem_keySet.1 hr
  · rintro ⟨r, hr, hP, hy, hlatest⟩
    refine ⟨⟨r, List.mem_filter.2 ⟨hn.store.mem_keySet.2 ?_, hP⟩, hy.symm⟩, hlatest⟩
    rw [hy] at hr
    exact hr

/-- They are sent to `peer`, if that is not the node itself. -/
theorem sendElsewhere (hn : node.Holds K space n C)
    (hlisted : ∀ k r, C.listed k = some r → k ∈ K) (view : View) (P : Replica → Bool)
    (up : Rank → Rank) (peer : Point) (ask : Point → Batch → Step) :
    ∃ (batch : Batch) (node' : Node),
      (if peer = view.self then (.done (.ok .done), node)
        else node.sendLatest ((node.store.keySet.filter P).map fun r => { r with rank := up r.rank })
          (ask peer)) =
        (if batch = [] then .done (.ok .done)
          else ((some peer).filter (· ≠ view.self)).elim (.done (.ok .done)) fun peer =>
            ask peer batch, node') ∧
      node'.Holds K space n C ∧ batch.Sorted ∧ ∀ y, y ∈ batch ↔
        ((some peer).filter (· ≠ view.self)).isSome ∧ ∃ r, C.listed y.1.name = some r ∧
          P r = true ∧ y.1 = { r with rank := up r.rank } ∧
          (C.history y.1.name).latest = some y.2 := by
  by_cases hself : peer = view.self
  · rw [if_pos hself]
    exact ⟨[], node, rfl, hn, .nil, by simp [hself]⟩
  · obtain ⟨batch, node', hsend, hn', hsorted, hmem⟩ := hn.sendListed hlisted P up (ask peer)
    have hother : (some peer).filter (· ≠ view.self) = some peer := by simp [hself]
    rw [if_neg hself, hother]
    exact ⟨batch, node', hsend, hn', hsorted, fun y => by
      rw [hmem, and_iff_right Option.isSome_some]⟩

/-- The copies between `lower` and a new predecessor are handed over to it. -/
theorem migrate (hn : node.Holds K space n C) (hlisted : ∀ k r, C.listed k = some r → k ∈ K)
    (view : View) (lower current : Point) :
    ∃ (batch : Batch) (node' : Node), node.migrate view lower current =
        (if batch = [] then .done (.ok .done)
          else ((some current).filter (· ≠ view.self)).elim (.done (.ok .done)) fun peer =>
            .ask peer (.putObjects batch) (.migrated (batch.map (·.1))), node') ∧
      node'.Holds K space n C ∧ batch.Sorted ∧ ∀ y, y ∈ batch ↔
        ((some current).filter (· ≠ view.self)).isSome ∧ ∃ r, C.listed y.1.name = some r ∧
          (r.rank = 1 ∧ r.key.point.inArc lower current false true = true) ∧ y.1 = r ∧
          (C.history y.1.name).latest = some y.2 := by
  obtain ⟨batch, node', hsend, hn', hsorted, hmem⟩ := hn.sendElsewhere hlisted view
    (fun r => r.rank = 1 && r.key.point.inArc lower current false true) id current
    fun peer batch => .ask peer (.putObjects batch) (.migrated (batch.map (·.1)))
  -- The copies keep their ranks.
  have hid : ∀ rs : List Replica, (rs.map fun r => { r with rank := id r.rank }) = rs := List.map_id
  rw [hid] at hsend
  refine ⟨batch, node', hsend, hn', hsorted, fun y => ?_⟩
  rw [hmem]
  simp only [Bool.and_eq_true, decide_eq_true_eq, id_eq]

/-- The copies that are not the last of their chains are sent to a new successor. -/
theorem replicateTo (hn : node.Holds K space n C) (hlisted : ∀ k r, C.listed k = some r → k ∈ K)
    (view : View) (peer : Point) :
    ∃ (batch : Batch) (node' : Node), node.replicateTo view peer =
        (if batch = [] then .done (.ok .done)
          else ((some peer).filter (· ≠ view.self)).elim (.done (.ok .done)) fun peer =>
            forward peer batch .done, node') ∧
      node'.Holds K space n C ∧ batch.Sorted ∧ ∀ y, y ∈ batch ↔
        ((some peer).filter (· ≠ view.self)).isSome ∧ ∃ r, C.listed y.1.name = some r ∧
          r.rank < n ∧ y.1 = { r with rank := r.rank + 1 } ∧
          (C.history y.1.name).latest = some y.2 := by
  obtain ⟨batch, node', hsend, hn', hsorted, hmem⟩ := hn.sendElsewhere hlisted view
    (fun r => r.rank < node.copies) (· + 1) peer fun peer batch => forward peer batch .done
  refine ⟨batch, node', hsend, hn', hsorted, fun y => ?_⟩
  rw [hmem]
  simp only [decide_eq_true_eq, hn.copies]

/-- Second copies become first ones, and are sent to the next node if there is one. -/
theorem takeOver (hn : node.Holds K space n C) (hlisted : ∀ k r, C.listed k = some r → k ∈ K)
    (view : View) :
    ∃ (batch : Batch) (node' : Node), node.takeOver view =
        (if batch = [] then .done (.ok .done)
          else view.nextHop.elim (.done (.ok .done)) fun peer => forward peer batch .done, node') ∧
      node'.Holds K space n (C.mapRanks fun _ rank => if rank = 2 then 1 else rank) ∧
      batch.Sorted ∧ ∀ y, y ∈ batch ↔ view.nextHop.isSome ∧
        ∃ r, C.listed y.1.name = some r ∧ r.rank = 2 ∧ y.1 = r ∧
          (C.history y.1.name).latest = some y.2 := by
  set promoted := node.store.keySet.filter fun r => r.rank = 2 with hpromoted
  obtain ⟨store₁, hset, hs₁⟩ := hn.store.setRanks 1 promoted
  have hmem_promoted : ∀ {r}, r ∈ promoted ↔ C.listed r.name = some r ∧ r.rank = 2 := fun {r} => by
    rw [hpromoted, List.mem_filter, hn.store.mem_keySet, decide_eq_true_eq]
  -- The names that are promoted are those listed with rank two.
  have hC : (C.mapRanks fun k rank => if k ∈ promoted.map (·.name) then 1 else rank) =
      C.mapRanks fun _ rank => if rank = 2 then 1 else rank := by
    refine Contents.mapRanks_congr fun k r hr => ?_
    have hiff : k ∈ promoted.map (·.name) ↔ r.rank = 2 := by
      constructor
      · intro hk
        obtain ⟨s, hs, rfl⟩ := List.mem_map.1 hk
        obtain ⟨hl, htwo⟩ := hmem_promoted.1 hs
        rwa [← Option.some.inj (hl.symm.trans hr)]
      · intro htwo
        have hname := hn.store.name_of_listed hr
        exact List.mem_map.2 ⟨r, hmem_promoted.2 ⟨hname.symm ▸ hr, htwo⟩, hname⟩
    simp only [hiff]
  rw [hC] at hs₁
  have hn₁ : Holds K space n { node with store := store₁ } _ := ⟨hn.space, hn.copies, hs₁⟩
  rw [Node.takeOver]
  simp only [← hpromoted, hset]
  cases hhop : view.nextHop with
  | none => exact ⟨[], _, rfl, hn₁, .nil, by simp⟩
  | some peer =>
    have hnodup : (promoted.map (·.name)).Nodup :=
      (Catalog.nodup_names hn.store.sorted).sublist (List.filter_sublist.map _)
    obtain ⟨batch, node', hsend, hn', hsorted, hmem⟩ := hn₁.sendLatest
      (fun r hr => hlisted _ _ (hmem_promoted.1 hr).1) hnodup fun batch => forward peer batch .done
    refine ⟨batch, node', hsend, hn', hsorted, fun y => ?_⟩
    rw [hmem, hmem_promoted]
    constructor
    · rintro ⟨⟨hl, htwo⟩, hlatest⟩
      exact ⟨rfl, y.1, hl, htwo, rfl, hlatest⟩
    · rintro ⟨-, r, hl, htwo, rfl, hlatest⟩
      exact ⟨⟨hl, htwo⟩, hlatest⟩

theorem countEvent (hn : node.Holds K space n C) (kind : String) :
    (node.countEvent kind).Holds K space n C :=
  ⟨hn.space, hn.copies, hn.store.tally _⟩

/-- What was handed over is kept as second copies, in a ring that has second copies. -/
theorem resume_migrated (hn : node.Holds K space n C) (moved : List Replica) (a : Reply) :
    ∃ node', node.resume (.migrated moved) (.ok a) = (.ok .done, node') ∧ node'.Holds K space n
      (C.mapRanks fun k rank => if k ∈ moved.map (·.name) ∧ 2 ≤ n then 2 else rank) := by
  have hn₁ := hn.count .objectsMigrated moved.length
  rw [Node.resume]
  by_cases htwo : 2 ≤ n
  · obtain ⟨store', hset, hs'⟩ := hn₁.store.setRanks 2 moved
    have hcopies : 2 ≤ (node.count .objectsMigrated moved.length).copies := hn₁.copies ▸ htwo
    refine ⟨{ node.count .objectsMigrated moved.length with store := store' }, ?_,
      hn₁.space, hn₁.copies, by simpa [htwo] using hs'⟩
    simp only [if_pos hcopies, hset]
    rfl
  · have hcopies : ¬2 ≤ (node.count .objectsMigrated moved.length).copies := hn₁.copies ▸ htwo
    refine ⟨node.count .objectsMigrated moved.length, by simp only [if_neg hcopies], ?_⟩
    rwa [Contents.mapRanks_eq_self (by simp [htwo])]

/-- What the node does at once, and whom it asks. -/
theorem react (hn : node.Holds K space n C) (hlisted : ∀ k r, C.listed k = some r → k ∈ K)
    (view : View) (event : Event) :
    ∃ (batch : Batch) (node' : Node), node.react view event =
        (if batch = [] then .done (.ok .done)
          else (event.recipient view).elim (.done (.ok .done)) fun peer =>
            .ask peer (event.request batch) (event.awaited batch), node') ∧
      node'.Holds K space n (C.mapRanks fun _ rank => event.rankAfter n false rank) ∧
      batch.Sorted ∧ ∀ y, y ∈ batch ↔ event.Sends view n C y := by
  have hn₁ := hn.countEvent event.kind
  have hself : C.mapRanks (fun _ rank => rank) = C := Contents.mapRanks_eq_self fun _ _ _ => rfl
  cases event with
  | newPredecessor previous current =>
    obtain ⟨batch, node', hstep, hn', hsorted, hmem⟩ :=
      hn₁.migrate hlisted view (previous.getD view.self) current
    exact ⟨batch, node', hstep, by simpa [Event.rankAfter, hself] using hn', hsorted, hmem⟩
  | newSuccessor previous current =>
    obtain ⟨batch, node', hstep, hn', hsorted, hmem⟩ := hn₁.replicateTo hlisted view current
    exact ⟨batch, node', hstep, by simpa [Event.rankAfter, hself] using hn', hsorted, hmem⟩
  | successorFailed failed replacement =>
    cases replacement with
    | none =>
      exact ⟨[], _, rfl, by simpa [Event.rankAfter, hself] using hn₁, .nil,
        fun y => by simp [Event.Sends, Event.recipient]⟩
    | some peer =>
      obtain ⟨batch, node', hstep, hn', hsorted, hmem⟩ := hn₁.replicateTo hlisted view peer
      exact ⟨batch, node', hstep, by simpa [Event.rankAfter, hself] using hn', hsorted, hmem⟩
  | predecessorFailed failed replacement =>
    obtain ⟨batch, node', hstep, hn', hsorted, hmem⟩ := hn₁.takeOver hlisted view
    exact ⟨batch, node', hstep, hn', hsorted, hmem⟩

end Holds

/-- What a node that holds `C` does about an event if it sends `batch`. -/
structure Repairs (K : Set String) (space : Space) (n : Rank) (node : Node) (C : Contents)
    (view : View) (event : Event) (batch : Batch) : Prop where
  sorted : batch.Sorted
  mem_iff : ∀ y, y ∈ batch ↔ event.Sends view n C y
  /-- At most one peer is asked, and nobody if there is nothing to send. -/
  asked : (node.react view event).1 =
    if batch = [] then .done (.ok .done)
    else (event.recipient view).elim (.done (.ok .done)) fun peer =>
      .ask peer (event.request batch) (event.awaited batch)
  /-- Whatever the peer says, only ranks have changed. -/
  replied : ∀ reply : Except PeerError Reply, ∃ node', node.handleEvent view event reply =
      (if batch = [] then .ok .done else (reply.mapError .peer).map fun _ => .done, node') ∧
    node'.Holds K space n (C.mapRanks fun k rank =>
      event.rankAfter n (reply.isOk && decide (k ∈ batch.map (·.1.name))) rank)

/-- What a node does about an event: it sends the copies that the event concerns, and whatever
    becomes of the request, of what it holds only ranks change. -/
theorem repairs (hn : node.Holds K space n C) (hlisted : ∀ k r, C.listed k = some r → k ∈ K)
    (view : View) (event : Event) :
    ∃ batch, node.Repairs K space n C view event batch := by
  obtain ⟨batch, node₁, hreact, hn₁, hsorted, hmem⟩ := hn.react hlisted view event
  refine ⟨batch, hsorted, hmem, congrArg Prod.fst hreact, fun reply => ?_⟩
  -- A rank that does not go by the reply has changed already.
  have hdone : ∀ confirmed : String → Bool, (∀ k r, C.listed k = some r →
        event.rankAfter n (confirmed k) r.rank = event.rankAfter n false r.rank) →
      ∀ {node' : Node},
      node'.Holds K space n (C.mapRanks fun _ rank => event.rankAfter n false rank) →
      node'.Holds K space n (C.mapRanks fun k rank => event.rankAfter n (confirmed k) rank) := by
    intro confirmed h node' hn'
    have heq : C.mapRanks (fun k rank => event.rankAfter n (confirmed k) rank) =
        C.mapRanks fun _ rank => event.rankAfter n false rank := Contents.mapRanks_congr h
    rwa [heq]
  rw [handleEvent, hreact]
  by_cases hb : batch = []
  · subst hb
    exact ⟨node₁, rfl, hdone _ (by simp) hn₁⟩
  · obtain ⟨y, hy⟩ := List.exists_mem_of_ne_nil batch hb
    obtain ⟨peer, hpeer⟩ := Option.isSome_iff_exists.1 ((hmem y).1 hy).1
    rw [if_neg hb, if_neg hb, hpeer]
    cases reply with
    | error e => exact ⟨_, rfl, hdone _ (by simp [Except.isOk, Except.toBool]) (hn₁.count _ _)⟩
    | ok a =>
      cases event with
      | newPredecessor previous current =>
        rw [Contents.mapRanks_eq_self (by simp [Event.rankAfter])] at hn₁
        obtain ⟨node', hresume, hn'⟩ := hn₁.resume_migrated (batch.map (·.1)) a
        refine ⟨node', hresume, ?_⟩
        convert hn' using 2
        funext k rank
        refine if_congr (and_congr_left' ?_) rfl rfl
        rw [List.map_map, Except.isOk, Except.toBool, Bool.true_and, decide_eq_true_eq]
        rfl
      | newSuccessor previous current => exact ⟨_, rfl, hn₁.count _ _⟩
      | successorFailed failed replacement => exact ⟨_, rfl, hn₁.count _ _⟩
      | predecessorFailed failed replacement => exact ⟨_, rfl, hn₁.count _ _⟩

/-- A node whose new predecessor takes over all keys. -/
def handoverView : View := ⟨.ofNat 1, some (.ofNat 0), some (.ofNat 0), fun _ => .ofNat 0⟩

/-- A first copy is handed over, and a second copy that has no value yet is not. -/
theorem repairs_sampleHandover :
    let space : Space := ⟨16, by decide, by decide⟩
    let C := (sampleHeld space).enlist ⟨space.key "b", 2⟩
    let event : Event := .newPredecessor none (.ofNat 0)
    ∃ node : Node, node.Holds samplePairOfKeys space 3 C ∧
      (∀ k r, C.listed k = some r → k ∈ samplePairOfKeys) ∧
      (C.listed "b").isSome ∧ C.history "b" = [] ∧
      ∃ batch, node.Repairs samplePairOfKeys space 3 C handoverView event batch ∧
        (.primary (space.key "a"), [1]) ∈ batch := by
  intro space C event
  obtain ⟨node, hn⟩ := exists_sampleHeld space
  obtain ⟨-, store, -, hs⟩ := hn.store.upsert ⟨space.key "b", 2⟩
  have hn' : Node.Holds samplePairOfKeys space 3 { node with store := store } C :=
    ⟨hn.space, hn.copies, hs⟩
  have hlisted : ∀ k r, C.listed k = some r → k ∈ samplePairOfKeys := by
    intro k r h
    by_contra hk
    rw [samplePairOfKeys, Set.mem_insert_iff, Set.mem_singleton_iff, not_or] at hk
    change Function.update (Function.update (fun _ => none) "a" _) "b" _ k = _ at h
    rw [Function.update_of_ne hk.2, Function.update_of_ne hk.1] at h
    cases h
  obtain ⟨batch, hrepairs⟩ := repairs hn' hlisted handoverView event
  refine ⟨_, hn', hlisted, rfl, rfl, batch, hrepairs, (hrepairs.mem_iff _).2 ⟨by decide, ?_⟩⟩
  exact ⟨.primary (space.key "a"), rfl, ⟨rfl, by decide +kernel⟩, rfl, rfl⟩

end Node

end ReplicaRing
