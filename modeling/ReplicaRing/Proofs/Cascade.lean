import Mathlib.Logic.Relation
import ReplicaRing.Proofs.Prefix
import ReplicaRing.Proofs.Traffic

/-!
# Batches that are carried on

A node that stores a batch may send one on to its successor, that one another to its own successor,
and so on. Nobody keeps track of where a batch has been, and whom a node takes for its successor,
and which keys for its own, may be wrong and change at any time: two nodes may take each other for
their successors. What ends the cascade is that ranks go up.

* What a node sends on is of the batch it got, with the same values, and the ranks are higher by one
  (`Batch.Follows`, `Node.follows_of_start`).
* So one request leads to no more others than there are ranks behind its lowest one, whatever the
  nodes do in between (`Cascade.Bounded.reaches`).
* Each of these is sent while the one before waits for its reply. How deep they may be within each
  other does not matter beyond that number, so a request that leads to others ends by itself
  (`Peers.alike_relay`).

Main statement: `Cascade.comes_to_an_end`.
-/

namespace ReplicaRing

/-! ## Batches -/

namespace Batch

/-- What `b'` brings is of `b`, with the same values and with ranks one higher. -/
structure Follows (b b' : Batch) : Prop where
  names : (b'.map (·.1.name)).Nodup
  entry : ∀ y ∈ b', ∃ x ∈ b, y.1.key = x.1.key ∧ y.1.rank.toNat = x.1.rank.toNat + 1 ∧ y.2 = x.2

/-- The lowest rank goes up. -/
theorem Follows.lt {b b' : Batch} (h : b.Follows b') {r : Nat}
    (hb : ∀ x ∈ b, r ≤ x.1.rank.toNat) : ∀ y ∈ b', r < y.1.rank.toNat := by
  intro y hy
  obtain ⟨x, hx, -, hrank, -⟩ := h.entry y hy
  have := hb x hx
  omega

theorem Sorted.nodup {b : Batch} (hb : Sorted b) : (b.map (·.1.name)).Nodup :=
  List.pairwise_map.2 (hb.imp fun h => String.ne_of_lt h)

end Batch

/-! ## Nodes -/

namespace Node

variable {node : Node} {view : View} {now : Time} {batch onward onward' : Batch}

/-- How what is gathered goes with a batch of which `rest` is left to store. -/
structure Gathered (n : Rank) (batch rest onward : Batch) : Prop where
  subset : rest ⊆ batch
  nodup : (rest.map (·.1.name)).Nodup
  sorted : onward.Sorted
  /-- Of a key that is left nothing was gathered. -/
  fresh : ∀ x ∈ rest, x.1.name ∉ onward.map (·.1.name)
  entry : ∀ y ∈ onward, ∃ x ∈ batch, x.1.rank < n ∧ y = ({ x.1 with rank := x.1.rank + 1 }, x.2)

namespace Gathered

variable {n : Rank} {rest : Batch} {x : Replica × Bytes}

theorem tail (h : Gathered n batch (x :: rest) onward) : Gathered n batch rest onward :=
  ⟨List.subset_of_cons_subset h.subset, (List.nodup_cons.1 h.nodup).2, h.sorted,
    fun y hy => h.fresh y (List.mem_cons_of_mem _ hy), h.entry⟩

theorem insert (h : Gathered n batch (x :: rest) onward) (hlt : x.1.rank < n) :
    Gathered n batch rest (Batch.insert { x.1 with rank := x.1.rank + 1 } x.2 onward) := by
  have hfresh : ({ x.1 with rank := x.1.rank + 1 } : Replica).name ∉ onward.map (·.1.name) :=
    h.fresh x List.mem_cons_self
  refine ⟨h.tail.subset, h.tail.nodup, Batch.sorted_insert x.2 h.sorted hfresh,
    fun y hy hmem => ?_, fun y hy => ?_⟩
  · rcases (Batch.mem_names_insert x.2 hfresh).1 hmem with hname | hmem
    · exact (List.nodup_cons.1 h.nodup).1 (List.mem_map.2 ⟨y, hy, hname⟩)
    · exact h.tail.fresh y hy hmem
  · rcases (Batch.mem_insert_iff x.2 hfresh).1 hy with rfl | hy
    · exact ⟨x, h.subset List.mem_cons_self, hlt, rfl⟩
    · exact h.entry y hy

end Gathered

theorem gathered_storeReplicas (h : (node.storeReplicas view now [] batch).1 = .ok onward)
    (hnodup : (batch.map (·.1.name)).Nodup) : Gathered node.copies batch [] onward :=
  storeReplicas_rec h
    ⟨List.Subset.refl _, hnodup, .nil, fun _ _ => List.not_mem_nil, fun _ hy => by cases hy⟩
    (fun _ _ _ hP => hP.tail) fun _ _ _ hlt hP => hP.insert hlt

/-- If a node asks a peer about a batch, it has the peer carry the batch on, and some of the batch
    was below the last rank. -/
theorem follows_of_start {peer : Point} {request : Request} {after : After}
    (hnodup : (batch.map (·.1.name)).Nodup)
    (h : (node.start view now (.makeReplicas batch)).1 = .ask peer request after) :
    ∃ onward, request = .makeReplicas onward ∧ batch.Follows onward ∧
      ∃ x ∈ batch, x.1.rank < node.copies := by
  -- A batch that is refused, or that cannot be stored, is answered at once: nobody is asked.
  rw [start, makeReplicas] at h
  cases hr : node.rankError? batch with
  | some e =>
    rw [hr] at h
    cases h
  | none =>
    rw [hr] at h
    cases hs : node.storeReplicas view now [] batch with
    | mk result node' =>
      cases result with
      | error e =>
        simp only [hs] at h
        cases h
      | ok onward =>
        have hgathered := gathered_storeReplicas (congrArg Prod.fst hs) hnodup
        have hfollows : batch.Follows onward := by
          refine ⟨hgathered.sorted.nodup, fun y hy => ?_⟩
          obtain ⟨x, hx, hlt, rfl⟩ := hgathered.entry y hy
          exact ⟨x, hx, rfl, Rank.toNat_succ_of_lt hlt, rfl⟩
        cases onward with
        | nil =>
          simp only [hs] at h
          cases h
        | cons y onward =>
          obtain ⟨x, hx, hlt, -⟩ := hgathered.entry y List.mem_cons_self
          simp only [hs] at h
          cases hv : view.nextHop with
          | none =>
            rw [hv] at h
            cases h
          | some q =>
            rw [hv] at h
            cases h
            exact ⟨_, rfl, hfollows, x, hx, hlt⟩

theorem copies_start (node : Node) (view : View) (now : Time) (batch : Batch) :
    (node.start view now (.makeReplicas batch)).2.copies = node.copies := by
  rw [start, makeReplicas_snd]

theorem copies_resume (node : Node) (after : After) (reply : Except PeerError Reply) :
    (node.resume after reply).2.copies = node.copies := by
  cases reply with
  | error e => rfl
  | ok a =>
    cases after with
    | forwarded i reply => rfl
    | migrated moved =>
      rw [resume]
      dsimp only
      split <;> rfl

end Node

/-! ## One request after the other -/

/-- A batch for a node to carry on. -/
structure Delivery where
  peer : Point
  batch : Batch

/-- The nodes, and what a request to carry a batch on has led to. -/
structure Cascade where
  node : Point → Node
  /-- The requests sent so far, the last one first. -/
  sent : List Delivery
  /-- The request that is under way. -/
  underway : Option Delivery

/-- What a step sends to be carried on. -/
def Step.delivery? : Step → Option Delivery
  | .ask peer (.makeReplicas batch) _ => some ⟨peer, batch⟩
  | _ => none

namespace Cascade

/-- The first request is under way. -/
def start (node : Point → Node) (d : Delivery) : Cascade := ⟨node, [d], some d⟩

/-- A batch has arrived. -/
def serve (c : Cascade) (d : Delivery) (view : View) (now : Time) : Cascade :=
  let s := (c.node d.peer).start view now (.makeReplicas d.batch)
  ⟨Function.update c.node d.peer s.2, s.1.delivery?.toList ++ c.sent, s.1.delivery?⟩

/-- What may happen next. Whom a node takes for its successor, and which keys for its own, is up to
    its view each time. -/
inductive Next (c : Cascade) : Cascade → Prop
  | arrives {d : Delivery} (h : c.underway = some d) (view : View) (now : Time) :
    Next c (c.serve d view now)
  | lost : Next c { c with underway := none }
  /-- The node at `p` does something else, or gets a reply. -/
  | meanwhile (p : Point) {node : Node} (h : node.copies = (c.node p).copies) :
    Next c { c with node := Function.update c.node p node }

/-- What may come of a request. -/
abbrev Reaches : Cascade → Cascade → Prop := Relation.ReflTransGen Next

/-- The request `d`, of ranks from `r` on, has led to no more others than there are ranks behind
    `r`. -/
structure Bounded (n : Rank) (r : Nat) (d : Delivery) (c : Cascade) : Prop where
  copies : ∀ p, (c.node p).copies = n
  further : ∃ further, c.sent = further ++ [d] ∧ further.length ≤ n.toNat - r
  follows : c.sent.IsChain fun later earlier => earlier.batch.Follows later.batch
  /-- What is under way is what was sent last, and its ranks have gone up with each request. -/
  underway : ∀ e, c.underway = some e → c.sent.head? = some e ∧
    (e.batch.map (·.1.name)).Nodup ∧ ∀ x ∈ e.batch, r + c.sent.length ≤ x.1.rank.toNat + 1

variable {n : Rank} {r : Nat} {d e : Delivery} {c c' : Cascade}

theorem delivery?_eq_some {s : Step} (h : s.delivery? = some e) :
    ∃ after, s = .ask e.peer (.makeReplicas e.batch) after := by
  cases s with
  | done result => cases h
  | ask peer request after =>
    cases request <;> cases h
    exact ⟨after, rfl⟩

namespace Bounded

theorem update (hc : c.Bounded n r d) {node : Node} (hnode : node.copies = n) (p : Point) :
    ∀ q, (Function.update c.node p node q).copies = n :=
  (Function.forall_update_iff c.node fun _ node => node.copies = n).2
    ⟨hnode, fun q _ => hc.copies q⟩

theorem serve (hc : c.Bounded n r d) (h : c.underway = some e) (view : View) (now : Time) :
    (c.serve e view now).Bounded n r d := by
  obtain ⟨hhead, hnodup, hranks⟩ := hc.underway e h
  obtain ⟨further, hsent, hlength⟩ := hc.further
  have hcopies := hc.update (((c.node e.peer).copies_start view now e.batch).trans
    (hc.copies e.peer)) e.peer
  rw [Cascade.serve]
  cases hd : ((c.node e.peer).start view now (.makeReplicas e.batch)).1.delivery? with
  | none => exact ⟨hcopies, ⟨further, hsent, hlength⟩, hc.follows, by simp⟩
  | some e' =>
    obtain ⟨after, hask⟩ := delivery?_eq_some hd
    obtain ⟨onward, honward, hfollows, x, hx, hlt⟩ := Node.follows_of_start hnodup hask
    obtain rfl : e'.batch = onward := Request.makeReplicas.inj honward
    refine ⟨hcopies, ⟨e' :: further, congrArg (e' :: ·) hsent, ?_⟩,
      List.isChain_cons.2 ⟨fun e'' he'' => ?_, hc.follows⟩, fun e'' he'' => ?_⟩
    · -- Of the batch that arrived something was below the last rank.
      have hx' := hranks x hx
      have hlt' : x.1.rank.toNat < n.toNat := UInt32.lt_iff_toNat_lt.1 (hc.copies e.peer ▸ hlt)
      have hlen := congrArg List.length hsent
      simp only [List.length_append, List.length_cons, List.length_nil] at hlen ⊢
      omega
    · obtain rfl : e = e'' := Option.some.inj (hhead.symm.trans he'')
      exact hfollows
    · obtain rfl : e' = e'' := Option.some.inj he''
      refine ⟨rfl, hfollows.names, fun y hy => ?_⟩
      obtain ⟨z, hz, -, hrank, -⟩ := hfollows.entry y hy
      have hz' := hranks z hz
      simp only [Option.toList_some, List.singleton_append, List.length_cons]
      omega

theorem next (hc : c.Bounded n r d) (h : c.Next c') : c'.Bounded n r d := by
  cases h with
  | arrives h view now => exact hc.serve h view now
  | lost => exact ⟨hc.copies, hc.further, hc.follows, by simp⟩
  | meanwhile p h =>
    exact ⟨hc.update (h.trans (hc.copies p)) p, hc.further, hc.follows, hc.underway⟩

theorem reaches (hc : c.Bounded n r d) (h : Reaches c c') : c'.Bounded n r d := by
  induction h with
  | refl => exact hc
  | tail _ hstep ih => exact ih.next hstep

end Bounded

theorem bounded_start {node : Point → Node} (hcopies : ∀ p, (node p).copies = n)
    (hnodup : (d.batch.map (·.1.name)).Nodup) (hranks : ∀ x ∈ d.batch, r ≤ x.1.rank.toNat) :
    (start node d).Bounded n r d where
  copies := hcopies
  further := ⟨[], rfl, Nat.zero_le _⟩
  follows := .singleton d
  underway e he := by
    obtain rfl : d = e := Option.some.inj he
    exact ⟨rfl, hnodup, fun x hx => Nat.succ_le_succ (hranks x hx)⟩

end Cascade

/-! ## One request within the other -/

namespace Peers

open Timed

variable {peers : Peers Node} {p : Point} {request : Request} {post : Peers Node → Prop}

/-- Delivers requests to nodes as `Peers.deliver` does, but each time the node sees the ring, and
    reads the clock, as `sight` has it by then. -/
def relay (weather : Weather) (sight : Nat → Point → View × Time) :
    (hops : Nat) → Transport (Peers Node)
  | 0 => fun target _ => return .error (.unreachable target)
  | hops + 1 => fun target request => do
    let number ← Timed.act fun peers => (peers.sent, peers)
    send weather (fun _ request => Node.act (relay weather sight hops) target fun node =>
      node.start (sight number target).1 (sight number target).2 request) target request

theorem relay_const (site : Site) (hops : Nat) :
    relay site.weather (fun _ p => (site.members.view p, site.now)) hops = deliver site hops := by
  induction hops with
  | zero => rfl
  | succ hops ih =>
    funext target request
    rw [relay, ih]
    rfl

section Rules

variable {weather : Weather}
  {serve serve' : Node → Request → Timed (Peers Node) (Except ReplicationError Reply)}
  {transport transport' : Transport (Peers Node)} {first : Node → Step × Node}

theorem ensures_send (hsent : ∀ tally, post { peers with sent := peers.sent + 1, tally })
    (hserve : ∀ node tally, Ensures (serve node request)
      { peers with sent := peers.sent + 1, tally } fun _ => post) :
    Ensures (send weather serve p request) peers fun _ => post := by
  refine ensures_act_bind
    (Fate.ensures_deliver _ (ensures_act_bind ?_) (fun _ => hsent _) (hsent _))
  cases resolve? { peers with sent := peers.sent + 1 } p with
  | none => exact ensures_pure (hsent _)
  | some node =>
    refine (hserve node _).bind (fun r peers' h => ?_) fun _ h => h
    cases r <;> exact ensures_pure h

theorem alike_send (hserve : ∀ node tally, Alike (serve node request) (serve' node request)
      { peers with sent := peers.sent + 1, tally }) :
    Alike (send weather serve p request) (send weather serve' p request) peers := by
  refine alike_act_bind ?_
  dsimp only
  rw [Fate.deliver, Fate.deliver]
  cases (weather peers.sent p).delay with
  | none => exact alike_refl _ _
  | some d =>
    have hsleep : Ensures (sleep d) ({ peers with sent := peers.sent + 1 } : Peers Node)
        fun _ peers' => peers' = { peers with sent := peers.sent + 1 } := ensures_sleep d rfl rfl
    refine alike_bind hsleep ?_
    rintro _ _ rfl
    cases (weather peers.sent p).refusal with
    | some e => exact alike_refl _ _
    | none =>
      refine alike_act_bind ?_
      cases resolve? { peers with sent := peers.sent + 1 } p with
      | none => exact alike_refl _ _
      | some node => exact (hserve node _).bind _

/-- A node comes back with its result, or breaks off. -/
theorem ensures_conclude {result : Except ReplicationError Reply} (h : post peers) :
    Ensures (Node.conclude result) peers fun _ => post := by
  rw [Node.conclude.eq_def]
  split
  · exact ensures_abort h
  · exact ensures_pure h

/-- A node takes a step, and if it asks a peer it finishes later. -/
theorem ensures_act_step (hnone : post peers)
    (hstep : ∀ node, peers.find? p = some node → post (peers.update p (first node).2))
    (hask : ∀ node q request after, peers.find? p = some node →
      (first node).1 = .ask q request after →
      Ensures (transport q request) (peers.update p (first node).2) fun _ => post)
    (hfinish : ∀ peers' node after reply, post peers' → peers'.find? p = some node →
      post (peers'.update p (node.resume after reply).2)) :
    Ensures (Node.act transport p first) peers fun _ => post := by
  refine ensures_act_bind ?_
  cases hf : peers.find? p with
  | none => exact ensures_pure hnone
  | some node =>
    have hs := hstep node hf
    have ha := hask node
    cases hfirst : first node with
    | mk step node' =>
      rw [hfirst] at hs ha
      simp only [hfirst]
      cases step with
      | done result => exact ensures_conclude hs
      | ask q request after =>
        have hpeer := ha q request after hf rfl
        have hwithin : Ensures (within node.rpcTimeout (transport q request)) (peers.update p node')
            fun _ => post := hpeer.within _ (fun _ _ h => h) (fun _ h => h) fun _ h => h
        refine hwithin.bind (fun r peers' h => ensures_act ?_) fun _ h => h
        rw [Node.finishAt]
        cases hf' : peers'.find? p with
        | none => exact h
        | some node₁ => exact hfinish peers' node₁ after (orTimeout r) h hf'

theorem alike_act (hask : ∀ node q request after, peers.find? p = some node →
      (first node).1 = .ask q request after →
      Alike (transport q request) (transport' q request) (peers.update p (first node).2)) :
    Alike (Node.act transport p first) (Node.act transport' p first) peers := by
  refine alike_act_bind ?_
  cases hf : peers.find? p with
  | none => exact alike_refl _ _
  | some node =>
    have ha := hask node
    cases hfirst : first node with
    | mk step node' =>
      rw [hfirst] at ha
      simp only [hfirst]
      cases step with
      | done result => exact alike_refl _ _
      | ask q request after => exact ((ha q request after hf rfl).within _).bind _

end Rules

/-- The nodes have chains of `n` copies. -/
def Share (n : Rank) (peers : Peers Node) : Prop :=
  ∀ p node, peers.find? p = some node → node.copies = n

variable {n : Rank} {r hops hops' : Nat} {batch : Batch} {weather : Weather}
  {sight : Nat → Point → View × Time}

/-- What a node asks of a peer once it has been sent a batch: that it carries on what has ranks from
    the next one on. -/
theorem Share.asks (hs : peers.Share n) (hnodup : (batch.map (·.1.name)).Nodup)
    (hr : ∀ x ∈ batch, r ≤ x.1.rank.toNat) {node : Node} (hfind : peers.find? p = some node)
    {view : View} {now : Time} {q : Point} {after : After}
    (hask : (node.start view now (.makeReplicas batch)).1 = .ask q request after) :
    ∃ onward, request = .makeReplicas onward ∧ (onward.map (·.1.name)).Nodup ∧
      (∀ x ∈ onward, r + 1 ≤ x.1.rank.toNat) ∧ r < n.toNat := by
  obtain ⟨onward, rfl, hfollows, x, hx, hlt⟩ := Node.follows_of_start hnodup hask
  have hlt' : x.1.rank.toNat < n.toNat := UInt32.lt_iff_toNat_lt.1 (hs p node hfind ▸ hlt)
  exact ⟨onward, rfl, hfollows.names, hfollows.lt hr, lt_of_le_of_lt (hr x hx) hlt'⟩

theorem Share.serve (hs : peers.Share n) (view : View) (now : Time) (batch : Batch) {node : Node}
    (hfind : peers.find? p = some node) :
    (peers.update p (node.start view now (.makeReplicas batch)).2).Share n :=
  forall_find?_update hs ((node.copies_start view now batch).trans (hs p node hfind)) p

/-- No more requests are sent than there are ranks from the lowest of the batch on. -/
theorem ensures_relay {N : Nat} (hs : peers.Share n) (hnodup : (batch.map (·.1.name)).Nodup)
    (hr : ∀ x ∈ batch, r ≤ x.1.rank.toNat) (hN : peers.sent + (n.toNat - r) + 1 ≤ N) :
    Ensures (relay weather sight hops p (.makeReplicas batch)) peers
      fun _ peers' => peers'.Share n ∧ peers'.sent ≤ N := by
  induction hops generalizing peers p batch r with
  | zero => exact ensures_pure ⟨hs, by omega⟩
  | succ hops ih =>
    refine ensures_act_bind (ensures_send (fun _ => ⟨hs, by dsimp only; omega⟩) fun _ tally => ?_)
    have hs' : ({ peers with sent := peers.sent + 1, tally } : Peers Node).Share n := hs
    refine ensures_act_step ⟨hs, by dsimp only; omega⟩
      (fun node hfind => ⟨hs'.serve _ _ batch hfind, ?_⟩)
      (fun node q request after hfind hask => ?_)
      fun peers' node after reply h hfind => ⟨?_, h.2⟩
    · show peers.sent + 1 ≤ N
      omega
    · obtain ⟨onward, rfl, hnodup', hr', hlt⟩ := hs'.asks hnodup hr hfind hask
      refine ih (hs'.serve _ _ batch hfind) hnodup' hr' ?_
      show peers.sent + 1 + (n.toNat - (r + 1)) + 1 ≤ N
      omega
    · exact forall_find?_update h.1 ((node.copies_resume after reply).trans (h.1 _ node hfind)) _

/-- It does not matter how many requests there may be within each other, if there may be as many as
    there are ranks. -/
theorem alike_relay (hs : peers.Share n) (hnodup : (batch.map (·.1.name)).Nodup)
    (hr : ∀ x ∈ batch, r ≤ x.1.rank.toNat) (hhops : n.toNat - r < hops)
    (hhops' : n.toNat - r < hops') :
    Alike (relay weather sight hops p (.makeReplicas batch))
      (relay weather sight hops' p (.makeReplicas batch)) peers := by
  induction hops generalizing peers p batch r hops' with
  | zero => omega
  | succ hops ih =>
    obtain ⟨hops', rfl⟩ : ∃ i, hops' = i + 1 := ⟨hops' - 1, by omega⟩
    refine alike_act_bind (alike_send fun _ tally => alike_act
      fun node q request after hfind hask => ?_)
    have hs' : ({ peers with sent := peers.sent + 1, tally } : Peers Node).Share n := hs
    obtain ⟨onward, rfl, hnodup', hr', hlt⟩ := hs'.asks hnodup hr hfind hask
    exact ih (hs'.serve _ _ batch hfind) hnodup' hr' (by omega) (by omega)

/-- So the nodes of one process may be left as many as a cluster allows for. -/
theorem alike_deliver (hs : peers.Share n) (hnodup : (batch.map (·.1.name)).Nodup) (site : Site)
    (hhops : n.toNat < hops) (hhops' : n.toNat < hops') :
    Alike (deliver site hops p (.makeReplicas batch)) (deliver site hops' p (.makeReplicas batch))
      peers := by
  rw [← relay_const, ← relay_const]
  exact alike_relay hs hnodup (fun x _ => Nat.zero_le x.1.rank.toNat) hhops hhops'

end Peers

/-! ## Together -/

namespace Cascade

/-- What comes of a request to carry on a batch, of ranks from `r` on, among nodes with chains of
    `n` copies. -/
structure Ends (n : Rank) (r : Nat) (d : Delivery) : Prop where
  /-- It leads to at most one more request for each rank behind `r`, and each of them carries on
      the one before. -/
  sent : ∀ node : Point → Node, (∀ p, (node p).copies = n) → ∀ c, Reaches (start node d) c →
    ∃ further, c.sent = further ++ [d] ∧ further.length ≤ n.toNat - r ∧
      c.sent.IsChain fun later earlier => earlier.batch.Follows later.batch
  /-- Where each of them is sent while the one before waits, that is how deep they are within each
      other: more is never made use of. -/
  nested : ∀ peers : Peers Node, peers.Share n → ∀ weather sight hops now cutoff,
    n.toNat - r < hops →
    Peers.relay weather sight hops d.peer (.makeReplicas d.batch) now cutoff peers =
      Peers.relay weather sight (n.toNat - r + 1) d.peer (.makeReplicas d.batch) now cutoff peers ∧
    (Peers.relay weather sight hops d.peer (.makeReplicas d.batch) now cutoff peers).2.sent ≤
      peers.sent + (n.toNat - r) + 1

/-- A batch that is carried on comes to an end, whatever the nodes take the ring for, and whatever
    becomes of the requests. -/
theorem comes_to_an_end {n : Rank} {r : Nat} {d : Delivery}
    (hnodup : (d.batch.map (·.1.name)).Nodup) (hranks : ∀ x ∈ d.batch, r ≤ x.1.rank.toNat) :
    Ends n r d where
  sent node hcopies c h := by
    have hc := (bounded_start hcopies hnodup hranks).reaches h
    obtain ⟨further, hsent, hlength⟩ := hc.further
    exact ⟨further, hsent, hlength, hc.follows⟩
  nested peers hs weather sight hops now cutoff hhops :=
    ⟨Peers.alike_relay hs hnodup hranks hhops (Nat.lt_succ_self _) now cutoff,
      (Peers.ensures_relay hs hnodup hranks le_rfl now cutoff).2⟩

/-! ## Two nodes -/

/-- What is under way arrives, time and again, at nodes with these views. -/
def arrivals (c : Cascade) : List View → Cascade
  | [] => c
  | view :: views =>
    match c.underway with
    | some d => arrivals (c.serve d view 0) views
    | none => c

theorem reaches_arrivals (c : Cascade) (views : List View) : Reaches c (c.arrivals views) := by
  induction views generalizing c with
  | nil => exact .refl
  | cons view views ih =>
    rw [arrivals]
    cases h : c.underway with
    | some d => exact .head (.arrives h view 0) (ih _)
    | none => exact .refl

/-- A node that takes its only neighbour for the owner of all keys. -/
def sampleElsewhere (self neighbour : Point) : View :=
  ⟨self, some neighbour, some neighbour, fun _ => neighbour⟩

/-- The first copy of a key, for a node to carry on. -/
def sampleDelivery : Delivery :=
  ⟨Traffic.sampleFirst, [(.primary ⟨"c", .ofNat 0x1000⟩, [1])]⟩

/-- Two nodes that carry it on to each other. -/
def sampleCascade : Cascade :=
  let first := sampleElsewhere Traffic.sampleFirst Traffic.sampleSecond
  let second := sampleElsewhere Traffic.sampleSecond Traffic.sampleFirst
  (start (fun _ => { Traffic.sampleNode with copies := 3 }) sampleDelivery).arrivals
    [first, second, first, second]

/-- They send each other as many requests as there may be. -/
theorem comes_to_an_end_sampleDelivery :
    (sampleDelivery.batch.map (·.1.name)).Nodup ∧
      (∀ x ∈ sampleDelivery.batch, 1 ≤ x.1.rank.toNat) ∧ Ends 3 1 sampleDelivery ∧
      Reaches (start (fun _ => { Traffic.sampleNode with copies := 3 }) sampleDelivery)
        sampleCascade ∧
      sampleCascade.sent.map (fun d => d.batch.map (·.1.rank)) = [[3], [2], [1]] ∧
      sampleCascade.underway.isNone := by
  have hnodup : (sampleDelivery.batch.map (·.1.name)).Nodup := List.nodup_singleton _
  have hranks : ∀ x ∈ sampleDelivery.batch, 1 ≤ x.1.rank.toNat :=
    List.forall_mem_singleton.2 le_rfl
  exact ⟨hnodup, hranks, comes_to_an_end hnodup hranks, reaches_arrivals _ _, by decide +kernel,
    by decide +kernel⟩

end Cascade

end ReplicaRing
