import ReplicaRing.Cluster
import ReplicaRing.Proofs.Peers
import ReplicaRing.Proofs.Ring.Ownership

/-!
# What a cluster does, key by key

A cluster shows the rows of its members (`Cluster.Shows`). From outside, nodes join and fail,
clients put, delete and read keys, and the clock is set (`Cluster.Move`). Without failures of
requests or disks each move is prompt and succeeds, and the row of every key after it is that
of the key before it, moved (`Row.move`): `Cluster.Shows.perform`.
-/

namespace ReplicaRing

open Timed

/-! ## Moves -/

/-- What happens to a cluster from outside. -/
inductive Cluster.Move
  /-- The clock is set. -/
  | clock (now : Time)
  /-- A new node joins at `p`. -/
  | join (p : Point)
  /-- The node at `p` fails. -/
  | fail (p : Point)
  /-- A client that is attached to `via` puts, deletes or reads a key. -/
  | put (via : Point) (key : String) (value : Bytes)
  | delete (via : Point) (key : String)
  | get (via : Point) (key : String)
deriving Repr

/-- What comes of a move. -/
inductive Cluster.Answer
  | set
  /-- What became of each notification. -/
  | handled (results : List (Option (Except ReplicationError Reply)))
  | reply (reply : Except PeerError Reply)

namespace Cluster.Move

/-- The move is made. -/
def perform : Move → Timed Cluster Answer
  | clock now => Timed.act fun c => (.set, { c with now })
  | join p => do return .handled (← Cluster.join p).2
  | fail p => do return .handled (← Cluster.fail p).2
  | put via key value => do return .reply (← request via (.putObject key value))
  | delete via key => do return .reply (← request via (.delete key))
  | get via key => do return .reply (← request via (.getObject key))

/-- The members after the move. -/
def members (m : Members) : Move → Members
  | join p => m.insert p
  | fail p => m.erase p
  | _ => m

/-- Points join that are no members, members fail that are not the last one, and clients use a
    ring that has members; keys, values and times are within the limits. -/
def Admissible (E : Setting) (m : Members) : Move → Prop
  | clock now => now.toNat ≤ E.latest
  | join p => p ∉ m
  | fail p => p ∈ m ∧ 2 ≤ m.size
  | put _ key value => 1 ≤ m.size ∧ key ∈ E.keys ∧ value.length ≤ E.longest
  | delete _ key | get _ key => 1 ≤ m.size ∧ key ∈ E.keys

instance {E : Setting} {m : Members} [DecidablePred (· ∈ E.keys)] :
    (mv : Move) → Decidable (mv.Admissible E m)
  | clock now => inferInstanceAs (Decidable (now.toNat ≤ E.latest))
  | join p => inferInstanceAs (Decidable (p ∉ m))
  | fail p => inferInstanceAs (Decidable (p ∈ m ∧ 2 ≤ m.size))
  | put _ key value =>
    inferInstanceAs (Decidable (1 ≤ m.size ∧ key ∈ E.keys ∧ value.length ≤ E.longest))
  | delete _ key | get _ key => inferInstanceAs (Decidable (1 ≤ m.size ∧ key ∈ E.keys))

end Cluster.Move

namespace Row

/-- The row of a key after nodes have handled notifications. -/
def reacts (E : Setting) (m : Members) (key : String) (row : Row) (notes : List Notification) :
    Row :=
  notes.foldl (fun row note => row.react E m key (E.copies.toNat + 1) note.1 note.2) row

/-- The row of a key after a copy is brought to the node at `p`. -/
def write (E : Setting) (m : Members) (key : String) (p : Point) (c : Copy) (row : Row) : Row :=
  row.walk E.copies.toNat m (E.point key) (E.copies.toNat + 1) p (some c)

/-- The node that a client attached to `via` finds for a key. -/
def target (E : Setting) (m : Members) (key : String) (via : Point) : Point :=
  (m.owner (E.point key)).getD via

/-- The row of a key after a move. -/
def move (E : Setting) (m : Members) (key : String) (row : Row) : Cluster.Move → Row
  | .clock _ | .get _ _ => row
  | .join p => reacts E (m.insert p) key (Function.update row p none) (m.joinNotifications p)
  | .fail p => reacts E (m.erase p) key (Function.update row p none) (m.failNotifications p)
  | .put via key' value =>
    if key = key' then row.write E m key (target E m key via) ⟨1, value⟩ else row
  | .delete via key' =>
    if key = key' then
      match row (target E m key via) with
      | none => row
      | some c => row.write E m key (target E m key via) ⟨c.rank, []⟩
    else row

/-! A request moves the row of its key only. -/

section Requests

variable {E : Setting} {m : Members} {rows : String → Row} {key : String} {via : Point}

theorem move_put {value : Bytes} :
    (fun k => (rows k).move E m k (.put via key value)) =
      Function.update rows key ((rows key).write E m key (target E m key via) ⟨1, value⟩) := by
  funext k
  rw [move, Function.update_apply]
  split_ifs with hk
  · rw [hk]
  · rfl

theorem move_delete_of_none (hc : rows key (target E m key via) = none) :
    (fun k => (rows k).move E m k (.delete via key)) = rows := by
  funext k
  rw [move]
  split_ifs with hk
  · rw [hk, hc]
  · rfl

theorem move_delete_of_some {c : Copy} (hc : rows key (target E m key via) = some c) :
    (fun k => (rows k).move E m k (.delete via key)) =
      Function.update rows key ((rows key).write E m key (target E m key via) ⟨c.rank, []⟩) := by
  funext k
  rw [move, Function.update_apply]
  split_ifs with hk
  · rw [hk, hc]
  · rfl

end Requests

end Row

/-! ## Clusters -/

/-- The members of the cluster hold the copies of the rows, and nothing disturbs them. -/
structure Cluster.Shows (E : Setting) (b : Nat) (c : Cluster) (rows : String → Row) : Prop where
  space : c.options.space = E.space
  copies : c.options.copies = E.copies
  listening : c.options.listening = false
  chaos : c.chaos = .calm
  now_le : c.now.toNat ≤ E.latest
  peers : c.peers.Shows E b c.members rows

namespace Cluster

variable {E : Setting} {b : Nat} {c : Cluster} {rows : String → Row} {p : Point}

theorem Shows.site_calm (hs : c.Shows E b rows) : c.site.Calm E c.members where
  members := rfl
  now_le := hs.now_le
  weather i p := by
    show c.chaos.fate p = _
    rw [hs.chaos]
    exact if_neg List.not_mem_nil

theorem Shows.hops_eq (hs : c.Shows E b rows) : c.hops = E.copies.toNat + 1 := by
  rw [hops, hs.copies]

/-- Work among the nodes is work of the cluster. -/
theorem prompt_amongPeers {α : Type} {w : Cluster → Timed (Peers Node) α} {a : α}
    {peers' : Peers Node} (h : Prompt (w c) c.peers a peers') :
    Prompt (amongPeers w) c a { c with peers := peers' } := by
  intro now cutoff ho
  rw [amongPeers, h now cutoff ho]

theorem Shows.of_peers {b' : Nat} {rows' : String → Row} {peers' : Peers Node}
    (hs : c.Shows E b rows) (hp : peers'.Shows E b' c.members rows') :
    { c with peers := peers' }.Shows E b' rows' :=
  ⟨hs.space, hs.copies, hs.listening, hs.chaos, hs.now_le, hp⟩

/-! ## Requests -/

/-- A request goes to the owner of its key. -/
theorem Shows.request {b' : Nat} {rows' : String → Row} {r : Request} {key : String} {reply : Reply}
    (hs : c.Shows E b rows) (via : Point)
    (hroute : ∀ client : Client, ∀ view, client.route view r = client.owner view key)
    (h : ∃ peers', Prompt (Peers.deliver c.site (E.copies.toNat + 1)
        (Row.target E c.members key via) r) c.peers (.ok reply) peers' ∧
      peers'.Shows E b' c.members rows') :
    ∃ c', Prompt (request via r) c (.ok reply) c' ∧ c'.members = c.members ∧
      c'.Shows E b' rows' := by
  obtain ⟨peers', hd, hp⟩ := h
  refine ⟨{ c with peers := peers' }, ?_, rfl, hs.of_peers hp⟩
  have hroute' : c.client.route (c.members.view via) r = Row.target E c.members key via := by
    rw [hroute]
    show (c.members.owner (c.options.space.key key).point).getD via = _
    rw [hs.space]
    rfl
  have hcall : Prompt (c.client.call (c.members.view via) transport r) c (.ok reply)
      { c with peers := peers' } := by
    rw [Client.call, Client.ask, hroute']
    refine Prompt.bind (Prompt.within (prompt_amongPeers ?_) _) (prompt_pure _ _)
    rw [hs.hops_eq]
    exact hd
  exact fun now cutoff ho => hcall now cutoff ho

/-! ## Notifications -/

/-- A member handles a notification. -/
theorem Shows.deliver (hs : c.Shows E b rows) {note : Notification} (hp : note.1 ∈ c.members)
    (htells : Peers.Tells c.members note.1 note.2)
    (hbudget : b + (E.copies.toNat + 1) ≤ E.budget) :
    ∃ c', Prompt (deliver note) c (some (.ok .done)) c' ∧ c'.members = c.members ∧
      c'.Shows E (b + (E.copies.toNat + 1)) fun key =>
        (rows key).react E c.members key (E.copies.toNat + 1) note.1 note.2 := by
  obtain ⟨node, hfind, -⟩ := hs.peers.member note.1 hp
  obtain ⟨peers', hact, hp'⟩ := Peers.act_react hs.site_calm hs.peers hp le_rfl hbudget htells
  refine ⟨{ c with peers := peers' }, prompt_amongPeers ?_, rfl, hs.of_peers hp'⟩
  rw [hfind, if_neg (by simp), hs.hops_eq]
  exact hact.bind (prompt_pure _ _)

/-- Members handle notifications one after the other. -/
theorem Shows.deliverAll {notes : List Notification} (hs : c.Shows E b rows)
    (hnotes : ∀ note ∈ notes, note.1 ∈ c.members ∧ Peers.Tells c.members note.1 note.2)
    (hbudget : b + notes.length * (E.copies.toNat + 1) ≤ E.budget) :
    ∃ c', Prompt (deliverAll notes) c (notes.map fun _ => some (.ok .done)) c' ∧
      c'.members = c.members ∧ c'.Shows E (b + notes.length * (E.copies.toNat + 1)) fun key =>
        (rows key).reacts E c.members key notes := by
  induction notes generalizing c b rows with
  | nil => exact ⟨c, prompt_pure _ _, rfl, by simpa [Row.reacts] using hs⟩
  | cons note notes ih =>
    rw [List.length_cons, Nat.succ_mul] at hbudget
    have hnote := hnotes note List.mem_cons_self
    obtain ⟨c₁, h₁, hm₁, hs₁⟩ := hs.deliver hnote.1 hnote.2 (by omega)
    obtain ⟨c₂, h₂, hm₂, hs₂⟩ := ih hs₁
      (fun note' h => hm₁.symm ▸ hnotes note' (List.mem_cons_of_mem _ h)) (by omega)
    refine ⟨c₂, prompt_each_cons h₁ h₂, hm₂.trans hm₁, ?_⟩
    rw [List.length_cons, Nat.succ_mul, Nat.add_comm (notes.length * _), ← Nat.add_assoc]
    rw [hm₁] at hs₂
    exact hs₂

end Cluster

/-! ## What the members are told -/

namespace Members

variable {m : Members} {p : Point}

/-- Those who are told of a new member are members, and so is the neighbour they are told
    of. -/
theorem tells_joinNotifications :
    ∀ note ∈ m.joinNotifications p,
      note.1 ∈ m.insert p ∧ Peers.Tells (m.insert p) note.1 note.2 := by
  intro note hnote
  have hself : p ∈ m.insert p := mem_insert.2 (.inl rfl)
  rw [joinNotifications, List.mem_append, Option.mem_toList, Option.mem_toList] at hnote
  rcases hnote with h | h
  · obtain ⟨s, hs, rfl⟩ := Option.map_eq_some_iff.1 h
    have hne : s ≠ p := by simpa using (Option.filter_eq_some_iff.1 hs).2
    exact ⟨mem_of_successor hs, hself, hne.symm⟩
  · obtain ⟨q, hq, rfl⟩ := Option.map_eq_some_iff.1 h
    exact ⟨mem_of_predecessor hq, hself⟩

/-- Those who are told of a failure are members that are left, and so is the neighbour they
    are told of. -/
theorem tells_failNotifications :
    ∀ note ∈ m.failNotifications p,
      note.1 ∈ m.erase p ∧ Peers.Tells (m.erase p) note.1 note.2 := by
  intro note hnote
  rw [failNotifications, List.mem_append, Option.mem_toList, Option.mem_toList] at hnote
  rcases hnote with h | h
  · obtain ⟨s, hs, rfl⟩ := Option.map_eq_some_iff.1 h
    have hne : s ≠ p := by simpa using (Option.filter_eq_some_iff.1 hs).2
    exact ⟨mem_erase.2 ⟨mem_of_successor hs, hne⟩, trivial⟩
  · obtain ⟨q, hq, rfl⟩ := Option.map_eq_some_iff.1 h
    have hne : q ≠ p := by simpa using (Option.filter_eq_some_iff.1 hq).2
    refine ⟨mem_erase.2 ⟨mem_of_predecessor hq, hne⟩, ?_⟩
    cases hr : (m.erase p).successor q with
    | none => trivial
    | some peer => exact mem_of_successor hr

theorem length_joinNotifications_le (m : Members) (p : Point) :
    (m.joinNotifications p).length ≤ 2 := by
  rw [joinNotifications, List.length_append]
  cases (m.insert p).successor p <;> cases (m.insert p).predecessor p <;> simp

theorem length_failNotifications_le (m : Members) (p : Point) :
    (m.failNotifications p).length ≤ 2 := by
  rw [failNotifications, List.length_append]
  cases m.successor p <;> cases m.predecessor p <;> simp

end Members

/-! ## Topology -/

namespace Peers

variable {E : Setting} {b : Nat} {m : Members} {peers : Peers Node} {rows : String → Row}
  {p : Point} {node : Node} {f : Shelf}

theorem find?_drop (peers : Peers Node) (p q : Point) :
    (peers.drop p).find? q = if q = p then none else peers.find? q :=
  lookup_filter_ne peers.alive p q

theorem find?_register (peers : Peers Node) (p q : Point) (node : Node) :
    (peers.register p node).find? q = if q = p then some node else peers.find? q := by
  rw [find?, register, List.lookup_cons, lookup_filter_ne]
  by_cases hq : q = p
  · rw [beq_iff_eq.2 hq]
    exact (if_pos hq).symm
  · rw [if_neg hq, if_neg hq, beq_eq_false_iff_ne.2 hq]
    rfl

/-- A new node is listed under a point of its own. -/
theorem Shows.register (hs : peers.Shows E b m rows) (hn : node.Shows E b f) :
    (peers.register p node).Shows E b (m.insert p) fun key =>
      Function.update (rows key) p (f key) where
  listed q hq := by
    show q ∈ p :: peers.listed.filter fun q => q ≠ p
    by_cases hqp : q = p
    · exact hqp ▸ List.mem_cons_self
    · have hqm := (Members.mem_insert.1 hq).resolve_left hqp
      exact List.mem_cons_of_mem _ (List.mem_filter.2 ⟨hs.listed q hqm, by simpa using hqp⟩)
  member q hq := by
    rw [find?_register]
    by_cases hqp : q = p
    · subst hqp
      rw [if_pos rfl]
      exact ⟨node, rfl, by simpa only [Function.update_self] using hn⟩
    · have hqm := (Members.mem_insert.1 hq).resolve_left hqp
      obtain ⟨node', hf, hn'⟩ := hs.member q hqm
      rw [if_neg hqp]
      exact ⟨node', hf, by simpa only [Function.update_of_ne hqp] using hn'⟩
  other q hq := by
    rw [Members.mem_insert, not_or] at hq
    rw [find?_register, if_neg hq.1]
    exact hs.other q hq.2
  rows_other q hq key := by
    rw [Members.mem_insert, not_or] at hq
    rw [Function.update_of_ne hq.1]
    exact hs.rows_other q hq.2 key

/-- A node is gone, and so are its copies. -/
theorem Shows.drop (hs : peers.Shows E b m rows) :
    ((peers.deregister p).drop p).Shows E b (m.erase p) fun key =>
      Function.update (rows key) p none where
  listed q hq := by
    obtain ⟨hqm, hqp⟩ := Members.mem_erase.1 hq
    exact List.mem_filter.2 ⟨hs.listed q hqm, by simpa using hqp⟩
  member q hq := by
    obtain ⟨hqm, hqp⟩ := Members.mem_erase.1 hq
    obtain ⟨node', hf, hn'⟩ := hs.member q hqm
    rw [find?_drop, if_neg hqp]
    exact ⟨node', hf, by simpa only [Function.update_of_ne hqp] using hn'⟩
  other q hq := by
    rw [find?_drop]
    by_cases hqp : q = p
    · rw [if_pos hqp]
    · rw [if_neg hqp]
      exact hs.other q fun h => hq (Members.mem_erase.2 ⟨h, hqp⟩)
  rows_other q hq key := by
    by_cases hqp : q = p
    · rw [hqp, Function.update_self]
    · rw [Function.update_of_ne hqp]
      exact hs.rows_other q (fun h => hq (Members.mem_erase.2 ⟨h, hqp⟩)) key

end Peers

namespace Cluster

variable {E : Setting} {b : Nat} {c : Cluster} {rows : String → Row} {p : Point}

/-- A new node has no copies. -/
theorem exists_newStore (E : Setting) (options : ClusterOptions) (k : Nat) :
    ∃ s, newStore options k = .ok s ∧ s.Shows E (fun _ => 0) fun _ => none :=
  Store.exists_openAt E _ _

theorem Shows.addNode (hs : c.Shows E b rows) (hp : p ∉ c.members) :
    (c.addNode p).members = c.members ∧ (c.addNode p).options = c.options ∧
      (c.addNode p).chaos = c.chaos ∧ (c.addNode p).now = c.now ∧
      (c.addNode p).peers.Shows E b (c.members.insert p) fun key =>
        Function.update (rows key) p none := by
  -- Nobody is there who would have to leave first.
  have hdrop : c.drop p = c := by
    rw [Cluster.drop, hs.peers.other p hp]
  obtain ⟨s, hnew, hstore⟩ := exists_newStore E c.options (c.joins + 1)
  have hnode : Node.Shows E b ⟨c.options.space, c.options.copies, c.options.rpcTimeout, s⟩
      fun _ => none :=
    ⟨hs.space, hs.copies, hstore.mono fun _ => Nat.zero_le b⟩
  have hadd : c.addNode p = { c with
      joins := c.joins + 1
      peers := c.peers.register p ⟨c.options.space, c.options.copies, c.options.rpcTimeout, s⟩ } := by
    rw [Cluster.addNode, hdrop]
    simp only [hnew, hs.listening, Bool.false_eq_true, if_false]
  rw [hadd]
  exact ⟨rfl, rfl, rfl, rfl, hs.peers.register hnode⟩

/-- A new member has no copies. -/
theorem Shows.enroll (hs : c.Shows E b rows) (hp : p ∉ c.members) :
    (c.enroll p).1 = c.members.joinNotifications p ∧
      (c.enroll p).2.members = c.members.insert p ∧
      (c.enroll p).2.Shows E b fun key => Function.update (rows key) p none := by
  obtain ⟨hmembers, hoptions, hchaos, hnow, hpeers⟩ := hs.addNode hp
  obtain ⟨hnotes, hm⟩ := Subscriptions.join_of_not_mem (s := (c.addNode p).ring)
    (p := p) (by show p ∉ (c.addNode p).members; rwa [hmembers])
  have hmembers' : (c.addNode p).ring.members = c.members := hmembers
  rw [hmembers'] at hnotes hm
  exact ⟨hnotes, hm, hoptions ▸ hs.space, hoptions ▸ hs.copies, hoptions ▸ hs.listening,
    hchaos ▸ hs.chaos, hnow ▸ hs.now_le, by
      show Peers.Shows E b ((c.addNode p).ring.join p).2.members _ _
      rwa [hm]⟩

/-- The copies of a member that crashes are gone. -/
theorem Shows.release (hs : c.Shows E b rows) (hp : p ∈ c.members) :
    ((c.crash p).release p).1 = c.members.failNotifications p ∧
      ((c.crash p).release p).2.members = c.members.erase p ∧
      ((c.crash p).release p).2.Shows E b fun key => Function.update (rows key) p none := by
  obtain ⟨node, hfind, -⟩ := hs.peers.member p hp
  obtain ⟨hnotes, hm⟩ := Subscriptions.fail_of_mem (s := c.ring) (p := p) hp
  have hcrash : c.crash p = { c with
      peers := (c.peers.deregister p).drop p
      gone := c.gone ++ [node.store] } := by
    have hfind' : (c.peers.deregister p).find? p = some node := hfind
    rw [crash, Cluster.drop]
    simp only [hfind']
  rw [hcrash]
  exact ⟨hnotes, hm, hs.space, hs.copies, hs.listening, hs.chaos, hs.now_le, by
    show Peers.Shows E b (c.ring.fail p).2.members _ _
    rw [hm]
    exact hs.peers.drop⟩

/-- The members handle all that they are told of a change. -/
theorem Shows.settle {m : Members} {rows₁ : String → Row} {notes : List Notification}
    (hs : c.Shows E b rows₁) (hm : c.members = m) (hlength : notes.length ≤ 2)
    (hnotes : ∀ note ∈ notes, note.1 ∈ m ∧ Peers.Tells m note.1 note.2)
    (hbudget : b + 2 * (E.copies.toNat + 1) ≤ E.budget) :
    ∃ c', Prompt (Cluster.deliverAll notes) c (notes.map fun _ => some (.ok .done)) c' ∧
      c'.members = m ∧ c'.Shows E (b + 2 * (E.copies.toNat + 1)) fun key =>
        (rows₁ key).reacts E m key notes := by
  have hlen : notes.length * (E.copies.toNat + 1) ≤ 2 * (E.copies.toNat + 1) :=
    Nat.mul_le_mul_right _ hlength
  subst hm
  obtain ⟨c', h, hm', hs'⟩ := hs.deliverAll hnotes (by omega)
  exact ⟨c', h, hm', hs'.space, hs'.copies, hs'.listening, hs'.chaos, hs'.now_le,
    hs'.peers.mono (by omega)⟩

theorem Shows.announce_eq (hs : c.Shows E b rows) (notes : List Notification) (now : Nat)
    (cutoff : Option Nat) :
    Cluster.announce notes now cutoff c = Cluster.deliverAll notes now cutoff c := by
  rw [Cluster.announce, hs.listening, if_neg Bool.false_ne_true]

/-- A new node joins the ring. -/
theorem Shows.join (hs : c.Shows E b rows) (hp : p ∉ c.members)
    (hbudget : b + 2 * (E.copies.toNat + 1) ≤ E.budget) :
    ∃ c', Prompt (join p) c (c.members.joinNotifications p,
        (c.members.joinNotifications p).map fun _ => some (.ok .done)) c' ∧
      c'.members = c.members.insert p ∧
      c'.Shows E (b + 2 * (E.copies.toNat + 1)) fun key =>
        (rows key).move E c.members key (.join p) := by
  obtain ⟨hnotes, hm, hs₁⟩ := hs.enroll hp
  obtain ⟨c', h, hm', hs'⟩ := hs₁.settle hm (Members.length_joinNotifications_le _ _)
    Members.tells_joinNotifications hbudget
  refine ⟨c', (prompt_act _ _).bind ?_, hm', hs'⟩
  rw [hnotes]
  refine Prompt.bind (fun now cutoff ho => ?_) (prompt_pure _ _)
  -- Nobody listens by itself, so the notifications are handled one after the other.
  rw [hs₁.announce_eq]
  exact h now cutoff ho

/-- A node fails. -/
theorem Shows.fail (hs : c.Shows E b rows) (hp : p ∈ c.members)
    (hbudget : b + 2 * (E.copies.toNat + 1) ≤ E.budget) :
    ∃ c', Prompt (fail p) c (c.members.failNotifications p,
        (c.members.failNotifications p).map fun _ => some (.ok .done)) c' ∧
      c'.members = c.members.erase p ∧
      c'.Shows E (b + 2 * (E.copies.toNat + 1)) fun key =>
        (rows key).move E c.members key (.fail p) := by
  obtain ⟨hnotes, hm, hs₁⟩ := hs.release hp
  obtain ⟨c', h, hm', hs'⟩ := hs₁.settle hm (Members.length_failNotifications_le _ _)
    Members.tells_failNotifications hbudget
  refine ⟨c', (prompt_act _ _).bind ((prompt_act _ _).bind ?_), hm', hs'⟩
  rw [hnotes]
  refine Prompt.bind (fun now cutoff ho => ?_) (prompt_pure _ _)
  rw [hs₁.announce_eq]
  exact h now cutoff ho

/-! ## All moves -/

/-- The most writes to one key on one node that a move may take. -/
def cost (E : Setting) : Nat := 2 * (E.copies.toNat + 1)

/-- What comes of a move in a cluster that shows the rows. -/
def Move.expected (E : Setting) (m : Members) (rows : String → Row) : Move → Answer
  | .clock _ => .set
  | .join p => .handled ((m.joinNotifications p).map fun _ => some (.ok .done))
  | .fail p => .handled ((m.failNotifications p).map fun _ => some (.ok .done))
  | .put _ _ _ => .reply (.ok .done)
  | .delete via key => .reply (.ok (.flag (rows key (Row.target E m key via)).isSome))
  | .get via key => .reply (.ok (.value ((rows key (Row.target E m key via)).map (·.value))))

theorem Shows.mono {b' : Nat} (hs : c.Shows E b rows) (hb : b ≤ b') : c.Shows E b' rows :=
  ⟨hs.space, hs.copies, hs.listening, hs.chaos, hs.now_le, hs.peers.mono hb⟩

/-- Clients find the owner. -/
theorem head_chain_target {m : Members} (key : String) (via : Point) (hm : 1 ≤ m.size) :
    (m.chain (E.point key)).head? = some (Row.target E m key via) := by
  rw [Row.target, Members.owner_eq_head]
  cases h : (m.chain (E.point key)).head? with
  | none =>
    have := congrArg List.length (List.head?_eq_none_iff.1 h)
    rw [Members.length_chain] at this
    exact absurd hm (by rw [this]; decide)
  | some o => rfl

theorem target_mem {m : Members} (key : String) (via : Point) (hm : 1 ≤ m.size) :
    Row.target E m key via ∈ m :=
  Members.mem_chain.1 (List.mem_of_head? (head_chain_target key via hm))

/-- A put at the owner of the key. -/
theorem Shows.put {key : String} {value : Bytes} (hs : c.Shows E b rows) (via : Point)
    (hsize : 1 ≤ c.members.size) (hkey : key ∈ E.keys) (hl : value.length ≤ E.longest)
    (hbudget : b + (E.copies.toNat + 1) ≤ E.budget) :
    ∃ c', Prompt (Cluster.request via (.putObject key value)) c (.ok .done) c' ∧
      c'.members = c.members ∧ c'.Shows E (b + (E.copies.toNat + 1)) fun k =>
        (rows k).move E c.members k (.put via key value) := by
  rw [Row.move_put]
  exact hs.request via (fun _ _ => rfl)
    (Peers.deliver_putObject hs.site_calm hs.peers (target_mem key via hsize) hkey hl hbudget)

/-- A deletion at the owner of the key, which tells whether it holds the key. -/
theorem Shows.delete {key : String} (hs : c.Shows E b rows) (via : Point)
    (hsize : 1 ≤ c.members.size) (hkey : key ∈ E.keys)
    (hbudget : b + (E.copies.toNat + 1) ≤ E.budget) :
    ∃ c', Prompt (Cluster.request via (.delete key)) c
        (.ok (.flag (rows key (Row.target E c.members key via)).isSome)) c' ∧
      c'.members = c.members ∧ c'.Shows E (b + (E.copies.toNat + 1)) fun k =>
        (rows k).move E c.members k (.delete via key) := by
  have hp := target_mem (E := E) key via hsize
  cases hc : rows key (Row.target E c.members key via) with
  | none =>
    rw [Row.move_delete_of_none hc]
    obtain ⟨c', h, hm, hs'⟩ := hs.request via (fun _ _ => rfl)
      (Peers.deliver_delete_of_none hs.site_calm hs.peers hp hkey hc)
    exact ⟨c', h, hm, hs'.mono (Nat.le_add_right _ _)⟩
  | some copy =>
    rw [Row.move_delete_of_some hc]
    exact hs.request via (fun _ _ => rfl)
      (Peers.deliver_delete_of_some hs.site_calm hs.peers hp hc hbudget)

/-- Every move is made at once, and moves the rows one by one. -/
theorem Shows.perform {mv : Move} (hs : c.Shows E b rows) (hmv : mv.Admissible E c.members)
    (hbudget : b + cost E ≤ E.budget) :
    ∃ c', Prompt mv.perform c (mv.expected E c.members rows) c' ∧
      c'.members = mv.members c.members ∧ c'.Shows E (b + cost E) fun key =>
        (rows key).move E c.members key mv := by
  have hcost : b + (E.copies.toNat + 1) ≤ b + cost E := by
    rw [cost]
    omega
  cases mv with
  | clock now =>
    exact ⟨{ c with now }, fun _ _ _ => rfl, rfl, hs.space, hs.copies, hs.listening, hs.chaos, hmv,
      (hs.mono (Nat.le_add_right _ _)).peers⟩
  | join p =>
    obtain ⟨c', h, hm, hs'⟩ := hs.join hmv hbudget
    exact ⟨c', h.bind (prompt_pure _ _), hm, hs'⟩
  | fail p =>
    obtain ⟨c', h, hm, hs'⟩ := hs.fail hmv.1 hbudget
    exact ⟨c', h.bind (prompt_pure _ _), hm, hs'⟩
  | put via key value =>
    obtain ⟨hsize, hkey, hl⟩ := hmv
    obtain ⟨c', h, hm, hs'⟩ := hs.put via hsize hkey hl (hcost.trans hbudget)
    exact ⟨c', h.bind (prompt_pure _ _), hm, hs'.mono hcost⟩
  | delete via key =>
    obtain ⟨hsize, hkey⟩ := hmv
    obtain ⟨c', h, hm, hs'⟩ := hs.delete via hsize hkey (hcost.trans hbudget)
    exact ⟨c', h.bind (prompt_pure _ _), hm, hs'.mono hcost⟩
  | get via key =>
    obtain ⟨hsize, hkey⟩ := hmv
    obtain ⟨c', h, hm, hs'⟩ := hs.request via (fun _ _ => rfl)
      (Peers.deliver_getObject hs.site_calm hs.peers (target_mem key via hsize)
        hkey)
    exact ⟨c', h.bind (prompt_pure _ _), hm, hs'.mono (Nat.le_add_right _ _)⟩

end Cluster

end ReplicaRing
