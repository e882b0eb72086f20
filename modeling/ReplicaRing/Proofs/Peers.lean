import ReplicaRing.Peers
import ReplicaRing.Proofs.Node
import ReplicaRing.Proofs.Ring.Chain
import ReplicaRing.Proofs.Timed

/-!
# What the nodes of a ring do, key by key

What the nodes hold of one key is a *row* (`Row`), and `Peers.Shows` says that the members of
a ring, and no others, are alive and hold the copies of given rows. If no request is tampered
with, all work among the nodes is prompt, succeeds, and changes the rows one by one:

* a copy is walked along the ring (`Row.walk`), node by node, until its chain is long enough or
  it comes round to an owner that holds a lower one (`Peers.deliver_makeReplicas`);
* a node sends its copies to a new successor (`Row.replicate`), becomes the owner of its second
  copies (`Row.takeOver`) or hands first copies over to a new predecessor (`Row.migrate`).
-/

namespace ReplicaRing

/-- What the nodes hold of one key. -/
abbrev Row := Point → Option Copy

namespace Row

variable (n : Nat) (m : Members) (k : Point)

/-- The row of the key placed at `k` after a copy is brought to `p` and its chain carried on
    from there, over at most `hops` nodes. -/
def walk : (hops : Nat) → Point → Option Copy → Row → Row
  | 0, _, _, row => row
  | _ + 1, _, none, row => row
  | hops + 1, p, some c, row =>
    let (held, onward) := c.arrive n ((m.view p).owns k) (row p)
    let row := Function.update row p (some held)
    match (m.view p).nextHop with
    | none => row
    | some q => walk hops q onward row

/-- The row after a copy is sent to `peer?`, if there is one. -/
def send (hops : Nat) (peer? : Option Point) (c : Option Copy) (row : Row) : Row :=
  match peer? with
  | none => row
  | some q => walk n m k hops q c row

/-- The row after the node at `p` has sent its copy to a new successor. -/
def replicate (hops : Nat) (p peer : Point) (row : Row) : Row :=
  send n m k hops (if peer = p then none else some peer) ((row p).bind (Copy.next n)) row

/-- The row after the node at `p` has taken over from its predecessor. -/
def takeOver (hops : Nat) (p : Point) (row : Row) : Row :=
  send n m k hops (m.view p).nextHop ((row p).filter fun c => c.rank = 2)
    (Function.update row p ((row p).map Copy.promote))

/-- The row after the node at `p` has handed a key, if `given`, over to `current`. -/
def migrate (given : Bool) (p current : Point) (row : Row) : Row :=
  Function.update
    (Function.update row current
      (((row p).filter fun c => c.rank = 1 ∧ given).or (row current)))
    p ((row p).map (Copy.demote given))

/-- The row of a key after the node at `p` has handled an event. -/
def react (E : Setting) (m : Members) (key : String) (hops : Nat) (p : Point) (row : Row) :
    Event → Row
  | .newPredecessor previous current =>
    migrate (Node.given E (previous.getD p) current key) p current row
  | .newSuccessor _ peer | .successorFailed _ (some peer) =>
    replicate E.copies.toNat m (E.point key) hops p peer row
  | .successorFailed _ none => row
  | .predecessorFailed _ _ => takeOver E.copies.toNat m (E.point key) hops p row

variable {n m k}

@[simp] theorem walk_none (hops : Nat) (p : Point) (row : Row) :
    walk n m k hops p none row = row := by
  cases hops <;> rfl

@[simp] theorem send_none (hops : Nat) (peer? : Option Point) (row : Row) :
    send n m k hops peer? none row = row := by
  cases peer? with
  | none => rfl
  | some q => exact walk_none hops q row

/-- A copy is brought to one node, and then to the rest. -/
theorem walk_succ (hops : Nat) (p : Point) (c : Option Copy) (row : Row) :
    walk n m k (hops + 1) p c row =
      send n m k hops (m.view p).nextHop
        (c.bind fun c => (c.arrive n ((m.view p).owns k) (row p)).2)
        (Function.update row p (match c with
          | none => row p
          | some c => some (c.arrive n ((m.view p).owns k) (row p)).1)) := by
  cases c with
  | none => rw [walk_none, Option.bind_none, send_none, Function.update_eq_self]
  | some c => rfl

end Row

theorem Copy.rank_of_arrive {n : Nat} {owned : Bool} {held : Option Copy} {c c' : Copy}
    (h : (c.arrive n owned held).2 = some c') : c'.rank = c.rank + 1 := by
  rw [arrive] at h
  split at h
  · cases h
  · rw [next] at h
    split at h
    · rw [Option.some.injEq] at h
      rw [← h]
    · cases h

/-- The members of the ring, and no others, are alive, and they hold the copies of the rows
    after at most `b` writes to each key on each of them. -/
structure Peers.Shows (E : Setting) (b : Nat) (m : Members) (peers : Peers Node)
    (rows : String → Row) : Prop where
  listed : ∀ p ∈ m, p ∈ peers.listed
  member : ∀ p ∈ m, ∃ node, peers.find? p = some node ∧ node.Shows E b fun key => rows key p
  other : ∀ p, p ∉ m → peers.find? p = none
  rows_other : ∀ p, p ∉ m → ∀ key, rows key p = none

/-- Requests arrive at once, and the clock is within the limits. -/
structure Site.Calm (E : Setting) (m : Members) (site : Site) : Prop where
  members : site.members = m
  now_le : site.now.toNat ≤ E.latest
  weather : ∀ i p, site.weather i p = ⟨some 0, none⟩

namespace Peers

open Timed

variable {E : Setting} {b : Nat} {m : Members} {peers : Peers Node} {rows : String → Row}
  {p : Point} {node : Node} {f : Shelf} {site : Site}

/-! ## Nodes among others -/

theorem Shows.mono {b' : Nat} (hs : peers.Shows E b m rows) (hb : b ≤ b') :
    peers.Shows E b' m rows where
  listed := hs.listed
  member q hq := by
    obtain ⟨node, hf, hn⟩ := hs.member q hq
    exact ⟨node, hf, hn.mono hb⟩
  other := hs.other
  rows_other := hs.rows_other

/-- One node changes, and with it the rows at its place. -/
theorem Shows.update {b' : Nat} (hs : peers.Shows E b m rows) (hp : p ∈ m) (hb : b ≤ b')
    (hn : node.Shows E b' f) :
    (peers.update p node).Shows E b' m fun key => Function.update (rows key) p (f key) where
  listed := hs.listed
  member q hq := by
    rw [find?_update]
    by_cases hqp : q = p
    · subst hqp
      obtain ⟨node', hf, -⟩ := hs.member q hq
      rw [if_pos rfl, hf]
      refine ⟨node, rfl, ?_⟩
      simpa only [Function.update_self] using hn
    · rw [if_neg hqp]
      obtain ⟨node', hf, hn'⟩ := (hs.mono hb).member q hq
      refine ⟨node', hf, ?_⟩
      simpa only [Function.update_of_ne hqp] using hn'
  other q hq := by
    have hqp : q ≠ p := fun h => hq (h ▸ hp)
    rw [find?_update, if_neg hqp]
    exact hs.other q hq
  rows_other q hq key := by
    have hqp : q ≠ p := fun h => hq (h ▸ hp)
    rw [Function.update_of_ne hqp]
    exact hs.rows_other q hq key

/-- Requests are counted, and nothing else changes. -/
theorem Shows.tell (hs : peers.Shows E b m rows) (sent : Nat) (tally : Tally) :
    { peers with sent, tally }.Shows E b m rows :=
  ⟨hs.listed, hs.member, hs.other, hs.rows_other⟩

/-! ## Delivery -/

/-- A request reaches the node it is sent to. -/
theorem deliver_of_act (hsite : site.Calm E m) {hops : Nat} {request : Request} {reply : Reply}
    {peers' : Peers Node} (hlisted : p ∈ peers.listed) (hfind : peers.find? p = some node)
    (hact : Prompt (Node.act (deliver site hops) p fun node =>
        node.start (site.members.view p) site.now request)
      { peers with sent := peers.sent + 1, tally := peers.tally.addCall request.name }
      (.ok reply) peers') :
    Prompt (deliver site (hops + 1) p request) peers (.ok reply) peers' := by
  have hresolve : ({ peers with sent := peers.sent + 1 } : Peers Node).resolve? p = some node :=
    (if_pos hlisted).trans hfind
  refine (prompt_act _ _).bind ?_
  rw [hsite.weather]
  refine (prompt_sleep_zero _).bind ?_
  refine (prompt_act _ _).bind ?_
  simp only [hresolve]
  exact hact.bind (prompt_pure _ _)

/-- A node takes a step that needs no peer. -/
theorem act_done {transport : Transport (Peers Node)} {first : Node → Step × Node}
    {reply : Reply} {node' : Node} (hfind : peers.find? p = some node)
    (hfirst : first node = (.done (.ok reply), node')) :
    Prompt (Node.act transport p first) peers (.ok reply) (peers.update p node') := by
  refine (prompt_act _ _).bind ?_
  simp only [hfind, hfirst]
  exact prompt_pure _ _

/-- A node takes a step that needs a peer, and the peer replies. -/
theorem act_ask {transport : Transport (Peers Node)} {first : Node → Step × Node} {peer : Point}
    {request : Request} {after : After} {node' node₁ node₂ : Node} {peers₁ : Peers Node}
    {reply reply' : Reply} (hfind : peers.find? p = some node)
    (hfirst : first node = (.ask peer request after, node'))
    (hpeer : Prompt (transport peer request) (peers.update p node') (.ok reply) peers₁)
    (hfind₁ : peers₁.find? p = some node₁)
    (hresume : node₁.resume after (.ok reply) = (.ok reply', node₂)) :
    Prompt (Node.act transport p first) peers (.ok reply') (peers₁.update p node₂) := by
  have hfinish : Node.finishAt p (fun node => node.resume after (orTimeout (some (.ok reply))))
      peers₁ = (.ok reply', peers₁.update p node₂) := by
    rw [Node.finishAt, hfind₁]
    simp only [orTimeout, hresume]
  refine (prompt_act _ _).bind ?_
  simp only [hfind, hfirst]
  refine (hpeer.within _).bind ?_
  have h := prompt_act (Node.finishAt p fun node => node.resume after (orTimeout (some (.ok reply))))
    peers₁
  rwa [hfinish] at h

/-! ## Walks -/

/-- Batches are carried on over `hops` nodes. -/
def Carries (E : Setting) (m : Members) (site : Site) (hops : Nat) : Prop :=
  ∀ {b : Nat} {peers : Peers Node} {rows : String → Row} {p : Point} {batch : Batch},
    peers.Shows E b m rows → p ∈ m → batch.Fits E → batch ≠ [] →
    (∀ x ∈ batch, E.copies.toNat < x.1.rank.toNat + hops) → b + hops ≤ E.budget →
    ∃ peers', Prompt (deliver site hops p (.makeReplicas batch)) peers (.ok .done) peers' ∧
      peers'.Shows E (b + hops) m fun key =>
        (rows key).walk E.copies.toNat m (E.point key) hops p (batch.shelf key)

/-- A node takes a step that sends copies on. -/
theorem act_sends (b' : Nat) (first : Node → Step × Node) {hops : Nat} {g : Shelf} {reply : Reply}
    {peer? : Option Point} (hcarry : Carries E m site hops) (hs : peers.Shows E b m rows)
    (hp : p ∈ m)
    (hfirst : ∀ node : Node, (node.Shows E b fun key => rows key p) →
      ∃ step node', first node = (step, node') ∧ node'.Shows E b' f ∧
        Node.Sends E g reply peer? step)
    (hpeer : ∀ q, peer? = some q → q ∈ m)
    (hlong : ∀ key c, g key = some c → E.copies.toNat < c.rank + hops) (hb : b ≤ b')
    (hbudget : b' + hops ≤ E.budget) :
    ∃ peers', Prompt (Node.act (deliver site hops) p first) peers (.ok reply) peers' ∧
      peers'.Shows E (b' + hops) m fun key =>
        Row.send E.copies.toNat m (E.point key) hops peer? (g key)
          (Function.update (rows key) p (f key)) := by
  obtain ⟨node, hfind, hn⟩ := hs.member p hp
  obtain ⟨step, node', heq, hn', hsends⟩ := hfirst node hn
  have hs' := hs.update hp hb hn'
  cases hsends with
  | alone => exact ⟨_, act_done hfind heq, hs'.mono (Nat.le_add_right _ _)⟩
  | nothing _ h =>
    refine ⟨_, act_done hfind heq, ?_⟩
    simpa only [h, Row.send_none] using hs'.mono (Nat.le_add_right _ _)
  | @batch q onward fits shelf ne =>
    obtain ⟨peers₁, hdeliver, hs₁⟩ := hcarry hs' (hpeer q rfl) fits ne
      (fun x hx => hlong x.1.name _ (by rw [← shelf, fits.shelf_of_mem hx])) hbudget
    rw [shelf] at hs₁
    obtain ⟨node₁, hfind₁, hn₁⟩ := hs₁.member p hp
    refine ⟨_, act_ask hfind heq hdeliver hfind₁ rfl, ?_⟩
    have h := hs₁.update hp le_rfl (hn₁.count .replicasForwarded onward.length)
    simp only [Function.update_eq_self] at h
    exact h

theorem mem_of_nextHop {q : Point} (h : (m.view p).nextHop = some q) : q ∈ m :=
  Members.mem_of_successor (Option.filter_eq_some_iff.1 h).1

/-- A batch that is carried on walks along the ring. -/
theorem deliver_makeReplicas (hsite : site.Calm E m) (hops : Nat) : Carries E m site hops := by
  induction hops with
  | zero =>
    intro b peers rows p batch hs hp hbatch hne hlong hbudget
    -- A copy would need a rank above the last one.
    obtain ⟨x, hx⟩ := List.exists_mem_of_ne_nil batch hne
    have hle : x.1.rank.toNat ≤ E.copies.toNat := (hbatch.allows x hx).rank_le
    exact absurd (hlong x hx) (Nat.not_lt.2 hle)
  | succ hops ih =>
    intro b peers rows p batch hs hp hbatch hne hlong hbudget
    obtain ⟨node, hfind, -⟩ := hs.member p hp
    -- Each node raises the ranks by one and takes one hop, so the hops last.
    have hlong' : ∀ key c,
        Shelf.onward E.copies.toNat (Node.owned E (site.members.view p)) (fun key => rows key p)
          batch.shelf key = some c → E.copies.toNat < c.rank + hops := by
      intro key c hc
      rw [Shelf.onward, Option.bind_eq_some_iff] at hc
      obtain ⟨c₀, hc₀, hc⟩ := hc
      rw [Batch.shelf, Option.map_eq_some_iff] at hc₀
      obtain ⟨x, hx, hxc⟩ := hc₀
      have h := hlong x (List.mem_of_find?_eq_some hx)
      have hrank := Copy.rank_of_arrive hc
      rw [← hxc] at hrank
      dsimp only at hrank
      omega
    obtain ⟨peers', hact, hs'⟩ := act_sends (b + 1)
      (fun node => node.start (site.members.view p) site.now (.makeReplicas batch)) ih
      (hs.tell (peers.sent + 1) (peers.tally.addCall (Request.makeReplicas batch).name)) hp
      (fun node hn => hn.makeReplicas (by omega) hsite.now_le hbatch _ .done)
      (fun q hq => mem_of_nextHop (hsite.members ▸ hq)) hlong' (Nat.le_succ b) (by omega)
    refine ⟨peers', deliver_of_act hsite (hs.listed p hp) hfind hact, ?_⟩
    have hadd : b + (hops + 1) = b + 1 + hops := by omega
    rw [hadd]
    convert hs' using 2 with key
    rw [Row.walk_succ, hsite.members]
    rfl

/-! ## Requests -/

/-- A request that makes a chain walks it. -/
theorem deliver_of_makes (hsite : site.Calm E m) (hs : peers.Shows E b m rows) (hp : p ∈ m)
    {key : String} {c : Copy} {request : Request} {reply : Reply} {hops : Nat}
    (hlong : E.copies.toNat ≤ c.rank + hops) (hbudget : b + (hops + 1) ≤ E.budget)
    (hfirst : ∀ node : Node, (node.Shows E b fun key => rows key p) →
      ∃ step node', node.start (site.members.view p) site.now request = (step, node') ∧
        node'.Shows E (b + 1) (Shelf.settled E.copies.toNat (Node.owned E (site.members.view p))
          (fun key => rows key p) (.single key c)) ∧
        Node.Sends E (Shelf.onward E.copies.toNat (Node.owned E (site.members.view p))
          (fun key => rows key p) (.single key c)) reply (site.members.view p).nextHop step) :
    ∃ peers', Prompt (deliver site (hops + 1) p request) peers (.ok reply) peers' ∧
      peers'.Shows E (b + (hops + 1)) m (Function.update rows key
        ((rows key).walk E.copies.toNat m (E.point key) (hops + 1) p (some c))) := by
  obtain ⟨node, hfind, -⟩ := hs.member p hp
  -- The shelf has one key, so its rank is the only one to bound.
  have hlong' : ∀ k c',
      Shelf.onward E.copies.toNat (Node.owned E (site.members.view p)) (fun key => rows key p)
        (.single key c) k = some c' → E.copies.toNat < c'.rank + hops := by
    intro k c' hc'
    rw [Shelf.onward, Option.bind_eq_some_iff] at hc'
    obtain ⟨c₀, hc₀, hc'⟩ := hc'
    have hrank := Copy.rank_of_arrive hc'
    by_cases hk : k = key
    · subst hk
      rw [Shelf.single, Function.update_self, Option.some.injEq] at hc₀
      subst hc₀
      omega
    · rw [Shelf.single, Function.update_of_ne hk] at hc₀
      cases hc₀
  obtain ⟨peers', hact, hs'⟩ := act_sends (b + 1) _ (deliver_makeReplicas hsite hops)
    (hs.tell (peers.sent + 1) (peers.tally.addCall request.name)) hp hfirst
    (fun q hq => mem_of_nextHop (hsite.members ▸ hq)) hlong' (Nat.le_succ b) (by omega)
  refine ⟨peers', deliver_of_act hsite (hs.listed p hp) hfind hact, ?_⟩
  have hadd : b + (hops + 1) = b + 1 + hops := by omega
  rw [hadd]
  convert hs' using 1
  funext k
  have hwalk := Row.walk_succ (n := E.copies.toNat) (m := m) (k := E.point k) hops p
    (Shelf.single key c k) (rows k)
  rw [hsite.members]
  refine Eq.trans ?_ hwalk
  by_cases hk : k = key
  · subst hk
    rw [Function.update_self, Shelf.single, Function.update_self]
  · rw [Function.update_of_ne hk, Shelf.single, Function.update_of_ne hk, Row.walk_none]

/-- A write walks from the node it is sent to. -/
theorem deliver_putObject (hsite : site.Calm E m) (hs : peers.Shows E b m rows) (hp : p ∈ m)
    {key : String} {value : Bytes} (hkey : key ∈ E.keys) (hl : value.length ≤ E.longest)
    (hbudget : b + (E.copies.toNat + 1) ≤ E.budget) :
    ∃ peers', Prompt (deliver site (E.copies.toNat + 1) p (.putObject key value)) peers
        (.ok .done) peers' ∧
      peers'.Shows E (b + (E.copies.toNat + 1)) m (Function.update rows key
        ((rows key).walk E.copies.toNat m (E.point key) (E.copies.toNat + 1) p
          (some ⟨1, value⟩))) :=
  deliver_of_makes hsite hs hp (Nat.le_add_left _ _) hbudget fun _ hn =>
    hn.putObject (by omega) hsite.now_le hkey hl _

/-- A deletion walks from the node it is sent to, if that holds the key. -/
theorem deliver_delete_of_some (hsite : site.Calm E m) (hs : peers.Shows E b m rows) (hp : p ∈ m)
    {key : String} {c : Copy} (hc : rows key p = some c)
    (hbudget : b + (E.copies.toNat + 1) ≤ E.budget) :
    ∃ peers', Prompt (deliver site (E.copies.toNat + 1) p (.delete key)) peers
        (.ok (.flag true)) peers' ∧
      peers'.Shows E (b + (E.copies.toNat + 1)) m (Function.update rows key
        ((rows key).walk E.copies.toNat m (E.point key) (E.copies.toNat + 1) p
          (some ⟨c.rank, []⟩))) :=
  deliver_of_makes hsite hs hp (Nat.le_add_left _ _) hbudget fun _ hn =>
    hn.delete_of_some (by omega) hsite.now_le hc _

/-- A request that a node answers by itself. -/
theorem deliver_of_done (hops : Nat) (hsite : site.Calm E m) (hs : peers.Shows E b m rows)
    (hp : p ∈ m) {b' : Nat} (hb : b ≤ b') {request : Request} {reply : Reply}
    (hfirst : ∀ node : Node, (node.Shows E b fun key => rows key p) →
      ∃ node', node.start (site.members.view p) site.now request = (.done (.ok reply), node') ∧
        node'.Shows E b' f) :
    ∃ peers', Prompt (deliver site (hops + 1) p request) peers (.ok reply) peers' ∧
      peers'.Shows E b' m fun key => Function.update (rows key) p (f key) := by
  have hs₀ := hs.tell (peers.sent + 1) (peers.tally.addCall request.name)
  obtain ⟨node, hfind, hn⟩ := hs₀.member p hp
  obtain ⟨node', heq, hn'⟩ := hfirst node hn
  exact ⟨_, deliver_of_act hsite (hs.listed p hp) hfind (act_done hfind heq),
    hs₀.update hp hb hn'⟩

theorem deliver_delete_of_none (hsite : site.Calm E m) (hs : peers.Shows E b m rows) (hp : p ∈ m)
    {key : String} {hops : Nat} (hkey : key ∈ E.keys) (hnone : rows key p = none) :
    ∃ peers', Prompt (deliver site (hops + 1) p (.delete key)) peers (.ok (.flag false)) peers' ∧
      peers'.Shows E b m rows := by
  obtain ⟨peers', hd, hs'⟩ := deliver_of_done hops hsite hs hp le_rfl fun _ hn =>
    hn.delete_of_none hkey hnone (site.members.view p) site.now
  simp only [Function.update_eq_self] at hs'
  exact ⟨peers', hd, hs'⟩

/-- A read tells what the node holds. -/
theorem deliver_getObject (hsite : site.Calm E m) (hs : peers.Shows E b m rows) (hp : p ∈ m)
    {key : String} {hops : Nat} (hkey : key ∈ E.keys) :
    ∃ peers', Prompt (deliver site (hops + 1) p (.getObject key)) peers
        (.ok (.value ((rows key p).map (·.value)))) peers' ∧
      peers'.Shows E b m rows := by
  obtain ⟨peers', hd, hs'⟩ := deliver_of_done hops hsite hs hp le_rfl fun _ hn =>
    hn.getObject hkey (site.members.view p) site.now
  simp only [Function.update_eq_self] at hs'
  exact ⟨peers', hd, hs'⟩

/-! ## Events -/

/-- The neighbour that an event tells of is another member. -/
def Tells (m : Members) (p : Point) : Event → Prop
  | .newPredecessor _ current => current ∈ m ∧ current ≠ p
  | .newSuccessor _ peer | .successorFailed _ (some peer) => peer ∈ m
  | .successorFailed _ none | .predecessorFailed _ _ => True

/-- First copies are handed over to a new predecessor. -/
theorem act_migrate (hops : Nat) (hsite : site.Calm E m) (hs : peers.Shows E b m rows)
    (hp : p ∈ m) (hb : b < E.budget) (previous : Option Point) {current : Point}
    (hcurrent : current ∈ m) (hne : current ≠ p) :
    ∃ peers', Prompt (Node.act (deliver site (hops + 1)) p fun node =>
        node.react (site.members.view p) (.newPredecessor previous current)) peers (.ok .done)
        peers' ∧
      peers'.Shows E (b + 1) m fun key =>
        Row.migrate (Node.given E (previous.getD p) current key) p current (rows key) := by
  obtain ⟨node, hfind, hn⟩ := hs.member p hp
  obtain ⟨step, node', heq, hn', hhands⟩ := (hn.countEvent
    (Event.newPredecessor previous current).kind).migrate (site.members.view p) hne
    (previous.getD p)
  have hs' := hs.update hp le_rfl hn'
  simp only [Function.update_eq_self] at hs'
  cases hhands with
  | nothing h =>
    refine ⟨_, act_done hfind heq, ?_⟩
    convert hs'.mono (Nat.le_succ b) using 2 with key
    have hkey := congrFun h key
    have hdemote : (rows key p).map (Copy.demote (Node.given E (previous.getD p) current key)) =
        rows key p := by
      cases hc : rows key p with
      | none => rfl
      | some c =>
        rw [hc, Option.filter_some, ite_eq_right_iff] at hkey
        rw [Option.map_some, Copy.demote,
          if_neg fun h => Option.some_ne_none c (hkey (decide_eq_true h))]
    rw [Row.migrate, hkey, hdemote, Option.none_or, Function.update_eq_self,
      Function.update_eq_self]
  | batch fits shelf =>
    obtain ⟨peers₁, hput, hs₁⟩ := deliver_of_done hops hsite hs' hcurrent
      (Nat.le_succ b) fun _ hn => hn.putObjects hb hsite.now_le fits (site.members.view current)
    -- The node itself was not touched while its peer stored the batch.
    obtain ⟨node₁, hfind₁, hn₁⟩ := hs₁.member p hp
    simp only [Function.update_of_ne hne.symm] at hn₁
    obtain ⟨node₂, hresume, hn₂⟩ := hn₁.resume_migrated fits shelf .done
    refine ⟨_, act_ask hfind heq hput hfind₁ hresume, ?_⟩
    convert hs₁.update hp le_rfl hn₂ using 2 with key
    rw [Row.migrate, shelf]

/-- A node sends its copies to a new successor. -/
theorem act_replicate (hsite : site.Calm E m) (hs : peers.Shows E b m rows) (hp : p ∈ m)
    {hops : Nat} (hlong : E.copies.toNat ≤ hops) (hbudget : b + (hops + 1) ≤ E.budget) (kind : String)
    {peer : Point} (hpeer : peer ∈ m) :
    ∃ peers', Prompt (Node.act (deliver site (hops + 1)) p fun node =>
        (node.countEvent kind).replicateTo (site.members.view p) peer) peers (.ok .done) peers' ∧
      peers'.Shows E (b + (hops + 1)) m fun key =>
        Row.replicate E.copies.toNat m (E.point key) (hops + 1) p peer (rows key) := by
  obtain ⟨peers', hact, hs'⟩ := act_sends _ _ (deliver_makeReplicas hsite (hops + 1)) hs hp
    (fun node hn => (hn.countEvent kind).replicateTo (site.members.view p) peer)
    (fun q hq => by
      split at hq
      · cases hq
      · exact Option.some.inj hq ▸ hpeer)
    (fun key c hc => by
      obtain ⟨c₀, -, hc⟩ := Option.bind_eq_some_iff.1 hc
      have := Copy.rank_of_next hc
      omega) le_rfl hbudget
  simp only [Function.update_eq_self] at hs'
  exact ⟨peers', hact, hs'⟩

/-- A node takes over the keys of a failed predecessor. -/
theorem act_takeOver (hsite : site.Calm E m) (hs : peers.Shows E b m rows) (hp : p ∈ m) {hops : Nat}
    (hlong : E.copies.toNat ≤ hops) (hbudget : b + (hops + 1) ≤ E.budget) (kind : String) :
    ∃ peers', Prompt (Node.act (deliver site (hops + 1)) p fun node =>
        (node.countEvent kind).takeOver (site.members.view p)) peers (.ok .done) peers' ∧
      peers'.Shows E (b + (hops + 1)) m fun key =>
        Row.takeOver E.copies.toNat m (E.point key) (hops + 1) p (rows key) := by
  obtain ⟨peers', hact, hs'⟩ := act_sends _ _ (deliver_makeReplicas hsite (hops + 1)) hs hp
    (fun node hn => (hn.countEvent kind).takeOver (site.members.view p))
    (fun q hq => mem_of_nextHop (hsite.members ▸ hq))
    (fun key c hc => by
      have := (Option.filter_eq_some_iff.1 hc).2
      rw [decide_eq_true_eq] at this
      omega) le_rfl hbudget
  rw [hsite.members] at hs'
  exact ⟨peers', hact, hs'⟩

/-- A node handles an event. -/
theorem act_react (hsite : site.Calm E m) (hs : peers.Shows E b m rows) (hp : p ∈ m) {hops : Nat}
    (hlong : E.copies.toNat ≤ hops) (hbudget : b + (hops + 1) ≤ E.budget) {event : Event}
    (htells : Tells m p event) :
    ∃ peers', Prompt (Node.act (deliver site (hops + 1)) p fun node =>
        node.react (site.members.view p) event) peers (.ok .done) peers' ∧
      peers'.Shows E (b + (hops + 1)) m fun key =>
        Row.react E m key (hops + 1) p (rows key) event := by
  cases event with
  | newPredecessor previous current =>
    obtain ⟨peers', hact, hs'⟩ :=
      act_migrate hops hsite hs hp (by omega) previous htells.1 htells.2
    exact ⟨peers', hact, hs'.mono (by omega)⟩
  | newSuccessor previous peer => exact act_replicate hsite hs hp hlong hbudget _ htells
  | successorFailed failed replacement =>
    cases replacement with
    | some peer => exact act_replicate hsite hs hp hlong hbudget _ htells
    | none =>
      obtain ⟨node, hfind, hn⟩ := hs.member p hp
      have hle : b ≤ b + (hops + 1) := Nat.le_add_right b (hops + 1)
      have hs' := hs.update hp hle
        ((hn.countEvent (Event.successorFailed failed none).kind).mono hle)
      simp only [Function.update_eq_self] at hs'
      exact ⟨_, act_done hfind rfl, hs'⟩
  | predecessorFailed failed replacement => exact act_takeOver hsite hs hp hlong hbudget _

end Peers

end ReplicaRing
