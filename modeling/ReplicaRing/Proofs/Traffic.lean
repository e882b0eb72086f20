import Mathlib.Logic.Relation
import ReplicaRing.Proofs.Ranks

/-!
# What is under way between nodes

Each node goes its own way: in between what it does for one client it is asked by others, told of
changes of the ring, and sent requests by its peers, also by one that waits for its reply. The
`Traffic` of a ring is its nodes, the requests that were sent, and the nodes that wait for replies.
It goes on by a step of one node at a time, whichever that is (`Traffic.Next`).

Nothing is assumed of the ways between the nodes. A request may arrive late, more than once or
never. A reply may be any, and come at any time or never, as if a request was lost or a deadline
passed. At each step a node may take the ring for something else, and be told of any event, whether
it has happened or not.

Main statement: if the nodes have the same number of copies, and start with nothing listed, no rank
is ever out of place (`Traffic.ranks_stay_in_chain`).
-/

namespace ReplicaRing

/-- The request may come from a client. Batches are sent by nodes only. -/
def Request.FromClient : Request → Prop
  | .putObjects _ | .makeReplicas _ => False
  | _ => True

/-- Nodes, and what they have to do with each other. -/
structure Traffic where
  node : Point → Node
  /-- The requests sent so far, each with the peer it is for. -/
  sent : List (Point × Request)
  /-- The nodes that asked a peer so far, each with how it finishes. -/
  waiting : List (Point × After)
  /-- The batches that nodes have been given to store so far. -/
  stored : List Batch
  /-- What came of requests and events so far. -/
  results : List (Except ReplicationError Reply)

namespace Traffic

/-- Nobody has done anything yet. -/
def start (node : Point → Node) : Traffic := ⟨node, [], [], [], []⟩

/-- The node at `p` has taken a step. -/
def advance (t : Traffic) (p : Point) : Step × Node → Traffic
  | (.done result, node) =>
    { t with node := Function.update t.node p node, results := result :: t.results }
  | (.ask peer request after, node) =>
    { t with
      node := Function.update t.node p node
      sent := (peer, request) :: t.sent
      waiting := (p, after) :: t.waiting }

/-- The node at `p` begins to do what it is asked. -/
def serve (t : Traffic) (p : Point) (view : View) (now : Time) (request : Request) : Traffic :=
  let t' := t.advance p ((t.node p).start view now request)
  { t' with stored := ((t.node p).batchOf request).toList ++ t'.stored }

/-- The node at `p` finishes. -/
def conclude (t : Traffic) (p : Point) (r : Except ReplicationError Reply × Node) : Traffic :=
  { t with node := Function.update t.node p r.2, results := r.1 :: t.results }

/-- What may happen next. -/
inductive Next (t : Traffic) : Traffic → Prop
  /-- A client asks the node at `p`. -/
  | asked (p : Point) (view : View) (now : Time) {request : Request} (h : request.FromClient) :
    Next t (t.serve p view now request)
  /-- The node at `p` is told of an event. -/
  | told (p : Point) (view : View) (event : Event) :
    Next t (t.advance p ((t.node p).react view event))
  /-- A request arrives at the peer it was sent to. -/
  | arrived {p : Point} {request : Request} (h : (p, request) ∈ t.sent) (view : View)
    (now : Time) : Next t (t.serve p view now request)
  /-- The node at `p` gets a reply, or none in time. -/
  | replied {p : Point} {after : After} (h : (p, after) ∈ t.waiting)
    (reply : Except PeerError Reply) : Next t (t.conclude p ((t.node p).resume after reply))

/-- What may come of a start. -/
abbrev Reaches : Traffic → Traffic → Prop := Relation.ReflTransGen Next

/-- All ranks are ranks of the chain, and no fault was found with any. -/
structure InChain (n : Rank) (t : Traffic) : Prop where
  node : ∀ p, (t.node p).InChain n
  sent : ∀ x ∈ t.sent, x.2.InChain n
  stored : ∀ batch ∈ t.stored, batch.InChain n
  results : ∀ result ∈ t.results, Faultless result

variable {n : Rank} {t t' : Traffic} {p : Point} {view : View} {now : Time} {request : Request}

theorem Request.InChain.of_fromClient (h : request.FromClient) : request.InChain n := by
  cases request <;> first | exact trivial | exact h.elim

namespace InChain

theorem update (ht : t.InChain n) {node : Node} (hnode : node.InChain n) (p : Point) :
    ∀ q, (Function.update t.node p node q).InChain n :=
  (Function.forall_update_iff t.node fun _ node => node.InChain n).2 ⟨hnode, fun q _ => ht.node q⟩

theorem advance (ht : t.InChain n) {s : Step × Node} (hs : Node.Orderly n s) (p : Point) :
    (t.advance p s).InChain n := by
  obtain ⟨step, node⟩ := s
  cases step with
  | done result =>
    exact ⟨ht.update hs.node p, ht.sent, ht.stored, List.forall_mem_cons.2 ⟨hs.step, ht.results⟩⟩
  | ask peer request after =>
    exact ⟨ht.update hs.node p, List.forall_mem_cons.2 ⟨hs.step, ht.sent⟩, ht.stored, ht.results⟩

theorem serve (ht : t.InChain n) (hone : 1 ≤ n.toNat) (hr : request.InChain n) (p : Point)
    (view : View) (now : Time) : (t.serve p view now request).InChain n := by
  have ht' := ht.advance ((ht.node p).start hone hr view now) p
  refine ⟨ht'.node, ht'.sent, fun batch hb => ?_, ht'.results⟩
  rcases List.mem_append.1 hb with hb | hb
  · exact (ht.node p).batchOf hone hr (Option.mem_toList.1 hb)
  · exact ht'.stored batch hb

/-- One step, whosever it is. -/
theorem next (ht : t.InChain n) (hone : 1 ≤ n.toNat) (h : t.Next t') : t'.InChain n := by
  cases h with
  | asked p view now hr => exact ht.serve hone (Request.InChain.of_fromClient hr) p view now
  | told p view event => exact ht.advance ((ht.node p).react hone view event) p
  | arrived hsent view now => exact ht.serve hone (ht.sent _ hsent) _ view now
  | @replied p after _ reply =>
    -- A node waits for a reply, but is not held up: it may have changed since.
    obtain ⟨hresult, hnode⟩ := (ht.node p).resume after reply
    exact ⟨ht.update hnode p, ht.sent, ht.stored, List.forall_mem_cons.2 ⟨hresult, ht.results⟩⟩

theorem reaches (ht : t.InChain n) (hone : 1 ≤ n.toNat) (h : Reaches t t') : t'.InChain n := by
  induction h with
  | refl => exact ht
  | tail _ hstep ih => exact ih.next hone hstep

end InChain

theorem inChain_start {node : Point → Node} (hcopies : ∀ p, (node p).copies = n)
    (hempty : ∀ p, (node p).store.keySet = []) : (start node).InChain n where
  node p := ⟨hcopies p, fun _ hr => absurd (hempty p ▸ hr) List.not_mem_nil⟩
  sent _ hx := absurd hx List.not_mem_nil
  stored _ hb := absurd hb List.not_mem_nil
  results _ hr := absurd hr List.not_mem_nil

/-- Nodes that share the number `n` of copies and start with nothing listed only ever list, send
    and are given to store ranks from `1` to `n`. So none of them ever finds fault with a rank, and
    a rank that goes up by one does not go round to zero, neither one that is carried on nor one
    that is sent to a new successor. -/
theorem ranks_stay_in_chain {node : Point → Node} (hone : 1 ≤ n.toNat)
    (hcopies : ∀ p, (node p).copies = n) (hempty : ∀ p, (node p).store.keySet = [])
    (h : Reaches (start node) t) :
    (∀ p, ∀ r ∈ (t.node p).store.keySet, 1 ≤ r.rank.toNat ∧ r.rank.toNat ≤ n.toNat) ∧
    (∀ p batch, (p, Request.putObjects batch) ∈ t.sent ∨ (p, Request.makeReplicas batch) ∈ t.sent ∨
        batch ∈ t.stored →
      ∀ x ∈ batch, 1 ≤ x.1.rank.toNat ∧ x.1.rank.toNat ≤ n.toNat) ∧
    (∀ key rank max, .error (.invalidRank key rank max) ∉ t.results) ∧
    (∀ p view now batch onward,
      ((t.node p).storeReplicas view now [] batch).1 = .ok onward → ∀ x ∈ onward, ∃ y ∈ batch,
        x.1.key = y.1.key ∧ x.1.rank.toNat = y.1.rank.toNat + 1) ∧
    ∀ p, ∀ r ∈ (t.node p).store.keySet, r.rank < (t.node p).copies →
      (r.rank + 1).toNat = r.rank.toNat + 1 := by
  have ht := (inChain_start hcopies hempty).reaches hone h
  refine ⟨fun p => (ht.node p).store, fun p batch hb => ?_, fun key rank max hr => ?_,
    fun p view now batch onward hs x hx => ?_, fun p r _ hlt => Rank.toNat_succ_of_lt hlt⟩
  · rcases hb with hb | hb | hb
    · exact ht.sent _ hb
    · exact ht.sent _ hb
    · exact ht.stored _ hb
  · exact ht.results _ hr key rank max rfl
  · rcases Node.mem_storeReplicas hs hx with ⟨y, hy, -⟩ | ⟨y, hy, hlt, hyx⟩
    · exact absurd hy List.not_mem_nil
    · rw [hyx]
      exact ⟨y, hy, rfl, Rank.toNat_succ_of_lt hlt⟩

/-! ## Two nodes -/

/-- The newest request arrives. -/
def deliverLast (t : Traffic) (view : View) (now : Time) : Traffic :=
  match t.sent with
  | (p, request) :: _ => t.serve p view now request
  | [] => t

/-- The node that asked last is told of no reply in time. -/
def expireLast (t : Traffic) : Traffic :=
  match t.waiting with
  | (p, after) :: _ => t.conclude p ((t.node p).resume after (.error .timeout))
  | [] => t

theorem reaches_deliverLast (t : Traffic) (view : View) (now : Time) :
    Reaches t (t.deliverLast view now) := by
  rw [deliverLast]
  split
  · rename_i p request rest hsent
    exact .single (.arrived (hsent ▸ List.mem_cons_self) view now)
  · exact .refl

theorem reaches_expireLast (t : Traffic) : Reaches t t.expireLast := by
  rw [expireLast]
  split
  · rename_i p after rest hwaiting
    exact .single (.replied (hwaiting ▸ List.mem_cons_self) (.error .timeout))
  · exact .refl

def sampleNode : Node where
  space := ⟨32, by decide, by decide⟩
  copies := 2
  rpcTimeout := 500
  store := ⟨⟨.empty, [], 16, .never, .empty 4, .zero⟩, ⟨[Catalog.fileName], []⟩⟩

def sampleFirst : Point := .ofNat 0x1000
def sampleSecond : Point := .ofNat 0x5000

/-- A node that takes all keys for its own, and `neighbour` for its only neighbour. -/
def sampleView (self neighbour : Point) : View :=
  ⟨self, some neighbour, some neighbour, fun _ => self⟩

/-- A key is put at the first node. -/
def samplePut : Traffic :=
  (start fun _ => sampleNode).serve sampleFirst (sampleView sampleFirst sampleSecond) 0
    (.putObject "c" [1])

/-- Its second copy arrives at the second node, but the first one is not told so in time. -/
def sampleMissed : Traffic :=
  (samplePut.deliverLast (sampleView sampleSecond sampleFirst) 0).expireLast

/-- The second node is told that the first has failed, which it has not. It takes the key over, and
    what it sends arrives at the first. -/
def sampleRun : Traffic :=
  (sampleMissed.advance sampleSecond ((sampleMissed.node sampleSecond).react
    (sampleView sampleSecond sampleFirst) (.predecessorFailed sampleFirst none))).deliverLast
      (sampleView sampleFirst sampleSecond) 0

theorem reaches_sampleRun : Reaches (start fun _ => sampleNode) sampleRun := by
  have hclient : (Request.putObject "c" [1]).FromClient := trivial
  have hput : Reaches (start fun _ => sampleNode) samplePut :=
    .single (.asked sampleFirst _ 0 hclient)
  have hmissed : Reaches samplePut sampleMissed :=
    (reaches_deliverLast _ _ _).trans (reaches_expireLast _)
  exact ((hput.trans hmissed).tail (.told sampleSecond _ _)).trans (reaches_deliverLast _ _ _)

theorem ranks_stay_in_chain_sampleRun :
    Reaches (start fun _ => sampleNode) sampleRun ∧
    ((sampleRun.node sampleFirst).store.keySet.map (·.rank) = [1] ∧
      (sampleRun.node sampleSecond).store.keySet.map (·.rank) = [1]) ∧
    sampleRun.sent.length = 2 ∧ sampleRun.stored.length = 3 ∧
    (∀ p, ∀ r ∈ (sampleRun.node p).store.keySet, 1 ≤ r.rank.toNat ∧ r.rank.toNat ≤ 2) ∧
    ∀ key rank max, .error (.invalidRank key rank max) ∉ sampleRun.results := by
  obtain ⟨hlisted, -, hresults, -⟩ := ranks_stay_in_chain (n := 2) (by decide) (fun _ => rfl)
    (fun _ => rfl) reaches_sampleRun
  exact ⟨reaches_sampleRun, by decide +kernel, by decide +kernel, by decide +kernel, hlisted,
    hresults⟩

end Traffic

end ReplicaRing
