import ReplicaRing.Node

/-!
# Peers in one process

Nodes that share a process find each other in a directory. A node is *listed* there
under its point; being listed does not keep it alive, and a node that is gone is
unreachable however it is listed.

Requests between nodes may be tampered with (`Chaos`): all requests to a node that is
marked as failed are refused, other requests are delayed and may be refused too.

`Peers.deliver` delivers a request, with all the requests that it leads to: each node
on the way asks at most one peer. A chain is carried on only to higher ranks, so a
request leads to at most as many others, one within the other, as keys have copies;
that bounds the depth of the delivery (`hops`).
-/

namespace ReplicaRing

/-- The services that requests are sent to, by point. -/
structure Peers (S : Type) where
  /-- The services that are alive. -/
  alive : List (Point × S)
  /-- The points under which a service can be found if it is alive. -/
  listed : List Point
  /-- How many requests have been sent. -/
  sent : Nat
  /-- Counts of the requests that were delivered. -/
  tally : Tally

namespace Peers

variable {S : Type}

/-- Nobody there. -/
def empty : Peers S := ⟨[], [], 0, .zero⟩

/-- Lists `service` under `p`, in place of any other. -/
def register (peers : Peers S) (p : Point) (service : S) : Peers S :=
  { peers with
    alive := (p, service) :: peers.alive.filter fun x => x.1 ≠ p
    listed := p :: peers.listed.filter fun q => q ≠ p }

/-- Takes the entry of `p` out of the directory. -/
def deregister (peers : Peers S) (p : Point) : Peers S :=
  { peers with listed := peers.listed.filter fun q => q ≠ p }

/-- The service at `p` is gone. -/
def drop (peers : Peers S) (p : Point) : Peers S :=
  { peers with alive := peers.alive.filter fun x => x.1 ≠ p }

/-- The service at `p`, if it is alive. -/
def find? (peers : Peers S) (p : Point) : Option S := peers.alive.lookup p

/-- The service that requests to `p` reach. -/
def resolve? (peers : Peers S) (p : Point) : Option S :=
  if p ∈ peers.listed then peers.find? p else none

/-- The service at `p` becomes `service`. -/
def update (peers : Peers S) (p : Point) (service : S) : Peers S :=
  { peers with alive := peers.alive.map fun x => if x.1 = p then (p, service) else x }

/-- An update is seen at that point only, and only if a service is alive there. -/
theorem find?_update (peers : Peers S) (p q : Point) (service : S) :
    (peers.update p service).find? q =
      if q = p then (peers.find? p).map fun _ => service else peers.find? q := by
  rw [find?, find?, find?, update]
  induction peers.alive with
  | nil => simp
  | cons x alive ih =>
    obtain ⟨r, s⟩ := x
    by_cases hr : r = p
    · subst hr
      by_cases hq : q = r
      · simp [hq]
      · have hb : (q == r) = false := by simpa using hq
        simpa [List.lookup_cons, hb, hq] using ih
    · by_cases hq : q = p
      · subst hq
        have hb : (q == r) = false := by simpa using Ne.symm hr
        simpa [List.lookup_cons, hb, hr] using ih
      · by_cases h : q = r
        · subst h
          simp [hr]
        · have hb : (q == r) = false := by simpa using h
          simpa [List.lookup_cons, hb, hr, hq] using ih

/-- What holds of all services holds after an update if it holds of the new one. -/
theorem forall_find?_update {peers : Peers S} {P : S → Prop} {service : S}
    (h : ∀ q s, peers.find? q = some s → P s) (hservice : P service) (p : Point) :
    ∀ q s, (peers.update p service).find? q = some s → P s := by
  intro q s hq
  rw [find?_update] at hq
  split at hq
  · obtain ⟨_, _, rfl⟩ := Option.map_eq_some_iff.1 hq
    exact hservice
  · exact h q s hq

/-- Hands a request over to the service at `target`, which `serve`s it. The service's
    error reaches the sender as text. -/
def handOver (serve : S → Request → Timed (Peers S) (Except ReplicationError Reply)) :
    Transport (Peers S) := fun target request => do
  let service ← Timed.act fun peers =>
    (peers.resolve? target, { peers with tally := peers.tally.addCall request.name })
  match service with
  | none => return .error (.unreachable target)
  | some service =>
    match ← serve service request with
    | .ok reply => return .ok reply
    | .error e => return .error (.remote e.message)

end Peers

/-- How requests are tampered with. -/
structure Chaos where
  /-- Nodes marked as failed. -/
  failed : List Point
  /-- How long every request is delayed, in milliseconds. -/
  latency : Nat
  /-- Whether every request is refused. -/
  refusing : Bool
deriving Repr

namespace Chaos

/-- Nothing is tampered with. -/
def calm : Chaos := ⟨[], 0, false⟩

/-- Marks `p` as failed. -/
def fail (chaos : Chaos) (p : Point) : Chaos := { chaos with failed := p :: chaos.failed }

/-- Takes the mark off `p`. -/
def recover (chaos : Chaos) (p : Point) : Chaos :=
  { chaos with failed := chaos.failed.filter fun q => q ≠ p }

/-- What happens to a request to `p`. -/
def fate (chaos : Chaos) (p : Point) : Fate :=
  if p ∈ chaos.failed then ⟨some 0, some (.rpcFailed "chaos: node marked as failed")⟩
  else ⟨some chaos.latency,
    if chaos.refusing then some (.rpcFailed "chaos: random failure") else none⟩

end Chaos

/-- What happens to requests: to each, by its number and its target. -/
abbrev Weather := Nat → Point → Fate

/-- The weather that chaos makes. -/
def Chaos.weather (chaos : Chaos) : Weather := fun _ p => chaos.fate p

/-- What stays the same while a request is delivered. -/
structure Site where
  members : Members
  /-- The reading of the clock. -/
  now : Time
  weather : Weather

/-- A request sent through the weather, and handed over if it gets there. -/
def Peers.send {S : Type} (weather : Weather)
    (serve : S → Request → Timed (Peers S) (Except ReplicationError Reply)) :
    Transport (Peers S) := fun target request => do
  let fate ← Timed.act fun peers =>
    (weather peers.sent target, { peers with sent := peers.sent + 1 })
  fate.deliver (Peers.handOver serve target request)

namespace Node

/-- Lets the node at `p` finish. -/
def finishAt (p : Point) : Finish (Peers Node) := fun f peers =>
  match peers.find? p with
  | none => (.error (.peer (.unreachable p)), peers)
  | some node =>
    let (r, node) := f node
    (r, peers.update p node)

/-- Takes the first step of the node at `p` and then the rest. -/
def act (transport : Transport (Peers Node)) (p : Point) (first : Node → Step × Node) :
    Timed (Peers Node) (Except ReplicationError Reply) := do
  let found ← Timed.act fun peers =>
    match peers.find? p with
    | none => (none, peers)
    | some node =>
      let (step, node') := first node
      (some (step, node.rpcTimeout), peers.update p node')
  match found with
  | none => return .error (.peer (.unreachable p))
  | some (step, rpcTimeout) => complete transport (finishAt p) rpcTimeout step

end Node

/-- Delivers requests to nodes, each of which may send at most one more; `hops` is the
    greatest number of deliveries within each other. -/
def Peers.deliver (site : Site) : (hops : Nat) → Transport (Peers Node)
  | 0 => fun target _ => return .error (.unreachable target)
  | hops + 1 => fun target request =>
    Peers.send site.weather
      (fun _ request => Node.act (Peers.deliver site hops) target fun node =>
        node.start (site.members.view target) site.now request)
      target request

end ReplicaRing
