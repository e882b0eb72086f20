import ReplicaRing.Proofs.Prefix

/-!
# How far a write gets in time

If every request takes `L` to arrive, a write is at the owner of its key after `L`, at the next
node after `2 * L`, and so on. Nobody answers before the last node has it. So the request of a node
that sends the write on is under way until the whole rest of the chain has been walked, and it is
given one timeout `T` for that, as any request is. Only the client has `T` once for each copy.

It is the owner's request that waits for the most nodes. When its time is up all work behind it is
dropped: the nodes that are up to `T` away from the owner have the write, the nodes behind them have
not (`inTime`), and the owner fails. The client still had time to wait.

Main statement: what the client is told, and when, and which nodes have the write
(`Peers.write_in_time`). It succeeds if and only if the last node of the chain is no more than `T`
away from the owner.
-/

namespace ReplicaRing

open Log

/-- A client's request to write `value` to `key`, at an owner that holds `C`, and the reply if all
    is well. A deletion writes at an owner that lists the key as its first copy, or does not list
    it but has a value. -/
inductive Request.Writes (space : Space) (key : String) (C : Contents) :
    Request → Bytes → Reply → Prop
  | put (value : Bytes) : Writes space key C (.putObject key value) value .done
  | delete (h : C.listed key = some (.primary (space.key key))) :
    Writes space key C (.delete key) [] (.flag true)
  | deleteUnlisted (h : C.listed key = none) {v : Bytes} (hv : (C.history key).latest = some v) :
    Writes space key C (.delete key) [] (.flag true)

/-- The owner starts the chain of the key. -/
theorem Request.Writes.exists_start {K : Set String} {space : Space} {n : Rank} {C : Contents}
    {key : String} {value : Bytes} {request : Request} {reply : Reply} {node : Node}
    (hw : request.Writes space key C value reply) (hn : node.Holds K space n C) (hkey : key ∈ K)
    (view : View) (now : Time) :
    ∃ node₁ : Node, node.start view now request =
        node₁.makeReplicas view now [(.primary (space.key key), value)] reply ∧
      node₁.Holds K space n C ∧ node₁.rpcTimeout = node.rpcTimeout := by
  have hlisted : node.store.replica? key = C.listed key := hn.store.listed key
  cases hw with
  | put => exact ⟨node, by rw [Node.start, hn.space], hn, rfl⟩
  | delete h =>
    refine ⟨node, ?_, hn, rfl⟩
    rw [Node.start, Node.delete, Node.deletable, hlisted, h]
  | deleteUnlisted h hv =>
    obtain ⟨store', hget, hs'⟩ := hn.store.get hkey
    rw [hv] at hget
    refine ⟨{ node with store := store' }, ?_, ⟨hn.space, hn.copies, hs'⟩, rfl⟩
    rw [Node.start, Node.delete, Node.deletable, hlisted, h]
    simp only [hget, Except.map, Option.map, hn.space]

/-! ## How many nodes -/

/-- How many of the first `n` nodes of a chain, `L` apart, are up to `T` away from the first. -/
def inTime (n L T : Nat) : Nat := if L = 0 then n else min n (T / L + 1)

section inTime

variable {n i L T : Nat}

theorem inTime_le : inTime n L T ≤ n := by
  rw [inTime]
  split_ifs
  · exact le_rfl
  · exact Nat.min_le_left _ _

theorem lt_inTime (hi : i < n) : i < inTime n L T ↔ i * L ≤ T := by
  rw [inTime]
  split_ifs with hL
  · simp [hL, hi]
  · rw [lt_min_iff, Nat.lt_succ_iff, Nat.le_div_iff_mul_le (Nat.pos_of_ne_zero hL)]
    exact and_iff_right hi

/-- The next node is the first that is too far away. -/
theorem inTime_eq_succ (hi : i + 1 < n) (hle : i * L ≤ T) (hlt : T < (i + 1) * L) :
    inTime n L T = i + 1 := by
  have hin : i < inTime n L T := (lt_inTime (Nat.lt_of_succ_lt hi)).2 hle
  have hout : ¬i + 1 < inTime n L T := mt (lt_inTime hi).1 (Nat.not_le.2 hlt)
  omega

theorem inTime_eq_self (h : (n - 1) * L ≤ T) : inTime n L T = n := by
  rcases Nat.eq_zero_or_pos n with rfl | hpos
  · exact Nat.le_zero.1 inTime_le
  · have hin : n - 1 < inTime n L T := (lt_inTime (Nat.sub_one_lt_of_lt hpos)).2 h
    have hle : inTime n L T ≤ n := inTime_le
    omega

end inTime

/-- Every request takes `L` to arrive, and none is refused. -/
def Site.Slow (site : Site) (L : Nat) : Prop := ∀ i p, site.weather i p = ⟨some L, none⟩

namespace Peers

open Timed

variable {peers peers' peers₁ : Peers Node} {p q : Point} {node node' node₁ : Node} {site : Site}
  {hops now time c L T : Nat}

/-- All nodes wait for others for `T`. -/
def Paced (T : Nat) (peers : Peers Node) : Prop :=
  ∀ p node, peers.find? p = some node → node.rpcTimeout = T

theorem Paced.update (h : peers.Paced T) (hn : node.rpcTimeout = T) (p : Point) :
    (peers.update p node).Paced T :=
  forall_find?_update h hn p

/-- The node at `p` may have counted something. -/
def Counts (p : Point) (peers peers' : Peers Node) : Prop :=
  peers' = peers ∨ ∃ node metric k, peers.find? p = some node ∧
    peers' = peers.update p (node.count metric k)

theorem Paced.counts (h : peers.Paced T) (hc : Counts p peers peers') : peers'.Paced T := by
  obtain rfl | ⟨node, metric, k, hfind, rfl⟩ := hc
  · exact h
  · have hcount : (node.count metric k).rpcTimeout = T := h p node hfind
    exact h.update hcount p

/-! ## Slow requests -/

/-- What the sender of a request sees of what becomes of it. -/
def seen : Outcome (Except ReplicationError Reply) → Outcome (Except PeerError Reply)
  | .done time (.ok reply) => .done time (.ok reply)
  | .done time (.error e) => .done time (.error (.remote e.message))
  | .dropped => .dropped
  | .broken => .broken

/-- A request that does not arrive before the deadline has only been counted. -/
theorem deliver_of_lt (hslow : site.Slow L) (h : c < now + L) (request : Request) :
    deliver site (hops + 1) p request now (some c) peers =
      (.dropped, { peers with sent := peers.sent + 1 }) := by
  refine (bind_of_done (w := Timed.act _) rfl).trans ?_
  rw [hslow]
  exact bind_of_dropped (sleep_of_lt h _)

/-- A request that does is done when the node is. -/
theorem deliver_of_le (hslow : site.Slow L) (h : now + L ≤ c) {request : Request}
    {outcome : Outcome (Except ReplicationError Reply)} (hlisted : p ∈ peers.listed)
    (hfind : peers.find? p = some node)
    (hact : Node.act (deliver site hops) p (fun node =>
        node.start (site.members.view p) site.now request) (now + L) (some c)
        { peers with sent := peers.sent + 1, tally := peers.tally.addCall request.name } =
      (outcome, peers')) :
    deliver site (hops + 1) p request now (some c) peers = (seen outcome, peers') := by
  have hresolve : ({ peers with sent := peers.sent + 1 } : Peers Node).resolve? p = some node :=
    (if_pos hlisted).trans hfind
  refine (bind_of_done (w := Timed.act _) rfl).trans ?_
  rw [hslow]
  refine (bind_of_done (sleep_of_le h _)).trans ?_
  refine (bind_of_done (w := Timed.act _) rfl).trans ?_
  simp only [hresolve]
  cases outcome with
  | dropped => exact bind_of_dropped hact
  | broken => exact bind_of_broken hact
  | done time r =>
    refine (bind_of_done hact).trans ?_
    cases r <;> rfl

/-! ## Nodes that wait -/

/-- A node whose peer is done in time is done then. -/
theorem act_of_done {transport : Transport (Peers Node)} {first : Node → Step × Node}
    {batch : Batch} {reply answer : Reply} (hfind : peers.find? p = some node)
    (hfirst : first node = (Node.forward q batch reply, node'))
    (hpeer : transport q (.makeReplicas batch) now (some (min (now + node.rpcTimeout) c))
      (peers.update p node') = (.done time (.ok answer), peers₁))
    (hfind₁ : peers₁.find? p = some node₁) :
    ∃ peers', Node.act transport p first now (some c) peers = (.done time (.ok reply), peers') ∧
      Counts p peers₁ peers' := by
  have hfinish : Node.finishAt p (fun node => node.resume (.forwarded batch.length reply)
      (orTimeout (some (.ok answer)))) peers₁ =
      (.ok reply, peers₁.update p (node₁.count .replicasForwarded batch.length)) := by
    rw [Node.finishAt, hfind₁]
    rfl
  refine ⟨_, ?_, .inr ⟨node₁, .replicasForwarded, batch.length, hfind₁, rfl⟩⟩
  refine (bind_of_done (w := Timed.act _) rfl).trans ?_
  simp only [hfind, hfirst]
  refine (bind_of_done (within_of_done hpeer)).trans ?_
  simp only [Timed.act, hfinish]

/-- A node whose peer is not fails when its own deadline is over, or is dropped itself. -/
theorem act_of_dropped {transport : Transport (Peers Node)} {first : Node → Step × Node}
    {batch : Batch} {reply : Reply} (hfind : peers.find? p = some node)
    (hfirst : first node = (Node.forward q batch reply, node'))
    (hpeer : transport q (.makeReplicas batch) now (some (min (now + node.rpcTimeout) c))
      (peers.update p node') = (.dropped, peers₁))
    (hfind₁ : peers₁.find? p = some node₁) :
    ∃ peers', Node.act transport p first now (some c) peers =
        (if now + node.rpcTimeout ≤ c then .done (now + node.rpcTimeout) (.error (.peer .timeout))
          else .dropped, peers') ∧
      Counts p peers₁ peers' := by
  have hwithin := within_of_dropped hpeer
  by_cases hopen : now + node.rpcTimeout ≤ c
  · rw [if_pos hopen] at hwithin ⊢
    have hfinish : Node.finishAt p (fun node => node.resume (.forwarded batch.length reply)
        (orTimeout none)) peers₁ =
        (.error (.peer .timeout), peers₁.update p (node₁.count .replicationFailures 1)) := by
      rw [Node.finishAt, hfind₁]
      rfl
    refine ⟨_, ?_, .inr ⟨node₁, .replicationFailures, 1, hfind₁, rfl⟩⟩
    refine (bind_of_done (w := Timed.act _) rfl).trans ?_
    simp only [hfind, hfirst]
    refine (bind_of_done hwithin).trans ?_
    simp only [Timed.act, hfinish]
  · rw [if_neg hopen] at hwithin ⊢
    refine ⟨peers₁, ?_, .inl rfl⟩
    refine (bind_of_done (w := Timed.act _) rfl).trans ?_
    simp only [hfind, hfirst]
    exact bind_of_dropped hwithin

/-! ## Along the chain -/

variable {K : Set String} {space : Space} {n : Rank} {m : Members} {key : String} {value : Bytes}
  {i j l a : Nat} {S S' : Point → Contents}

/-- It does not matter what a node has counted that has the write. -/
theorem Committed.counts (h : Committed K space n m key value i j peers peers₁ S S')
    (hc : Counts p peers₁ peers') (hil : i ≤ l) (hlj : l < j)
    (hp : (m.chain (space.key key).point)[l]? = some p) :
    Committed K space n m key value i j peers peers' S S' := by
  obtain rfl | ⟨node, metric, k, hfind, rfl⟩ := hc
  · exact h
  · obtain ⟨node', hfind', hn⟩ := h.holds.member p (mem_of_getElem?_chain hp)
    obtain rfl : node = node' := Option.some.inj (hfind.symm.trans hfind')
    exact h.update (hn.count metric k) (.inr ⟨l, hil, hlj, hp⟩)

/-- What the `i`-th node of the chain sends on, if it was reached in time: the owner was at `a`, and
    its deadline is the one that matters. -/
def PassesOn (K : Set String) (space : Space) (n : Rank) (key : String) (value : Bytes)
    (site : Site) (L T a hops : Nat) : Prop :=
  ∀ {i : Nat} {p : Point} {r : Replica} {peers : Peers Node} {S : Point → Contents},
    i + 1 < n.toNat → n.toNat ≤ i + 1 + hops → i * L ≤ T →
    (site.members.chain (space.key key).point)[i + 1]? = some p → r.key = space.key key →
    r.rank.toNat = i + 1 + 1 → peers.Holds K space n site.members S → peers.Paced T →
    Ready K space site.members key value site.now (i + 1) S →
    ∃ peers' S', deliver site hops p (.makeReplicas [(r, value)]) (a + i * L) (some (a + T)) peers =
        (if (n.toNat - 1) * L ≤ T then .done (a + (n.toNat - 1) * L) (.ok .done) else .dropped,
          peers') ∧
      Committed K space n site.members key value (i + 1) (inTime n.toNat L T) peers peers' S S' ∧
      peers'.Paced T

/-- The `i`-th node has the write in time. It is done once the last one is, if that is in time. -/
theorem act_in_time (hK : Distinct K) (hsize : n.toNat ≤ site.members.size)
    (hpass : PassesOn K space n key value site L T a hops) (hi : i < n.toNat)
    (hhops : n.toNat ≤ i + 1 + hops) (htime : i * L ≤ T)
    (hp : (site.members.chain (space.key key).point)[i]? = some p) {r : Replica}
    (hkey : r.key = space.key key) (hrank : r.rank.toNat = i + 1)
    (hh : peers.Holds K space n site.members S) (hpaced : peers.Paced T)
    (hready : Ready K space site.members key value site.now i S)
    (hcutoff : i + 1 < n.toNat → min (a + i * L + T) c = a + T) {reply : Reply}
    {first : Node → Step × Node} (hfirst : ∀ node : Node, node.Holds K space n (S p) →
      ∃ node₁ : Node, first node =
          node₁.makeReplicas (site.members.view p) site.now [(r, value)] reply ∧
        node₁.Holds K space n (S p) ∧ node₁.rpcTimeout = node.rpcTimeout) :
    ∃ peers' S', Node.act (deliver site hops) p first (a + i * L) (some c) peers =
        (if (n.toNat - 1) * L ≤ T then .done (a + (n.toNat - 1) * L) (.ok reply)
          else if a + i * L + T ≤ c then .done (a + i * L + T) (.error (.peer .timeout))
          else .dropped, peers') ∧
      Committed K space n site.members key value i (inTime n.toNat L T) peers peers' S S' ∧
      peers'.Paced T := by
  obtain ⟨node, hfind, hn⟩ := hh.member p (mem_of_getElem?_chain hp)
  obtain ⟨node₁, hstart, hn₁, htimeout⟩ := hfirst node hn
  obtain ⟨node', C, hmake, hn', hgain⟩ := exists_makeReplicas hK hp hkey hrank hi hn₁ hready reply
  obtain rfl : node.rpcTimeout = T := hpaced p node hfind
  have htimeout' := congrArg Node.rpcTimeout
    (node₁.makeReplicas_snd (site.members.view p) site.now [(r, value)] reply)
  rw [hmake] at htimeout'
  have hpaced' : (peers.update p node').Paced node.rpcTimeout :=
    hpaced.update (htimeout'.trans htimeout) p
  have hh' := hh.update (p := p) hn'
  have hin : i < inTime n.toNat L node.rpcTimeout := (lt_inTime hi).2 htime
  rw [← hstart] at hmake
  rcases Nat.lt_or_ge (i + 1) n.toNat with hmore | hlast
  · obtain ⟨q, hq⟩ : ∃ q, (site.members.chain (space.key key).point)[i + 1]? = some q :=
      ⟨_, List.getElem?_eq_getElem (by rw [Members.length_chain]; omega)⟩
    have hnext : onward n site.members (space.key key).point i = some q := by
      rw [onward, if_pos hmore, if_neg (by omega), Nat.mod_eq_of_lt (by omega), hq]
    rw [hnext] at hmake
    obtain ⟨peers₁, S', hpeer, hc, hpaced₁⟩ := hpass (r := { r with rank := r.rank + 1 }) hmore
      hhops htime hq hkey (toNat_rank_succ hrank hmore) hh' hpaced' (hready.next hp hgain)
    have hc' := hc.cons hin hp hgain
    -- A peer that is dropped is dropped at the owner's deadline. Only the owner goes on then.
    obtain ⟨node₂, hfind₂, -⟩ := hc'.holds.member p (mem_of_getElem?_chain hp)
    rw [← hcutoff hmore] at hpeer
    by_cases hfits : (n.toNat - 1) * L ≤ node.rpcTimeout
    · rw [if_pos hfits] at hpeer ⊢
      obtain ⟨peers', hact, hcounts⟩ := act_of_done hfind hmake hpeer hfind₂
      exact ⟨peers', S', hact, hc'.counts hcounts le_rfl hin hp, hpaced₁.counts hcounts⟩
    · rw [if_neg hfits] at hpeer ⊢
      obtain ⟨peers', hact, hcounts⟩ := act_of_dropped hfind hmake hpeer hfind₂
      exact ⟨peers', S', hact, hc'.counts hcounts le_rfl hin hp, hpaced₁.counts hcounts⟩
  · -- The last node has nobody to wait for.
    obtain hn : n.toNat = i + 1 := by omega
    have hnext : onward n site.members (space.key key).point i = none := if_neg (by omega)
    rw [hnext] at hmake
    refine ⟨peers.update p node', Function.update S p C, ?_, ?_, hpaced'⟩
    · rw [hn, Nat.add_sub_cancel, if_pos htime]
      refine (bind_of_done (w := Timed.act _) rfl).trans ?_
      simp only [hfind, hmake]
      rfl
    · rw [inTime_eq_self (by rwa [hn, Nat.add_sub_cancel]), hn]
      exact (Committed.refl hh' (i + 1)).cons (Nat.lt_succ_self i) hp hgain

/-- However far the walk gets, it gets as far as there is time. -/
theorem passesOn (hK : Distinct K) (hsize : n.toNat ≤ site.members.size) (hslow : site.Slow L)
    (hops : Nat) : PassesOn K space n key value site L T a hops := by
  -- The induction is on the hops: each node is one further, under the same deadline.
  induction hops with
  | zero =>
    intro i p r peers S hi hhops
    omega
  | succ hops ih =>
    intro i p r peers S hi hhops htime hp hkey hrank hh hpaced hready
    have hpm := mem_of_getElem?_chain hp
    obtain ⟨node, hfind, -⟩ := hh.member p hpm
    have hsucc : a + i * L + L = a + (i + 1) * L := by rw [Nat.succ_mul, Nat.add_assoc]
    have hle : (i + 1) * L ≤ (n.toNat - 1) * L := Nat.mul_le_mul_right L (by omega)
    -- Either the request is dropped on its way to the next node, or it arrives there in time.
    rcases Nat.lt_or_ge T ((i + 1) * L) with hlate | hnext
    · rw [if_neg (by omega), inTime_eq_succ hi htime hlate]
      exact ⟨_, S, deliver_of_lt hslow (by omega) _, .told hh (i + 1) _ _, hpaced⟩
    · have hfirst : ∀ node : Node, node.Holds K space n (S p) → ∃ node₁ : Node,
          node.start (site.members.view p) site.now (.makeReplicas [(r, value)]) =
            node₁.makeReplicas (site.members.view p) site.now [(r, value)] .done ∧
          node₁.Holds K space n (S p) ∧ node₁.rpcTimeout = node.rpcTimeout :=
        fun node hn => ⟨node, rfl, hn, rfl⟩
      obtain ⟨peers', S', hact, hc, hpaced'⟩ := act_in_time (c := a + T) hK hsize ih hi (by omega)
        hnext hp hkey hrank
        (hh.told (peers.sent + 1) (peers.tally.addCall (Request.makeReplicas []).name)) hpaced
        hready (fun _ => Nat.min_eq_right (by omega)) hfirst
      refine ⟨peers', S', ?_, hc.of_told, hpaced'⟩
      rw [← hsucc] at hact
      rw [deliver_of_le hslow (by omega) (hh.listed p hpm) hfind hact]
      split_ifs with hfits hopen
      · rfl
      · -- Its own deadline would be over later than the owner's.
        have hpos : 0 < L := Nat.pos_of_ne_zero fun h => hfits (by rw [h, Nat.mul_zero]; omega)
        have hless : L ≤ (i + 1) * L := Nat.le_mul_of_pos_left L (Nat.succ_pos i)
        omega
      · rfl

/-! ## Clients -/

/-- A client's write goes to the owner, and may take the timeout once for each copy. -/
theorem call_of_done {C : Contents} {request : Request} {reply : Reply}
    (hw : request.Writes space key C value reply) (hone : 1 ≤ n.toNat) {o : Point}
    (ho : m.owner (space.key key).point = some o) {transport : Transport (Peers Node)}
    {answer : Except PeerError Reply}
    (h : transport o request now (some (now + n.toNat * T)) peers = (.done time answer, peers'))
    (via : Point) :
    (Client.withChain space T n.toNat).call (m.view via) transport request now none peers =
      (.done time answer, peers') := by
  have hroute : (Client.withChain space T n.toNat).route (m.view via) request = o := by
    cases hw <;> simp [Client.route, Client.owner, Client.withChain, Members.view, ho]
  have hdeadline : (Client.withChain space T n.toNat).deadline request = n.toNat * T := by
    cases hw <;> simp [Client.deadline, Client.withChain, Nat.max_eq_left hone, Nat.mul_comm]
  rw [Client.call, Client.ask, hroute, hdeadline]
  exact bind_of_done (within_none_of_done h)

/-- A client's write: the answer, its time, and how far the write got. -/
theorem call_in_time (hK : Distinct K) (hone : 1 ≤ n.toNat) (hsize : n.toNat ≤ site.members.size)
    (hslow : site.Slow L) (hL : L ≤ T) (hhops : n.toNat ≤ hops)
    (hh : peers.Holds K space n site.members S) (hpaced : peers.Paced T)
    (hroom : ∀ p ∈ site.members, (Call.appendNow key value site.now).Admissible K (S p).history)
    {o : Point} (ho : site.members.owner (space.key key).point = some o) {request : Request}
    {reply : Reply} (hw : request.Writes space key (S o) value reply) (via : Point) (t : Nat) :
    ∃ peers' S', (Client.withChain space T n.toNat).call (site.members.view via)
        (deliver site hops) request t none peers =
        (if (n.toNat - 1) * L ≤ T then .done (t + n.toNat * L) (.ok reply)
          else .done (t + L + T) (.error (.remote "peer error: timeout")), peers') ∧
      Committed K space n site.members key value 0 (inTime n.toNat L T) peers peers' S S' := by
  obtain ⟨hops, rfl⟩ : ∃ h, hops = h + 1 := ⟨hops - 1, by omega⟩
  have hbudget : T ≤ n.toNat * T := Nat.le_mul_of_pos_left T hone
  have hlast : (n.toNat - 1) * L + L = n.toNat * L := by
    rw [← Nat.succ_mul, Nat.succ_eq_add_one, Nat.sub_add_cancel hone]
  have hp : (site.members.chain (space.key key).point)[0]? = some o := by
    rw [← List.head?_eq_getElem?, ← Members.owner_eq_head]
    exact ho
  have hom := mem_of_getElem?_chain hp
  obtain ⟨node, hfind, -⟩ := hh.member o hom
  have hready : Ready K space site.members key value site.now 0 S :=
    ⟨fun h => absurd h (Nat.lt_irrefl 0), fun l p _ hp => hroom p (mem_of_getElem?_chain hp)⟩
  -- The owner's deadline is over before the client's, unless the owner is alone.
  have hcutoff : 0 + 1 < n.toNat →
      min (t + L + 0 * L + T) (t + n.toNat * T) = t + L + T := fun hmore => by
    have htwo : 2 * T ≤ n.toNat * T := Nat.mul_le_mul_right T hmore
    omega
  obtain ⟨peers', S', hact, hc, -⟩ := act_in_time hK hsize (passesOn hK hsize hslow hops)
    hone (by omega) (by omega) hp rfl rfl
    (hh.told (peers.sent + 1) (peers.tally.addCall request.name)) hpaced hready hcutoff
    fun node hn => hw.exists_start hn (hroom o hom).1 (site.members.view o) site.now
  refine ⟨peers', S', ?_, hc.of_told⟩
  rw [Nat.zero_mul, Nat.add_zero] at hact
  have harrives : t + L ≤ t + n.toNat * T := Nat.add_le_add_left (hL.trans hbudget) t
  have hdeliver := deliver_of_le hslow harrives (hh.listed o hom) hfind hact
  by_cases hfits : (n.toNat - 1) * L ≤ T
  · rw [if_pos hfits] at hdeliver ⊢
    rw [← hlast, Nat.add_comm _ L, ← Nat.add_assoc]
    exact call_of_done hw hone ho hdeliver via
  · have hmore : 0 + 1 < n.toNat := by
      refine Nat.lt_of_le_of_ne hone fun h => hfits ?_
      rw [← h, Nat.sub_self, Nat.zero_mul]
      exact Nat.zero_le T
    have hopen : t + L + T ≤ t + n.toNat * T := by
      have := hcutoff hmore
      omega
    rw [if_neg hfits, if_pos hopen] at hdeliver
    rw [if_neg hfits]
    exact call_of_done hw hone ho hdeliver via

/-- How far a write gets, and what the client is told. The nodes wait for `T`, the client waits for
    `T` once for each of the `n` copies, and every request takes `L` to arrive, which is within `T`.
    Then the nodes of the chain that are up to `T` away from the owner store the write, and the
    others are left as they are. It succeeds, after `n` requests, if and only if the last node is
    near enough. If it is not, the owner gives up `T` after it had the write, and the client is told
    so. -/
theorem write_in_time (hK : Distinct K) (hone : 1 ≤ n.toNat) (hsize : n.toNat ≤ site.members.size)
    (hslow : site.Slow L) (hL : L ≤ T) (hhops : n.toNat ≤ hops)
    (hh : peers.Holds K space n site.members S) (hpaced : peers.Paced T)
    (hroom : ∀ p ∈ site.members, (Call.appendNow key value site.now).Admissible K (S p).history)
    {o : Point} (ho : site.members.owner (space.key key).point = some o) {request : Request}
    {reply : Reply} (hw : request.Writes space key (S o) value reply) (via : Point) (t : Nat) :
    ∃ peers' S', (Client.withChain space T n.toNat).call (site.members.view via)
        (deliver site hops) request t none peers =
        (if (n.toNat - 1) * L ≤ T then .done (t + n.toNat * L) (.ok reply)
          else .done (t + L + T) (.error (.remote "peer error: timeout")), peers') ∧
      peers'.Holds K space n site.members S' ∧
      (∀ i < n.toNat, ∃ p, site.members.step (space.key key).point i = some p ∧
        (i * L ≤ T → (S p).Gains key (i + 1) value (S' p)) ∧
        (T < i * L → peers'.find? p = peers.find? p ∧ S' p = S p)) ∧
      ∀ p, (∀ i < n.toNat, site.members.step (space.key key).point i ≠ some p) →
        peers'.find? p = peers.find? p ∧ S' p = S p := by
  obtain ⟨peers', S', hcall, hc⟩ :=
    call_in_time hK hone hsize hslow hL hhops hh hpaced hroom ho hw via t
  have hstep : ∀ i < n.toNat, site.members.step (space.key key).point i =
      (site.members.chain (space.key key).point)[i]? := fun i hi => Members.step_eq (by omega)
  -- The owner is reached in any case, so a node that is not reached is as it was.
  have hleft : ∀ p, (∀ i < inTime n.toNat L T,
      (site.members.chain (space.key key).point)[i]? ≠ some p) →
      peers'.find? p = peers.find? p ∧ S' p = S p := fun p hp =>
    ⟨hc.same p (hp 0 ((lt_inTime hone).2 (by omega))) fun l _ => hp l, hc.still p fun l _ => hp l⟩
  refine ⟨peers', S', hcall, hc.holds, fun i hi => ?_, fun p hp => hleft p fun l hl => ?_⟩
  · have hlt : i < (site.members.chain (space.key key).point).length := by
      rw [Members.length_chain]
      omega
    have hp := List.getElem?_eq_getElem hlt
    refine ⟨_, (hstep i hi).trans hp, fun htime => hc.gains i _ (Nat.zero_le i) ?_ hp,
      fun hlate => hleft _ fun l hl heq => ?_⟩
    · exact (lt_inTime hi).2 htime
    · obtain rfl := Members.eq_of_getElem?_chain heq hp
      exact absurd ((lt_inTime hi).1 hl) (Nat.not_le.2 hlate)
  · have hl' := hl.trans_le inTime_le
    rw [← hstep l hl']
    exact hp l hl'

/-! ## Three nodes -/

open Cluster

/-- Three nodes with stores like `s`. -/
def sampleFleet (s : Store) : Peers Node :=
  let node : Node := ⟨sampleSetting.space, 3, 1000, s⟩
  ((Peers.empty.register sampleA node).register sampleB node).register sampleC node

/-- Between them every request takes `L`. -/
def sampleDelay (L : Nat) : Site :=
  ⟨((Members.empty.insert sampleA).insert sampleB).insert sampleC, 0, (Chaos.mk [] L false).weather⟩

theorem slow_sampleDelay (L : Nat) : (sampleDelay L).Slow L := fun _ _ => rfl

theorem Paced.register (h : peers.Paced T) (hn : node.rpcTimeout = T) (p : Point) :
    (peers.register p node).Paced T := by
  intro q node' hq
  rw [find?_register] at hq
  split_ifs at hq
  · obtain rfl := Option.some.inj hq
    exact hn
  · exact h q node' hq

theorem Holds.register {C : Contents} (h : peers.Holds K space n m fun _ => C)
    (hn : node.Holds K space n C) (p : Point) :
    (peers.register p node).Holds K space n (m.insert p) fun _ => C where
  listed q hq := by
    rcases Members.mem_insert.1 hq with rfl | hq
    · exact List.mem_cons_self
    · by_cases hqp : q = p
      · exact hqp ▸ List.mem_cons_self
      · exact List.mem_cons_of_mem _ (List.mem_filter.2 ⟨h.listed q hq, by simpa using hqp⟩)
  member q hq := by
    rw [find?_register]
    by_cases hqp : q = p
    · exact ⟨node, if_pos hqp, hn⟩
    · rw [if_neg hqp]
      exact h.member q ((Members.mem_insert.1 hq).resolve_left hqp)

/-- A store is opened in an empty directory. -/
def sampleStoreOptions : StoreOptions := ⟨["n"], .never, 16, 1024⟩

theorem exists_sampleStore :
    ∃ s C, (Store.openAt .empty sampleStoreOptions .zero).1 = .ok s ∧
      (sampleFleet s).Holds sampleSetting.keys sampleSetting.space 3 (sampleDelay L).members
        (fun _ => C) ∧
      (sampleFleet s).Paced 1000 ∧
      (Call.appendNow "c" sampleNew 0).Admissible sampleSetting.keys C.history := by
  obtain ⟨s, hopen, hs⟩ := Store.exists_openAt sampleSetting sampleStoreOptions .zero
  obtain ⟨C, hC, hm⟩ := hs.holds
  have hn : Node.Holds sampleSetting.keys sampleSetting.space 3
      ⟨sampleSetting.space, 3, 1000, s⟩ C := ⟨rfl, rfl, hC⟩
  have hempty : Peers.empty.Holds sampleSetting.keys sampleSetting.space 3 .empty fun _ => C :=
    ⟨fun _ h => absurd h List.not_mem_nil, fun _ h => absurd h List.not_mem_nil⟩
  have hpaced : Peers.empty.Paced 1000 := fun p node h => by cases h
  exact ⟨s, C, hopen, ((hempty.register hn _).register hn _).register hn _,
    ((hpaced.register rfl _).register rfl _).register rfl _,
    hm.admissible rfl (by decide) (by decide) (by decide)⟩

theorem owner_sampleDelay :
    (sampleDelay L).members.owner (sampleSetting.point "c") = some sampleA := by
  change (((Members.empty.insert sampleA).insert sampleB).insert sampleC).owner
    (sampleSetting.point "c") = some sampleA
  decide +kernel

/-- The last node is as far away as can be. -/
theorem write_in_time_sampleDelay :
    let site := sampleDelay 500
    let E := sampleSetting
    ∃ s C, Distinct E.keys ∧ 1 ≤ (3 : Rank).toNat ∧ (3 : Rank).toNat ≤ site.members.size ∧
      site.Slow 500 ∧ 500 ≤ 1000 ∧ (3 : Rank).toNat ≤ 4 ∧
      (sampleFleet s).Holds E.keys E.space 3 site.members (fun _ => C) ∧
      (sampleFleet s).Paced 1000 ∧
      (∀ p ∈ site.members, (Call.appendNow "c" sampleNew 0).Admissible E.keys C.history) ∧
      site.members.owner (E.point "c") = some sampleA ∧
      (Request.putObject "c" sampleNew).Writes E.space "c" C sampleNew .done ∧
      ∃ peers' S', (Client.withChain E.space 1000 3).call (site.members.view sampleB)
          (deliver site 4) (.putObject "c" sampleNew) 0 none (sampleFleet s) =
          (.done 1500 (.ok .done), peers') ∧
        peers'.Holds E.keys E.space 3 site.members S' ∧
        ∀ i < 3, ∃ p, site.members.step (E.point "c") i = some p ∧
          C.Gains "c" (i + 1) sampleNew (S' p) := by
  intro site E
  obtain ⟨s, C, -, hh, hpaced, hroom⟩ := exists_sampleStore (L := 500)
  have hw : (Request.putObject "c" sampleNew).Writes E.space "c" C sampleNew .done := .put _
  have hhops : (3 : Rank).toNat ≤ 4 := by decide
  obtain ⟨peers', S', hcall, hh', hreached, -⟩ := write_in_time E.distinct (by decide)
    (by decide) (slow_sampleDelay 500) (by decide) hhops hh hpaced (fun _ _ => hroom)
    owner_sampleDelay hw sampleB 0
  rw [if_pos (by decide)] at hcall
  refine ⟨s, C, E.distinct, by decide, by decide, slow_sampleDelay 500, by decide, hhops, hh,
    hpaced, fun _ _ => hroom, owner_sampleDelay, hw, peers', S', hcall, hh', fun i hi => ?_⟩
  obtain ⟨p, hp, hgain, -⟩ := hreached i hi
  exact ⟨p, hp, hgain (by omega)⟩

/-- Every request meets its deadline of 1000, and the client would wait until 3000. But the owner,
    which has the write at 700, gives up at 1700, and the last node is reached at 2100 only. -/
theorem slow_chain_fails :
    let site := sampleDelay 700
    let E := sampleSetting
    ∃ s C, (Store.openAt .empty sampleStoreOptions .zero).1 = .ok s ∧
      (3 : Rank).toNat ≤ site.members.size ∧ site.Slow 700 ∧ 0 < 1000 ∧ 700 ≤ 1000 ∧
      (sampleFleet s).Holds E.keys E.space 3 site.members (fun _ => C) ∧
      (sampleFleet s).Paced 1000 ∧
      (∀ p ∈ site.members, (Call.appendNow "c" sampleNew 0).Admissible E.keys C.history) ∧
      let call := (Client.withChain E.space 1000 3).call (site.members.view sampleB)
        (deliver site 4) (.putObject "c" sampleNew) 0 none (sampleFleet s)
      ∃ peers', call = (.done 1700 (.error (.remote "peer error: timeout")), peers') ∧
        (¬∃ time, call.1 = .done time (.ok .done)) ∧
        site.members.step (E.point "c") 2 = some sampleC ∧
        peers'.find? sampleC = (sampleFleet s).find? sampleC := by
  intro site E
  obtain ⟨s, C, hopen, hh, hpaced, hroom⟩ := exists_sampleStore (L := 700)
  have hw : (Request.putObject "c" sampleNew).Writes E.space "c" C sampleNew .done := .put _
  have hhops : (3 : Rank).toNat ≤ 4 := by decide
  obtain ⟨peers', S', hcall, hc⟩ := call_in_time E.distinct (by decide) (by decide)
    (slow_sampleDelay 700) (by decide) hhops hh hpaced (fun _ _ => hroom) owner_sampleDelay hw
    sampleB 0
  rw [if_neg (by decide)] at hcall
  have hthird : (site.members.chain (E.point "c"))[2]? = some sampleC := by decide +kernel
  have hother : ∀ l < 2, (site.members.chain (E.point "c"))[l]? ≠ some sampleC := fun l hl h =>
    absurd (Members.eq_of_getElem?_chain h hthird) (Nat.ne_of_lt hl)
  refine ⟨s, C, hopen, by decide, slow_sampleDelay 700, by decide, by decide, hh, hpaced,
    fun _ _ => hroom, peers', hcall, ?_, (Members.step_eq (by decide)).trans hthird,
    hc.same sampleC (hother 0 (by decide)) fun l _ => hother l⟩
  rintro ⟨time, h⟩
  have h' := (congrArg Prod.fst hcall).symm.trans h
  cases h'

end Peers

end ReplicaRing
