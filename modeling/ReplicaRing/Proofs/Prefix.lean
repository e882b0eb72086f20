import ReplicaRing.Proofs.Arrivals
import ReplicaRing.Proofs.Run

/-!
# How far a write gets

A write walks along the chain of its key, from node to node, and any of the requests that carry
it on may be lost, refused or given up at a deadline. Nothing that was stored is taken back
then. So of the nodes that a write was meant for the first few have it, each under its own rank,
and the others know nothing of it (`Peers.Committed`); if nobody was told of a failure, all of
them have it.

This holds on every ring, whatever its nodes held before, and whatever becomes of the requests
(`Peers.put_commits_prefix`). In a ring that is smaller than the chain is long the write comes
round to the owner again, which finds that it has the value and stores nothing
(`Node.Holds.makeReplicas_round`).
-/

namespace ReplicaRing

open Log

/-! ## Nodes -/

namespace Node.Holds

variable {K : Set String} {space : Space} {n : Rank} {node : Node} {C : Contents} {r : Replica}
  {value : Bytes}

/-- A node that does not hold the key as its owner stores the copy it is sent. If the chain is
    not long enough yet, it sends the next one to its successor. -/
theorem makeReplicas_new (hn : node.Holds K space n C) (hK : Distinct K) {view : View}
    {now : Time} (hone : 1 ≤ r.rank.toNat) (hle : r.rank.toNat ≤ n.toNat)
    (hnew : r.rank = 1 ∨ view.owns r.key.point = false)
    (ha : (Call.appendNow r.name value now).Admissible K C.history) (reply : Reply) :
    ∃ node', node.makeReplicas view now [(r, value)] reply =
        (match if r.rank < n then view.nextHop else none with
          | none => .done (.ok reply)
          | some q => forward q [({ r with rank := r.rank + 1 }, value)] reply, node') ∧
      node'.Holds K space n (C.put r value now) := by
  have hround : ¬C.ComesRound view r := by
    rintro ⟨htwo, howns, -⟩
    rcases hnew with h | h
    · rw [h] at htwo
      exact absurd htwo (by decide)
    · rw [h] at howns
      cases howns
  obtain ⟨node', hmake, hn'⟩ := hn.makeReplicas_single hK view (UInt32.le_iff_toNat_le.2 hone)
    (UInt32.le_iff_toNat_le.2 hle) ⟨ha.1, fun _ => ha⟩ reply
  rw [Contents.arrive, if_neg hround] at hn'
  refine ⟨node', ?_, hn'⟩
  rw [hmake]
  by_cases hlt : r.rank < n
  · rw [if_pos ⟨hround, hlt⟩, if_pos hlt]
    cases hq : view.nextHop <;> rw [passOn, if_neg (List.cons_ne_nil _ _), hq]
  · rw [if_neg (fun h => hlt h.2), if_neg hlt, passOn, if_pos rfl]

/-- An owner that has the value already stores nothing. -/
theorem makeReplicas_round (hn : node.Holds K space n C) (hK : Distinct K) {view : View}
    (hone : 1 < r.rank.toNat) (hle : r.rank.toNat ≤ n.toNat)
    (howns : view.owns r.key.point = true) (hkey : r.name ∈ K)
    (hheld : (C.listed r.name).map (·.rank.toNat) = some 1)
    (hlatest : (C.history r.name).latest = some value) (now : Time) (reply : Reply) :
    ∃ node', node.makeReplicas view now [(r, value)] reply = (.done (.ok reply), node') ∧
      node'.Holds K space n C := by
  obtain ⟨held, hl, hrank⟩ := Option.map_eq_some_iff.1 hheld
  have hlt : held.rank < r.rank := by
    rw [UInt32.lt_iff_toNat_lt, hrank]
    exact hone
  have hround : C.ComesRound view r :=
    ⟨UInt32.le_iff_toNat_le.2 hone, howns, by rw [hl]; exact decide_eq_true hlt⟩
  have hroom : C.HasRoom K view now (r, value) := ⟨hkey, fun h => absurd hlatest (h hround)⟩
  obtain ⟨node', hmake, hn'⟩ := hn.makeReplicas_single hK view
    (UInt32.le_iff_toNat_le.2 hone.le) (UInt32.le_iff_toNat_le.2 hle) hroom reply
  rw [Contents.arrive, if_pos hround, if_pos hlatest] at hn'
  refine ⟨node', ?_, hn'⟩
  rw [hmake, if_neg (fun h => h.1 hround), passOn, if_pos rfl]

end Node.Holds

/-! ## Requests that may fail -/

/-- Work behind a request is only begun if the request is neither lost nor refused. -/
theorem Fate.ensures_deliver {σ α : Type} {w : Timed σ (Except PeerError α)} {s : σ}
    {post : Option (Except PeerError α) → σ → Prop} (fate : Fate) (h : Timed.Ensures w s post)
    (hrefused : ∀ e, post (some (.error e)) s) (hdropped : post none s) :
    Timed.Ensures (fate.deliver w) s post := by
  rw [deliver]
  cases fate.delay with
  | none => exact Timed.ensures_hang hdropped
  | some d =>
    have hsleep : Timed.Ensures (Timed.sleep d) s fun _ s' => s' = s :=
      Timed.ensures_sleep d rfl rfl
    refine hsleep.bind ?_ ?_
    · rintro _ s' rfl
      cases fate.refusal with
      | none => exact h
      | some e => exact Timed.ensures_pure (hrefused e)
    · rintro s' rfl
      exact hdropped

/-- The work is done and has gone well. -/
def Succeeds {ε α : Type} (o : Option (Except ε α)) : Prop := ∃ a, o = some (.ok a)

theorem not_succeeds_none {ε α : Type} {P : Prop}
    (h : Succeeds (none : Option (Except ε α))) : P := by
  obtain ⟨a, h⟩ := h
  cases h

theorem not_succeeds_error {ε α : Type} {e : ε} {P : Prop}
    (h : Succeeds (some (.error e) : Option (Except ε α))) : P := by
  obtain ⟨a, h⟩ := h
  cases h

namespace Peers

open Timed

variable {peers : Peers Node} {p : Point} {node node' : Node} {site : Site} {hops : Nat}

/-- A request that is delivered finds its node; nobody is touched by one that is not. Of the
    peers only the counts have changed when it arrives. -/
theorem ensures_deliver {request : Request} {Q : Prop → Peers Node → Prop}
    (hlisted : p ∈ peers.listed) (hfind : peers.find? p = some node)
    (hact : ∀ sent tally, Ensures (Node.act (deliver site hops) p fun node =>
        node.start (site.members.view p) site.now request) { peers with sent, tally }
      fun o => Q (Succeeds o))
    (hmono : ∀ {P P' : Prop} {peers' : Peers Node}, (P' → P) → Q P peers' → Q P' peers')
    (hfail : ∀ sent, Q False { peers with sent }) :
    Ensures (deliver site (hops + 1) p request) peers fun o => Q (Succeeds o) := by
  -- A request that is lost or refused has only been counted.
  have hresolve : ({ peers with sent := peers.sent + 1 } : Peers Node).resolve? p = some node :=
    (if_pos hlisted).trans hfind
  refine ensures_act_bind (Fate.ensures_deliver _ (ensures_act_bind ?_)
    (fun e => hmono not_succeeds_error (hfail _)) (hmono not_succeeds_none (hfail _)))
  simp only [hresolve]
  refine (hact _ _).bind (fun r peers' h => ?_) fun peers' h => hmono not_succeeds_none h
  cases r with
  | ok reply => exact ensures_pure (hmono (fun _ => ⟨reply, rfl⟩) h)
  | error e => exact ensures_pure (hmono not_succeeds_error h)

/-- A node that has sent a batch on only counts what becomes of it, and is done well if the peer
    is. -/
theorem ensures_act_forward {transport : Transport (Peers Node)} {first : Node → Step × Node}
    {q : Point} {batch : Batch} {reply : Reply} {Q : Prop → Peers Node → Prop}
    (hfind : peers.find? p = some node) (hfirst : first node = (Node.forward q batch reply, node'))
    (hpeer : Ensures (transport q (.makeReplicas batch)) (peers.update p node') fun o =>
      Q (Succeeds o))
    (hmono : ∀ {P P' : Prop} {peers' : Peers Node}, (P' → P) → Q P peers' → Q P' peers')
    (hcount : ∀ {P : Prop} {peers' : Peers Node} (metric : Metric) (i : Nat), Q P peers' →
      ∃ node, peers'.find? p = some node ∧ Q P (peers'.update p (node.count metric i))) :
    Ensures (Node.act transport p first) peers fun o => Q (Succeeds o) := by
  refine ensures_act_bind ?_
  simp only [hfind, hfirst]
  have hwithin : Ensures (within node.rpcTimeout (transport q (.makeReplicas batch)))
      (peers.update p node') fun o => Q (Succeeds (o.map orTimeout)) :=
    hpeer.within _ (fun _ _ h => h) (fun _ h => hmono not_succeeds_error h) fun _ h => h
  refine hwithin.bind (fun r peers' h => ?_) fun peers' h => hmono not_succeeds_none h
  rw [Option.map_some] at h
  refine ensures_act ?_
  cases hr : orTimeout r with
  | error e =>
    obtain ⟨node₁, hfind₁, hQ⟩ := hcount .replicationFailures 1 h
    rw [Node.finishAt, hfind₁]
    exact hmono not_succeeds_error hQ
  | ok a =>
    obtain ⟨node₁, hfind₁, hQ⟩ := hcount .replicasForwarded batch.length h
    rw [Node.finishAt, hfind₁]
    exact hmono (fun _ => ⟨a, by rw [hr]⟩) hQ

/-- A node that needs no peer is done at once. -/
theorem ensures_act_done {transport : Transport (Peers Node)} {first : Node → Step × Node}
    {reply : Reply} {Q : Prop → Peers Node → Prop}
    (hfind : peers.find? p = some node) (hfirst : first node = (.done (.ok reply), node'))
    (h : Q (Succeeds (some (.ok reply : Except ReplicationError Reply))) (peers.update p node')) :
    Ensures (Node.act transport p first) peers fun o => Q (Succeeds o) := by
  refine ensures_act_bind ?_
  simp only [hfind, hfirst]
  exact ensures_pure h

/-! ## Along the chain -/

/-- The members of the ring are alive and listed, and their stores hold `S`. -/
structure Holds (K : Set String) (space : Space) (n : Rank) (m : Members) (peers : Peers Node)
    (S : Point → Contents) : Prop where
  listed : ∀ p ∈ m, p ∈ peers.listed
  member : ∀ p ∈ m, ∃ node, peers.find? p = some node ∧ node.Holds K space n (S p)

/-- From `peers`, with the contents `S`, a write has come to `peers'`, with the contents `S'`: of
    the nodes along the chain of the key, counted from 0, those from `i` on and before `j` have
    it. -/
structure Committed (K : Set String) (space : Space) (n : Rank) (m : Members) (key : String)
    (value : Bytes) (i j : Nat) (peers peers' : Peers Node) (S S' : Point → Contents) : Prop where
  holds : peers'.Holds K space n m S'
  gains : ∀ l p, i ≤ l → l < j → (m.chain (space.key key).point)[l]? = some p →
    (S p).Gains key (l + 1) value (S' p)
  still : ∀ p, (∀ l, i ≤ l → l < j → (m.chain (space.key key).point)[l]? ≠ some p) → S' p = S p
  /-- The owner may have been asked for its value. -/
  same : ∀ p, (m.chain (space.key key).point)[0]? ≠ some p →
    (∀ l, i ≤ l → l < j → (m.chain (space.key key).point)[l]? ≠ some p) →
    peers'.find? p = peers.find? p

/-- If the write is past the owner of the key, the owner has it, and from the `i`-th node on there
    is room for it. -/
structure Ready (K : Set String) (space : Space) (m : Members) (key : String) (value : Bytes)
    (now : Time) (i : Nat) (S : Point → Contents) : Prop where
  owner : 0 < i → ∀ o, (m.chain (space.key key).point)[0]? = some o →
    ((S o).listed key).map (·.rank.toNat) = some 1 ∧ ((S o).history key).latest = some value
  room : ∀ l p, i ≤ l → (m.chain (space.key key).point)[l]? = some p →
    (Call.appendNow key value now).Admissible K (S p).history

/-- A write got to some `j`-th node, at least to the one before `lo`; if `full` it got to all
    nodes that it was meant for. -/
def Commits (K : Set String) (space : Space) (n : Rank) (m : Members) (key : String)
    (value : Bytes) (lo i : Nat) (peers : Peers Node) (S : Point → Contents) (full : Prop)
    (peers' : Peers Node) : Prop :=
  ∃ j S', lo ≤ j ∧ j ≤ min n.toNat m.size ∧
    Committed K space n m key value i j peers peers' S S' ∧ (full → j = min n.toNat m.size)

variable {K : Set String} {space : Space} {n : Rank} {m : Members} {key : String} {value : Bytes}
  {i j lo : Nat} {peers' : Peers Node} {S S' : Point → Contents} {C : Contents} {now : Time}
  {P P' : Prop}

theorem mem_of_getElem?_chain {k : Point} {l : Nat} (h : (m.chain k)[l]? = some p) : p ∈ m :=
  Members.mem_chain.1 (List.mem_of_getElem? h)

theorem Holds.update (h : peers.Holds K space n m S) (hn : node.Holds K space n C) :
    (peers.update p node).Holds K space n m (Function.update S p C) where
  listed := h.listed
  member q hq := by
    obtain ⟨node', hfind, hn'⟩ := h.member q hq
    rw [find?_update]
    by_cases hqp : q = p
    · subst hqp
      rw [if_pos rfl, hfind, Function.update_self]
      exact ⟨node, rfl, hn⟩
    · rw [if_neg hqp, Function.update_of_ne hqp]
      exact ⟨node', hfind, hn'⟩

/-- It does not matter how many requests were counted. -/
theorem Holds.told (h : peers.Holds K space n m S) (sent : Nat) (tally : Tally) :
    Peers.Holds K space n m { peers with sent, tally } S := ⟨h.listed, h.member⟩

/-- Requests were counted, and nothing has come about yet. -/
theorem Committed.told (h : peers.Holds K space n m S) (i sent : Nat) (tally : Tally) :
    Committed K space n m key value i i peers { peers with sent, tally } S S where
  holds := h.told sent tally
  gains _ _ hl hl' := absurd (hl.trans_lt hl') (Nat.lt_irrefl _)
  still _ _ := rfl
  same _ _ _ := rfl

theorem Committed.refl (h : peers.Holds K space n m S) (i : Nat) :
    Committed K space n m key value i i peers peers S S :=
  .told h i peers.sent peers.tally

theorem Committed.of_told {sent : Nat} {tally : Tally}
    (h : Committed K space n m key value i j { peers with sent, tally } peers' S S') :
    Committed K space n m key value i j peers peers' S S' :=
  ⟨h.holds, h.gains, h.still, h.same⟩

/-- The owner, or a node that has the write, changes without changing its contents. -/
theorem Committed.update (h : Committed K space n m key value i j peers peers' S S')
    (hn : node.Holds K space n (S' p))
    (hp : (m.chain (space.key key).point)[0]? = some p ∨
      ∃ l, i ≤ l ∧ l < j ∧ (m.chain (space.key key).point)[l]? = some p) :
    Committed K space n m key value i j peers (peers'.update p node) S S' where
  holds := by
    have hs := h.holds.update (p := p) hn
    rwa [Function.update_eq_self] at hs
  gains := h.gains
  still := h.still
  same q hq hql := by
    have hqp : q ≠ p := by
      rintro rfl
      rcases hp with hp | ⟨l, hil, hlj, hl⟩
      · exact hq hp
      · exact hql l hil hlj hl
    rw [find?_update, if_neg hqp]
    exact h.same q hq hql

/-- The `i`-th node stores the write, and it goes on from the next one. -/
theorem Committed.cons
    (h : Committed K space n m key value (i + 1) j (peers.update p node) peers'
      (Function.update S p C) S')
    (hij : i < j) (hp : (m.chain (space.key key).point)[i]? = some p)
    (hC : (S p).Gains key (i + 1) value C) :
    Committed K space n m key value i j peers peers' S S' where
  holds := h.holds
  gains l q hil hlj hq := by
    rcases Nat.eq_or_lt_of_le hil with rfl | hil'
    · rw [hp, Option.some.injEq] at hq
      subst hq
      rw [h.still p fun l hl _ hq => absurd (Members.eq_of_getElem?_chain hq hp) (by omega),
        Function.update_self]
      exact hC
    · have hqp : q ≠ p := by
        rintro rfl
        exact absurd (Members.eq_of_getElem?_chain hq hp) (by omega)
      have hg := h.gains l q hil' hlj hq
      rwa [Function.update_of_ne hqp] at hg
  still q hq := by
    have hqp : q ≠ p := by
      rintro rfl
      exact hq i le_rfl hij hp
    rw [h.still q fun l hl => hq l (Nat.le_of_succ_le hl), Function.update_of_ne hqp]
  same q hq hql := by
    have hqp : q ≠ p := by
      rintro rfl
      exact hql i le_rfl hij hp
    rw [h.same q hq fun l hl => hql l (Nat.le_of_succ_le hl), find?_update, if_neg hqp]

theorem Commits.mono (h : P' → P) (hc : Commits K space n m key value lo i peers S P peers') :
    Commits K space n m key value lo i peers S P' peers' := by
  obtain ⟨j, S', hlo, hj, hc, hfull⟩ := hc
  exact ⟨j, S', hlo, hj, hc, fun hp => hfull (h hp)⟩

theorem Commits.cons
    (hc : Commits K space n m key value (i + 1) (i + 1) (peers.update p node)
      (Function.update S p C) P peers')
    (hp : (m.chain (space.key key).point)[i]? = some p)
    (hC : (S p).Gains key (i + 1) value C) :
    Commits K space n m key value (i + 1) i peers S P peers' := by
  obtain ⟨j, S', hlo, hj, hc, hfull⟩ := hc
  exact ⟨j, S', hlo, hj, hc.cons hlo hp hC, hfull⟩

/-- After the `i`-th node has stored the write, those behind it have as much room as before. -/
theorem Ready.next (h : Ready K space m key value now i S)
    (hp : (m.chain (space.key key).point)[i]? = some p)
    (hC : (S p).Gains key (i + 1) value C) :
    Ready K space m key value now (i + 1) (Function.update S p C) where
  owner _ o ho := by
    rcases Nat.eq_zero_or_pos i with rfl | hi
    · rw [ho, Option.some.injEq] at hp
      subst hp
      rw [Function.update_self]
      exact ⟨hC.rank, hC.latest⟩
    · have hop : o ≠ p := by
        rintro rfl
        exact absurd (Members.eq_of_getElem?_chain ho hp) (by omega)
      rw [Function.update_of_ne hop]
      exact h.owner hi o ho
  room l q hl hq := by
    have hqp : q ≠ p := by
      rintro rfl
      exact absurd (Members.eq_of_getElem?_chain hq hp) (by omega)
    rw [Function.update_of_ne hqp]
    exact h.room l q (Nat.le_of_succ_le hl) hq

theorem Commits.count (hc : Commits K space n m key value (i + 1) i peers S P peers')
    (hp : (m.chain (space.key key).point)[i]? = some p) (metric : Metric) (c : Nat) :
    ∃ node, peers'.find? p = some node ∧ Commits K space n m key value (i + 1) i peers S P
      (peers'.update p (node.count metric c)) := by
  obtain ⟨j, S', hlo, hj, hc, hfull⟩ := hc
  obtain ⟨node, hfind, hn⟩ := hc.holds.member p (mem_of_getElem?_chain hp)
  exact ⟨node, hfind, j, S', hlo, hj,
    hc.update (hn.count metric c) (.inr ⟨i, le_rfl, hlo, hp⟩), hfull⟩

/-- What the `i`-th node of the chain sends on is carried on from the next one, which is the
    owner again past the last. -/
def CarriesOn (K : Set String) (space : Space) (n : Rank) (key : String) (value : Bytes)
    (site : Site) (hops : Nat) : Prop :=
  ∀ {i : Nat} {p : Point} {r : Replica} {peers : Peers Node} {S : Point → Contents}, 1 ≤ i →
    i ≤ site.members.size →
    (site.members.chain (space.key key).point)[i % site.members.size]? = some p →
    r.key = space.key key → r.rank.toNat = i + 1 → i + 1 ≤ n.toNat →
    peers.Holds K space n site.members S → Ready K space site.members key value site.now i S →
    Ensures (deliver site hops p (.makeReplicas [(r, value)])) peers fun o =>
      Commits K space n site.members key value i i peers S (Succeeds o)

/-- The node that the `i`-th node of the chain of `k` sends a write on to: none if the ranks are
    used up or there is no other node, and the owner again past the last. -/
def onward (n : Rank) (m : Members) (k : Point) (i : Nat) : Option Point :=
  if i + 1 < n.toNat then
    if m.size = 1 then none else (m.chain k)[(i + 1) % m.size]?
  else none

/-- The `i`-th node of the chain stores the write. -/
theorem exists_makeReplicas (hK : Distinct K)
    (hp : (m.chain (space.key key).point)[i]? = some p) {r : Replica}
    (hkey : r.key = space.key key) (hrank : r.rank.toNat = i + 1) (hle : i + 1 ≤ n.toNat)
    (hn : node.Holds K space n (S p)) (hready : Ready K space m key value now i S)
    (reply : Reply) :
    ∃ node' C, node.makeReplicas (m.view p) now [(r, value)] reply =
        (match onward n m (space.key key).point i with
          | none => .done (.ok reply)
          | some q => Node.forward q [({ r with rank := r.rank + 1 }, value)] reply, node') ∧
      node'.Holds K space n C ∧ (S p).Gains key (i + 1) value C := by
  have hname : r.name = key := congrArg Key.name hkey
  -- Only the owner could find that it has the key under a lower rank.
  have hnew : r.rank = 1 ∨ (m.view p).owns r.key.point = false := by
    rcases Nat.eq_zero_or_pos i with rfl | hpos
    · exact .inl (UInt32.toNat_inj.1 hrank)
    · rw [hkey, Members.owns_of_getElem? hp, decide_eq_false (Nat.ne_of_gt hpos)]
      exact .inr rfl
  have ha : (Call.appendNow r.name value now).Admissible K (S p).history :=
    hname ▸ hready.room i p le_rfl hp
  obtain ⟨node', hmake, hn'⟩ := hn.makeReplicas_new hK (by omega) (by omega) hnew ha reply
  have hgain : (S p).Gains key (i + 1) value ((S p).put r value now) := by
    have hg := Contents.gains_put (S p) r value now
    rwa [hname, hrank] at hg
  have hlt : r.rank < n ↔ i + 1 < n.toNat := by rw [UInt32.lt_iff_toNat_lt, hrank]
  simp only [Members.nextHop_of_getElem? hp, hlt] at hmake
  exact ⟨node', _, hmake, hn', hgain⟩

/-- The write ends at the last node that it is meant for. -/
theorem eq_min_of_onward_eq_none (hi : i < m.size) (hle : i + 1 ≤ n.toNat) {k : Point}
    (h : onward n m k i = none) : i + 1 = min n.toNat m.size := by
  rw [onward] at h
  split_ifs at h with hr hone
  · omega
  · rw [List.getElem?_eq_none_iff, Members.length_chain] at h
    exact absurd h (Nat.not_le.2 (Nat.mod_lt _ (by omega)))
  · omega

theorem lt_of_getElem?_chain {k : Point} {l : Nat} (h : (m.chain k)[l]? = some p) : l < m.size := by
  rw [← Members.length_chain m k]
  exact (List.getElem?_eq_some_iff.1 h).1

theorem toNat_rank_succ {r : Replica} (hrank : r.rank.toNat = i + 1) (hlt : i + 1 < n.toNat) :
    (r.rank + 1).toNat = i + 1 + 1 := by
  have hless : r.rank < n := by rwa [UInt32.lt_iff_toNat_lt, hrank]
  rw [Rank.toNat_succ_of_lt hless, hrank]

/-- A node along the chain stores the write, and sends it on. -/
theorem ensures_act_stores (hK : Distinct K) (hcarry : CarriesOn K space n key value site hops)
    (hp : (site.members.chain (space.key key).point)[i]? = some p) {r : Replica}
    (hkey : r.key = space.key key) (hrank : r.rank.toNat = i + 1) (hle : i + 1 ≤ n.toNat)
    (hh : peers.Holds K space n site.members S)
    (hready : Ready K space site.members key value site.now i S) {reply : Reply}
    {first : Node → Step × Node} (hfirst : ∀ node : Node, node.space = space →
      first node = node.makeReplicas (site.members.view p) site.now [(r, value)] reply) :
    Ensures (Node.act (deliver site hops) p first) peers fun o =>
      Commits K space n site.members key value (i + 1) i peers S (Succeeds o) := by
  obtain ⟨node, hfind, hn⟩ := hh.member p (mem_of_getElem?_chain hp)
  have hi := lt_of_getElem?_chain hp
  obtain ⟨node', C, hmake, hn', hgain⟩ := exists_makeReplicas hK hp hkey hrank hle hn hready reply
  rw [← hfirst node hn.space] at hmake
  have hh' := hh.update (p := p) hn'
  cases hnext : onward n site.members (space.key key).point i with
  | none =>
    have hfull := eq_min_of_onward_eq_none hi hle hnext
    rw [hnext] at hmake
    exact ensures_act_done hfind hmake ⟨i + 1, _, le_rfl, hfull.le,
      (Committed.refl hh' (i + 1)).cons (Nat.lt_succ_self i) hp hgain, fun _ => hfull⟩
  | some q =>
    rw [hnext] at hmake
    rw [onward] at hnext
    split_ifs at hnext with hmore hone
    -- The rest of the walk begins where this node has the write already. What it commits,
    -- with this node in front, is what the whole walk commits.
    refine ensures_act_forward hfind hmake (fun now cutoff => ?_) Commits.mono fun metric c hc =>
      hc.count hp metric c
    exact (hcarry (r := { r with rank := r.rank + 1 }) (Nat.succ_pos i) hi hnext hkey
      (toNat_rank_succ hrank hmore) hmore hh' (hready.next hp hgain) now cutoff).cons hp hgain

/-- A write that comes round to the owner ends there. -/
theorem ensures_act_round (hK : Distinct K) (hpos : 0 < site.members.size)
    (hsize : site.members.size < n.toNat)
    (hp : (site.members.chain (space.key key).point)[0]? = some p) {r : Replica}
    (hkey : r.key = space.key key) (hrank : r.rank.toNat = site.members.size + 1)
    (hin : key ∈ K)
    (hh : peers.Holds K space n site.members S)
    (hready : Ready K space site.members key value site.now site.members.size S)
    (transport : Transport (Peers Node)) :
    Ensures (Node.act transport p fun node =>
        node.start (site.members.view p) site.now (.makeReplicas [(r, value)])) peers fun o =>
      Commits K space n site.members key value site.members.size site.members.size peers S
        (Succeeds o) := by
  obtain ⟨node, hfind, hn⟩ := hh.member p (mem_of_getElem?_chain hp)
  have hname : r.name = key := congrArg Key.name hkey
  obtain ⟨hheld, hlatest⟩ := hready.owner hpos p hp
  rw [← hname] at hheld hlatest hin
  have howns : (site.members.view p).owns r.key.point = true := by
    rw [hkey, Members.owns_of_getElem? hp, decide_eq_true rfl]
  obtain ⟨node', hmake, hn'⟩ :=
    hn.makeReplicas_round hK (by omega) (by omega) howns hin hheld hlatest site.now .done
  exact ensures_act_done hfind hmake ⟨site.members.size, S, le_rfl, by omega,
    (Committed.refl hh _).update hn' (.inl hp), fun _ => by omega⟩

theorem Commits.weaken (hc : Commits K space n m key value (i + 1) i peers S P peers') :
    Commits K space n m key value i i peers S P peers' := by
  obtain ⟨j, S', hlo, hj, hc, hfull⟩ := hc
  exact ⟨j, S', Nat.le_of_succ_le hlo, hj, hc, hfull⟩

theorem Commits.of_told {sent : Nat} {tally : Tally}
    (hc : Commits K space n m key value lo i { peers with sent, tally } S P peers') :
    Commits K space n m key value lo i peers S P peers' := by
  obtain ⟨j, S', hlo, hj, hc, hfull⟩ := hc
  exact ⟨j, S', hlo, hj, hc.of_told, hfull⟩

/-- However few hops there are, what is sent on gets somewhere or nowhere. -/
theorem carriesOn (hK : Distinct K) (hin : key ∈ K) (hops : Nat) :
    CarriesOn K space n key value site hops := by
  -- The induction is on the hops, as the walk goes past the end of the chain.
  induction hops with
  | zero =>
    intro i p r peers S _ hi hp _ _ hle hh _
    exact ensures_pure ⟨i, S, le_rfl, by omega, .refl hh i, not_succeeds_error⟩
  | succ hops ih =>
    intro i p r peers S hone hi hp hkey hrank hle hh hready
    have hpm := mem_of_getElem?_chain hp
    obtain ⟨node, hfind, -⟩ := hh.member p hpm
    refine ensures_deliver (hh.listed p hpm) hfind (fun sent tally => ?_) Commits.mono fun sent =>
      ⟨i, S, le_rfl, by omega, .told hh i sent peers.tally, False.elim⟩
    have hh' := hh.told sent tally
    -- Past the last node of the chain the walk is with the owner again.
    rcases Nat.eq_or_lt_of_le hi with rfl | hlt
    · rw [Nat.mod_self] at hp
      exact fun now cutoff => (ensures_act_round hK hone (by omega) hp hkey hrank hin hh' hready _
        now cutoff).of_told
    · rw [Nat.mod_eq_of_lt hlt] at hp
      exact fun now cutoff => (ensures_act_stores hK ih hp hkey hrank hle hh' hready
        (fun _ _ => rfl) now cutoff).weaken.of_told

/-- A put commits a prefix of the chain, and the whole chain if it succeeds. Whatever the nodes of
    a ring hold, and whatever becomes of the requests between them: once the owner of the key has
    done what it could, there is a `j` such that the first `j` nodes of the walk from the owner
    hold the key, each under its rank and with the value as the last one, and nothing else has
    changed. -/
theorem put_commits_prefix (hK : Distinct K) (hn : 1 ≤ n.toNat)
    (hh : peers.Holds K space n site.members S)
    (hroom : ∀ p ∈ site.members, (Call.appendNow key value site.now).Admissible K (S p).history)
    {o : Point} (ho : site.members.owner (space.key key).point = some o) {time : Nat}
    {cutoff : Option Nat} {outcome : Outcome (Except ReplicationError Reply)}
    (hput : Node.act (deliver site hops) o (fun node =>
        node.start (site.members.view o) site.now (.putObject key value)) time cutoff peers =
      (outcome, peers')) :
    ∃ j S', 1 ≤ j ∧ j ≤ min n.toNat site.members.size ∧
      peers'.Holds K space n site.members S' ∧
      (∀ i < j, ∃ p, site.members.step (space.key key).point i = some p ∧
        (S p).Gains key (i + 1) value (S' p)) ∧
      (∀ p, (∀ i < j, site.members.step (space.key key).point i ≠ some p) →
        peers'.find? p = peers.find? p ∧ S' p = S p) ∧
      ∀ t reply, outcome = .done t (.ok reply) → j = min n.toNat site.members.size := by
  rw [Members.owner_eq_head, List.head?_eq_getElem?] at ho
  have hpm := mem_of_getElem?_chain ho
  have hready : Ready K space site.members key value site.now 0 S :=
    ⟨fun h => absurd h (Nat.lt_irrefl 0), fun l p _ hp => hroom p (mem_of_getElem?_chain hp)⟩
  have hfirst : ∀ node : Node, node.space = space →
      node.start (site.members.view o) site.now (.putObject key value) =
        node.makeReplicas (site.members.view o) site.now [(.primary (space.key key), value)]
          .done := by
    rintro node rfl
    rfl
  -- The put is the walk from the first node of the chain on.
  have hact := ensures_act_stores hK (carriesOn hK (hroom o hpm).1 hops) ho rfl rfl hn hh hready
    hfirst time cutoff
  rw [hput] at hact
  obtain ⟨j, S', hone, hj, hc, hfull⟩ := hact
  have hstep : ∀ i < j, site.members.step (space.key key).point i =
      (site.members.chain (space.key key).point)[i]? := fun i hi => Members.step_eq (by omega)
  refine ⟨j, S', hone, hj, hc.holds, fun i hi => ?_, fun p hp => ?_, fun t reply h => ?_⟩
  · have hlt : i < (site.members.chain (space.key key).point).length := by
      rw [Members.length_chain]
      omega
    have hp := List.getElem?_eq_getElem hlt
    exact ⟨_, (hstep i hi).trans hp, hc.gains i _ (Nat.zero_le i) hi hp⟩
  · have hp' : ∀ l, 0 ≤ l → l < j → (site.members.chain (space.key key).point)[l]? ≠ some p :=
      fun l _ hl => hstep l hl ▸ hp l hl
    exact ⟨hc.same p (hp' 0 le_rfl hone) hp', hc.still p hp'⟩
  · exact hfull ⟨reply, by rw [h]; rfl⟩

/-- The peers of a ring that keeps within its limits hold contents with room for more. -/
theorem Shows.holds {E : Setting} {b : Nat} {rows : String → Row} (hs : peers.Shows E b m rows)
    (hb : b < E.budget) :
    ∃ S, peers.Holds E.keys E.space E.copies m S ∧
      ∀ p ∈ m, ∀ key ∈ E.keys, ∀ (value : Bytes) (now : Time), value.length ≤ E.longest →
        now.toNat ≤ E.latest → (Call.appendNow key value now).Admissible E.keys (S p).history := by
  have hmember : ∀ p, ∃ C : Contents, p ∈ m → (∃ node, peers.find? p = some node ∧
      node.Holds E.keys E.space E.copies C) ∧ C.Matches E (fun _ => b) fun key => rows key p := by
    intro p
    by_cases hp : p ∈ m
    · obtain ⟨node, hfind, hn⟩ := hs.member p hp
      obtain ⟨C, hC, hm⟩ := hn.store.holds
      exact ⟨C, fun _ => ⟨⟨node, hfind, hn.space, hn.copies, hC⟩, hm⟩⟩
    · exact ⟨⟨fun _ => none, fun _ => []⟩, fun h => absurd h hp⟩
  choose S hS using hmember
  exact ⟨S, ⟨hs.listed, fun p hp => (hS p hp).1⟩, fun p hp key hkey value now hv hnow =>
    (hS p hp).2.admissible hkey hb hv hnow⟩

open Cluster

/-- Between the nodes every request is lost. -/
def silent (m : Members) : Site := ⟨m, 0, fun _ _ => ⟨none, none⟩⟩

theorem put_commits_prefix_sampleThree :
    let c := (Cluster.empty sampleOptions .calm 0).after sampleThree
    let E := sampleSetting
    let put := fun node : Node =>
      node.start (c.members.view sampleA) 0 (.putObject "c" sampleNew)
    ∃ S outcome peers', Distinct E.keys ∧ 1 ≤ E.copies.toNat ∧
      c.peers.Holds E.keys E.space E.copies c.members S ∧
      (∀ p ∈ c.members,
        (Call.appendNow "c" sampleNew 0).Admissible E.keys (S p).history) ∧
      c.members.owner (E.point "c") = some sampleA ∧
      Node.act (deliver (silent c.members) 3) sampleA put 0 none c.peers =
        (outcome, peers') ∧
      ∃ j S', 1 ≤ j ∧ j ≤ min E.copies.toNat c.members.size ∧
        peers'.Holds E.keys E.space E.copies c.members S' ∧
        (∀ i < j, ∃ p, c.members.step (E.point "c") i = some p ∧
          (S p).Gains "c" (i + 1) sampleNew (S' p)) ∧
        (∀ p, (∀ i < j, c.members.step (E.point "c") i ≠ some p) →
          peers'.find? p = c.peers.find? p ∧ S' p = S p) ∧
        ∀ t reply, outcome = .done t (.ok reply) → j = min E.copies.toNat c.members.size := by
  intro c E put
  have hadm : AllAdmissible E .empty sampleThree := by decide
  obtain ⟨hm, hs⟩ := shows_after_sample hadm (by decide)
  have ho : c.members.owner (E.point "c") = some sampleA := by
    rw [hm]
    decide +kernel
  obtain ⟨S, hh, hroom⟩ := hs.peers.holds (by decide)
  -- How the ring came about does not matter any more.
  change c.peers.Holds E.keys E.space E.copies c.members S at hh
  change ∀ p ∈ c.members, _ at hroom
  clear_value c
  have hroom' : ∀ p ∈ (silent c.members).members,
      (Call.appendNow "c" sampleNew 0).Admissible E.keys (S p).history :=
    fun p hp => hroom p hp "c" rfl _ 0 (by decide) (by decide)
  obtain ⟨⟨outcome, peers'⟩, hput⟩ : ∃ r, Node.act (deliver (silent c.members) 3)
      sampleA put 0 none c.peers = r := ⟨_, rfl⟩
  exact ⟨S, outcome, peers', E.distinct, by decide, hh, hroom', ho, hput,
    put_commits_prefix E.distinct (by decide) hh hroom' ho hput⟩

end Peers

end ReplicaRing
