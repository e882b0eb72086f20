import ReplicaRing.Proofs.Ring.Neighbours

/-!
# What listeners hear

A channel is heard of in two stages. As long as it is the one its member's events go to and has a
receiver, it is *active* (`Subscriptions.Active`), and gets the events of its member and nothing
else. From the moment that somebody else subscribes for the member, the member fails or the receiver
is dropped, it is *ended* (`Subscriptions.Ended`), and gets nothing any more.

Two rings that tell a channel apart by its receiver alone (`Subscriptions.Apart`) go on to do so,
whatever is done with both.

Main statement: what is delivered on a channel are the events its member was told from the
subscription up to its end, and it does not depend on the receivers of other channels
(`Subscriptions.delivers_addressed`). The failure of a node that is no member ends nothing
(`Subscriptions.delivered_after_failure_of_stranger`).
-/

namespace ReplicaRing.Subscriptions

/-! ## Runs -/

/-- What is done with a ring that is listened to. -/
inductive Act
  | join (p : Point)
  | fail (p : Point)
  | subscribe (p : Point)
  /-- The receiver of a channel is dropped. -/
  | drop (i : Nat)
  /-- The receiver of a channel takes what is queued. -/
  | drain (i : Nat)
deriving DecidableEq

namespace Act

/-- The ring after the act. -/
def effect (s : Subscriptions) : Act → Subscriptions
  | join p => (s.join p).2
  | fail p => (s.fail p).2
  | subscribe p => (s.subscribe p).2
  | drop i => s.drop i
  | drain i => (s.drain i).2

/-- The notifications that a join or a failure returns. -/
def notes (s : Subscriptions) : Act → List Notification
  | join p => (s.join p).1
  | fail p => (s.fail p).1
  | _ => []

/-- What the receiver of channel `i` takes. -/
def received (s : Subscriptions) (i : Nat) : Act → List Event
  | drain j => if j = i then (s.drain j).1 else []
  | _ => []

/-- Channel `i` gets the events of `p` no longer: somebody else subscribes for `p`, the member `p`
    fails, or the receiver is dropped. -/
def ends (s : Subscriptions) (p : Point) (i : Nat) : Act → Bool
  | subscribe q => q = p
  | fail q => q = p && decide (p ∈ s.members)
  | drop j => j = i
  | _ => false

end Act

/-- A moment of a run: a ring, and what is done with it. -/
structure Moment where
  ring : Subscriptions
  act : Act

/-- The events of those of the notifications that are for `p`. -/
def addressed (p : Point) (notes : List Notification) : List Event :=
  (notes.filter fun n => n.1 = p).map Prod.snd

/-- The ring after the acts. -/
def after (s : Subscriptions) (acts : List Act) : Subscriptions := acts.foldl Act.effect s

/-- The moments of a run. -/
def moments (s : Subscriptions) : List Act → List Moment
  | [] => []
  | act :: acts => ⟨s, act⟩ :: (act.effect s).moments acts

/-- What is queued on channel `i`. -/
def queued (s : Subscriptions) (i : Nat) : List Event := (s.drain i).1

/-- All that comes in on channel `i` in a run: what the receiver takes, and what is still queued in
    the end. -/
def delivered (s : Subscriptions) (i : Nat) (acts : List Act) : List Event :=
  ((s.moments acts).flatMap fun m => m.act.received m.ring i) ++ (s.after acts).queued i

variable {s t : Subscriptions} {p q : Point} {i j : Nat} {note : Notification} {act : Act}

theorem delivered_cons (s : Subscriptions) (i : Nat) (act : Act) (acts : List Act) :
    s.delivered i (act :: acts) =
      act.received s i ++ (act.effect s).delivered i acts := by
  rw [delivered, delivered, moments, List.flatMap_cons, List.append_assoc]
  rfl

theorem addressed_cons (p : Point) (note : Notification) (notes : List Notification) :
    addressed p (note :: notes) = (if note.1 = p then [note.2] else []) ++ addressed p notes := by
  rw [addressed, List.filter_cons]
  by_cases h : note.1 = p <;> simp [h, addressed]

/-! ## Channels -/

/-- The receiver of channel `i` is there. -/
def IsOpen (s : Subscriptions) (i : Nat) : Prop :=
  ∃ c, s.channels[i]? = some c ∧ c.dropped = false

/-- Channel `i` is changed. -/
def alter (s : Subscriptions) (i : Nat) (f : Channel → Channel) : Subscriptions :=
  { s with channels := s.channels.modify i f }

/-- Nobody listens for `p` any more. -/
def forget (s : Subscriptions) (p : Point) : Subscriptions :=
  { s with listeners := s.listeners.filter fun l => l.1 ≠ p }

theorem channels_alter_self (s : Subscriptions) (i : Nat) (f : Channel → Channel) :
    (s.alter i f).channels[i]? = s.channels[i]?.map f :=
  List.getElem?_modify_eq f i s.channels

theorem channels_alter_of_ne (h : j ≠ i) (f : Channel → Channel) :
    (s.alter j f).channels[i]? = s.channels[i]? :=
  List.getElem?_modify_ne f s.channels h

theorem queued_congr (h : t.channels[i]? = s.channels[i]?) : t.queued i = s.queued i := by
  rw [queued, queued, drain, drain, h]

theorem queued_alter {f : Channel → Channel} (hf : j = i → ∀ c, (f c).queue = c.queue) :
    (s.alter j f).queued i = s.queued i := by
  by_cases hj : j = i
  · rw [queued, queued, drain, drain, hj, channels_alter_self]
    cases s.channels[i]? with
    | none => rfl
    | some c => exact hf hj c
  · exact queued_congr (channels_alter_of_ne hj f)

theorem IsOpen.lt (h : s.IsOpen i) : i < s.channels.length := by
  obtain ⟨c, hc, -⟩ := h
  exact (List.getElem?_eq_some_iff.1 hc).1

/-- An event is queued if the one it is for listens, and a listener whose receiver is gone is
    forgotten. -/
theorem send_cases (s : Subscriptions) (note : Notification) :
    s.listeners.lookup note.1 = none ∧ s.send note = s ∨
      ∃ i, s.listeners.lookup note.1 = some i ∧
        (¬s.IsOpen i ∧ s.send note = s.forget note.1 ∨
          s.IsOpen i ∧
            s.send note = s.alter i fun c => { c with queue := c.queue ++ [note.2] }) := by
  rw [send]
  cases hl : s.listeners.lookup note.1 with
  | none => exact .inl ⟨rfl, rfl⟩
  | some i =>
    refine .inr ⟨i, rfl, ?_⟩
    cases hc : s.channels[i]? with
    | none => exact .inl ⟨by simp [IsOpen, hc], by simp [hc, forget]⟩
    | some c =>
      cases hd : c.dropped with
      | true => exact .inl ⟨by simp [IsOpen, hc, hd], by simp [hc, hd, forget]⟩
      | false => exact .inr ⟨⟨c, hc, hd⟩, by simp [hc, hd, alter]⟩

/-! ## Active channels -/

/-- The events for `p`, and no others, go to channel `i`, and its receiver is there. -/
structure Active (s : Subscriptions) (p : Point) (i : Nat) : Prop where
  lookup : s.listeners.lookup p = some i
  isOpen : s.IsOpen i
  only : ∀ l ∈ s.listeners, l.2 = i → l.1 = p

theorem mem_of_lookup {l : List (Point × Nat)} (h : l.lookup q = some j) : (q, j) ∈ l := by
  obtain ⟨l₁, l₂, rfl, -⟩ := List.lookup_eq_some_iff.1 h
  simp

theorem Active.forget (ha : s.Active p i) (hq : q ≠ p) : (s.forget q).Active p i where
  lookup := by
    rw [Subscriptions.forget, lookup_filter_ne, if_neg hq.symm]
    exact ha.lookup
  isOpen := ha.isOpen
  only l hl := ha.only l (List.mem_filter.1 hl).1

/-- What is done to a channel shows at no other, and ends none as long as the receiver stays. -/
theorem Active.alter (ha : s.Active p i) {f : Channel → Channel}
    (hf : j = i → ∀ c, (f c).dropped = c.dropped) : (s.alter j f).Active p i where
  lookup := ha.lookup
  isOpen := by
    obtain ⟨c, hc, hd⟩ := ha.isOpen
    by_cases hj : j = i
    · exact ⟨f c, by rw [hj, channels_alter_self, hc, Option.map_some], by rw [hf hj, hd]⟩
    · exact ⟨c, by rw [channels_alter_of_ne hj, hc], hd⟩
  only := ha.only

theorem Active.send (ha : s.Active p i) (note : Notification) :
    (s.send note).Active p i ∧
      (s.send note).queued i = s.queued i ++ if note.1 = p then [note.2] else [] := by
  rcases send_cases s note with ⟨hl, hs⟩ | ⟨j, hl, h⟩
  · have hne : note.1 ≠ p := by
      rintro he
      rw [he, ha.lookup] at hl
      cases hl
    rw [hs, if_neg hne, List.append_nil]
    exact ⟨ha, rfl⟩
  · by_cases hp : note.1 = p
    · -- The event is for this channel.
      rw [hp, ha.lookup, Option.some.injEq] at hl
      subst hl
      obtain ⟨-, hs⟩ := h.resolve_left fun h => h.1 ha.isOpen
      obtain ⟨c, hc, -⟩ := ha.isOpen
      rw [hs, if_pos hp]
      refine ⟨ha.alter fun _ _ => rfl, ?_⟩
      simp only [queued, drain, channels_alter_self, hc, Option.map_some]
    · -- Whoever else listens does so on another channel.
      have hj : j ≠ i := fun hj => hp (ha.only _ (mem_of_lookup hl) hj)
      rw [if_neg hp, List.append_nil]
      rcases h with ⟨-, hs⟩ | ⟨-, hs⟩
      · rw [hs]
        exact ⟨ha.forget hp, rfl⟩
      · rw [hs]
        exact ⟨ha.alter fun he => absurd he hj, queued_alter fun he => absurd he hj⟩

theorem Active.sendAll (ha : s.Active p i) (notes : List Notification) :
    (notes.foldl Subscriptions.send s).Active p i ∧
      (notes.foldl Subscriptions.send s).queued i = s.queued i ++ addressed p notes := by
  induction notes generalizing s with
  | nil => exact ⟨ha, (List.append_nil _).symm⟩
  | cons note notes ih =>
    obtain ⟨hsend, hqueued⟩ := ha.send note
    obtain ⟨hall, hqueued'⟩ := ih hsend
    exact ⟨hall, by rw [List.foldl_cons, hqueued', hqueued, List.append_assoc, addressed_cons]⟩

/-- The ring before a join's or a failure's notifications are sent. -/
theorem Active.members (ha : s.Active p i) (m : Members) :
    ({ s with members := m } : Subscriptions).Active p i :=
  ⟨ha.lookup, ha.isOpen, ha.only⟩

/-- Nobody listens for a member that fails when the others are told. -/
theorem snd_fail_of_mem (hq : q ∈ s.members) : (s.fail q).2 =
    (s.fail q).1.foldl Subscriptions.send
      { s.forget q with members := (s.members.fail q).2 } := by
  simp only [fail, if_pos hq, Subscriptions.forget]

theorem Active.subscribe (ha : s.Active p i) (hq : q ≠ p) :
    (s.subscribe q).2.Active p i ∧ (s.subscribe q).2.queued i = s.queued i := by
  have hchannel : (s.subscribe q).2.channels[i]? = s.channels[i]? :=
    List.getElem?_append_left ha.isOpen.lt
  obtain ⟨c, hc, hd⟩ := ha.isOpen
  refine ⟨⟨?_, ⟨c, hchannel.trans hc, hd⟩, fun l hl hi => ?_⟩, queued_congr hchannel⟩
  · have hb : (p == q) = false := by simpa using hq.symm
    rw [Subscriptions.subscribe, List.lookup_cons, hb, lookup_filter_ne, if_neg hq.symm]
    exact ha.lookup
  · rcases List.mem_cons.1 hl with rfl | hl
    · -- The new channel has a number that no channel had before.
      exact absurd hi ha.isOpen.lt.ne'
    · exact ha.only l (List.mem_filter.1 hl).1 hi

/-- What is queued stays when the receiver is dropped. -/
theorem queued_drop (s : Subscriptions) (j i : Nat) : (s.drop j).queued i = s.queued i :=
  queued_alter fun _ _ => rfl

/-- Draining a channel takes what is queued on it. -/
theorem received_append_queued_drain (s : Subscriptions) (j i : Nat) :
    (Act.drain j).received s i ++ (s.drain j).2.queued i = s.queued i := by
  have hstate : (s.drain j).2 = s.alter j fun c => { c with queue := [] } := rfl
  rw [Act.received, hstate]
  by_cases hj : j = i
  · subst hj
    have hempty : (s.alter j fun c => { c with queue := [] }).queued j = [] := by
      rw [queued, drain, channels_alter_self]
      cases s.channels[j]? <;> rfl
    rw [if_pos rfl, hempty, List.append_nil]
    rfl
  · rw [if_neg hj, List.nil_append, queued_alter fun he => absurd he hj]

/-- An act that ends nothing queues the events of its notifications. -/
theorem Active.effect (ha : s.Active p i) (hends : act.ends s p i = false) :
    (act.effect s).Active p i ∧
      act.received s i ++ (act.effect s).queued i =
        s.queued i ++ addressed p (act.notes s) := by
  cases act with
  | join q => exact (ha.members _).sendAll _
  | fail q =>
    show (s.fail q).2.Active p i ∧
      (s.fail q).2.queued i = s.queued i ++ addressed p (s.fail q).1
    by_cases hq : q ∈ s.members
    · have hne : q ≠ p := by
        rintro rfl
        simp [Act.ends, hq] at hends
      rw [snd_fail_of_mem hq]
      exact ((ha.forget hne).members _).sendAll _
    · rw [fail_of_not_mem hq]
      exact ⟨ha, (List.append_nil _).symm⟩
  | subscribe q =>
    obtain ⟨hactive, hqueued⟩ := ha.subscribe (q := q) (by simpa [Act.ends] using hends)
    exact ⟨hactive, hqueued.trans (List.append_nil _).symm⟩
  | drop j =>
    have hj : j ≠ i := by simpa [Act.ends] using hends
    exact ⟨ha.alter fun he => absurd he hj, (queued_drop s j i).trans (List.append_nil _).symm⟩
  | drain j =>
    exact ⟨ha.alter fun _ _ => rfl,
      (received_append_queued_drain s j i).trans (List.append_nil _).symm⟩

/-! ## Ended channels -/

/-- Channel `i` was opened, and no events go to it any more, or nobody is there to receive them. -/
structure Ended (s : Subscriptions) (i : Nat) : Prop where
  lt : i < s.channels.length
  unheard : s.IsOpen i → ∀ l ∈ s.listeners, l.2 ≠ i

theorem Ended.forget (he : s.Ended i) (q : Point) : (s.forget q).Ended i :=
  ⟨he.lt, fun ho l hl => he.unheard ho l (List.mem_filter.1 hl).1⟩

theorem Ended.alter (he : s.Ended i) {f : Channel → Channel}
    (hf : ∀ c, c.dropped = true → (f c).dropped = true) : (s.alter j f).Ended i where
  lt := by
    rw [Subscriptions.alter, List.length_modify]
    exact he.lt
  unheard := by
    rintro ⟨c', hc', hd⟩
    refine he.unheard ?_
    by_cases hj : j = i
    · subst hj
      rw [channels_alter_self, Option.map_eq_some_iff] at hc'
      obtain ⟨c, hc, rfl⟩ := hc'
      refine ⟨c, hc, Bool.eq_false_iff.2 fun hdropped => ?_⟩
      rw [hf c hdropped] at hd
      cases hd
    · exact ⟨c', by rw [← hc', channels_alter_of_ne hj], hd⟩

theorem Ended.send (he : s.Ended i) (note : Notification) :
    (s.send note).Ended i ∧ (s.send note).queued i = s.queued i := by
  rcases send_cases s note with ⟨-, hs⟩ | ⟨j, hl, ⟨-, hs⟩ | ⟨ho, hs⟩⟩
  · rw [hs]
    exact ⟨he, rfl⟩
  · rw [hs]
    exact ⟨he.forget _, rfl⟩
  · have hj : j ≠ i := by
      rintro rfl
      exact he.unheard ho _ (mem_of_lookup hl) rfl
    rw [hs]
    exact ⟨he.alter fun _ h => h, queued_alter fun he => absurd he hj⟩

theorem Ended.sendAll (he : s.Ended i) (notes : List Notification) :
    (notes.foldl Subscriptions.send s).Ended i ∧
      (notes.foldl Subscriptions.send s).queued i = s.queued i := by
  induction notes generalizing s with
  | nil => exact ⟨he, rfl⟩
  | cons note notes ih =>
    obtain ⟨hsend, hqueued⟩ := he.send note
    obtain ⟨hall, hqueued'⟩ := ih hsend
    exact ⟨hall, hqueued'.trans hqueued⟩

theorem Ended.members (he : s.Ended i) (m : Members) :
    ({ s with members := m } : Subscriptions).Ended i :=
  ⟨he.lt, he.unheard⟩

theorem Ended.subscribe (he : s.Ended i) (q : Point) :
    (s.subscribe q).2.Ended i ∧ (s.subscribe q).2.queued i = s.queued i := by
  have hchannel : (s.subscribe q).2.channels[i]? = s.channels[i]? :=
    List.getElem?_append_left he.lt
  refine ⟨⟨?_, ?_⟩, queued_congr hchannel⟩
  · rw [Subscriptions.subscribe, List.length_append]
    exact Nat.lt_add_right _ he.lt
  · rintro ⟨c, hc, hd⟩ l hl
    rcases List.mem_cons.1 hl with rfl | hl
    · exact he.lt.ne'
    · exact he.unheard ⟨c, hchannel ▸ hc, hd⟩ l (List.mem_filter.1 hl).1

/-- On a channel that is ended nothing comes in. -/
theorem Ended.effect (he : s.Ended i) (act : Act) :
    (act.effect s).Ended i ∧
      act.received s i ++ (act.effect s).queued i = s.queued i := by
  cases act with
  | join q => exact (he.members _).sendAll _
  | fail q =>
    show (s.fail q).2.Ended i ∧ (s.fail q).2.queued i = s.queued i
    by_cases hq : q ∈ s.members
    · rw [snd_fail_of_mem hq]
      exact ((he.forget q).members _).sendAll _
    · rw [fail_of_not_mem hq]
      exact ⟨he, rfl⟩
  | subscribe q => exact he.subscribe q
  | drop j => exact ⟨he.alter fun _ _ => rfl, queued_drop s j i⟩
  | drain j => exact ⟨he.alter fun _ h => h, received_append_queued_drain s j i⟩

/-- An act that ends a channel takes nothing from it and queues nothing on it. -/
theorem Active.ended (ha : s.Active p i) (hends : act.ends s p i = true) :
    (act.effect s).Ended i ∧ act.received s i ++ (act.effect s).queued i = s.queued i := by
  -- Without the listeners for `p` nobody listens on the channel.
  have hforget : (s.forget p).Ended i := by
    refine ⟨ha.isOpen.lt, fun _ l hl hi => ?_⟩
    obtain ⟨hl, hne⟩ := List.mem_filter.1 hl
    simp [ha.only l hl hi] at hne
  cases act with
  | join q => cases hends
  | drain j => cases hends
  | drop j =>
    obtain rfl : j = i := by simpa [Act.ends] using hends
    refine ⟨⟨?_, ?_⟩, queued_drop s j j⟩
    · rw [Act.effect, drop, List.length_modify]
      exact ha.isOpen.lt
    · rintro ⟨c, hc, hd⟩
      obtain ⟨c', hc', rfl⟩ := Option.map_eq_some_iff.1 ((channels_alter_self s j _).symm.trans hc)
      cases hd
  | fail q =>
    obtain ⟨rfl, hq⟩ : q = p ∧ p ∈ s.members := by simpa [Act.ends] using hends
    show (s.fail q).2.Ended i ∧ (s.fail q).2.queued i = s.queued i
    rw [snd_fail_of_mem hq]
    exact (hforget.members _).sendAll _
  | subscribe q =>
    obtain rfl : q = p := by simpa [Act.ends] using hends
    have hstate : (s.forget q).subscribe q = s.subscribe q := by
      simp only [Subscriptions.subscribe, Subscriptions.forget, List.filter_filter, Bool.and_self]
    have hended := hforget.subscribe q
    rw [hstate] at hended
    exact hended

/-! ## Runs from the start -/

/-- Only channels that were opened are listened to. -/
def Valid (s : Subscriptions) : Prop := ∀ l ∈ s.listeners, l.2 < s.channels.length

theorem Valid.members (hv : s.Valid) (m : Members) :
    ({ s with members := m } : Subscriptions).Valid :=
  hv

theorem Valid.forget (hv : s.Valid) (q : Point) : (s.forget q).Valid :=
  fun l hl => hv l (List.mem_filter.1 hl).1

theorem Valid.send (hv : s.Valid) (note : Notification) : (s.send note).Valid := by
  rcases send_cases s note with ⟨-, hs⟩ | ⟨j, -, ⟨-, hs⟩ | ⟨-, hs⟩⟩
  · rwa [hs]
  · rw [hs]
    exact hv.forget _
  · rw [hs]
    intro l hl
    rw [alter, List.length_modify]
    exact hv l hl

theorem Valid.sendAll (hv : s.Valid) (notes : List Notification) :
    (notes.foldl Subscriptions.send s).Valid := by
  induction notes generalizing s with
  | nil => exact hv
  | cons note notes ih => exact ih (hv.send note)

theorem Valid.effect (hv : s.Valid) (act : Act) : (act.effect s).Valid := by
  cases act with
  | join q => exact (hv.members _).sendAll _
  | fail q =>
    show (s.fail q).2.Valid
    by_cases hq : q ∈ s.members
    · rw [snd_fail_of_mem hq]
      exact ((hv.forget q).members _).sendAll _
    · rwa [fail_of_not_mem hq]
  | subscribe q =>
    intro l hl
    rw [Act.effect, Subscriptions.subscribe, List.length_append]
    rcases List.mem_cons.1 hl with rfl | hl
    · exact Nat.lt_succ_self _
    · exact Nat.lt_add_right _ (hv l (List.mem_filter.1 hl).1)
  | drop j =>
    intro l hl
    rw [Act.effect, drop, List.length_modify]
    exact hv l hl
  | drain j =>
    intro l hl
    rw [Act.effect, drain, List.length_modify]
    exact hv l hl

theorem valid_after (hv : s.Valid) (acts : List Act) : (s.after acts).Valid := by
  induction acts generalizing s with
  | nil => exact hv
  | cons act acts ih => exact ih (hv.effect act)

/-- A channel is active, and empty, as soon as it is opened. -/
theorem Valid.active_subscribe (hv : s.Valid) (p : Point) :
    (s.subscribe p).2.Active p (s.subscribe p).1 ∧
      (s.subscribe p).2.queued (s.subscribe p).1 = [] := by
  have hchannel : (s.subscribe p).2.channels[(s.subscribe p).1]? = some ⟨p, [], false⟩ :=
    List.getElem?_concat_length
  refine ⟨⟨?_, ⟨_, hchannel, rfl⟩, fun l hl hi => ?_⟩, ?_⟩
  · rw [Subscriptions.subscribe, List.lookup_cons, beq_self_eq_true]
  · rcases List.mem_cons.1 hl with rfl | hl
    · rfl
    · exact absurd hi (hv l (List.mem_filter.1 hl).1).ne
  · rw [queued, drain, hchannel]

/-- Nothing more is delivered on a channel that is ended. -/
theorem Ended.delivered (he : s.Ended i) (acts : List Act) : s.delivered i acts = s.queued i := by
  induction acts generalizing s with
  | nil => rfl
  | cons act acts ih =>
    obtain ⟨hended, hqueued⟩ := he.effect act
    rw [delivered_cons, ih hended, hqueued]

/-- On an active channel all that its member is told up to its end is delivered. -/
theorem Active.delivered (ha : s.Active p i) (acts : List Act) : s.delivered i acts =
    s.queued i ++ ((s.moments acts).takeWhile fun m => !m.act.ends m.ring p i).flatMap
      fun m => addressed p (m.act.notes m.ring) := by
  induction acts generalizing s with
  | nil => exact (List.append_nil _).symm
  | cons act acts ih =>
    rw [delivered_cons, moments, List.takeWhile_cons]
    cases hends : act.ends s p i with
    | true =>
      obtain ⟨hended, hqueued⟩ := ha.ended hends
      rw [hended.delivered, hqueued]
      simp
    | false =>
      obtain ⟨hactive, hqueued⟩ := ha.effect hends
      rw [ih hactive, ← List.append_assoc, hqueued]
      simp

/-! ## Receivers of other channels -/

/-- The rings differ in channel `j`, and in who has it listened to, at most. -/
structure Apart (j : Nat) (s t : Subscriptions) : Prop where
  members : t.members = s.members
  length : t.channels.length = s.channels.length
  channel : ∀ i ≠ j, t.channels[i]? = s.channels[i]?
  lookup : ∀ q, ∀ i ≠ j, t.listeners.lookup q = some i ↔ s.listeners.lookup q = some i

namespace Apart

theorem refl (j : Nat) (s : Subscriptions) : Apart j s s :=
  ⟨rfl, rfl, fun _ _ => rfl, fun _ _ _ => Iff.rfl⟩

theorem symm (h : Apart j s t) : Apart j t s :=
  ⟨h.members.symm, h.length.symm, fun i hi => (h.channel i hi).symm,
    fun q i hi => (h.lookup q i hi).symm⟩

theorem trans {u : Subscriptions} (h : Apart j s t) (h' : Apart j t u) : Apart j s u :=
  ⟨h'.members.trans h.members, h'.length.trans h.length,
    fun i hi => (h'.channel i hi).trans (h.channel i hi),
    fun q i hi => (h'.lookup q i hi).trans (h.lookup q i hi)⟩

theorem isOpen_iff (h : Apart j s t) (hi : i ≠ j) : t.IsOpen i ↔ s.IsOpen i := by
  rw [IsOpen, IsOpen, h.channel i hi]

theorem alter_self (s : Subscriptions) (j : Nat) (f : Channel → Channel) :
    Apart j s (s.alter j f) :=
  ⟨rfl, List.length_modify .., fun _ hi => channels_alter_of_ne hi.symm f, fun _ _ _ => Iff.rfl⟩

theorem alter (h : Apart j s t) (i : Nat) (f : Channel → Channel) :
    Apart j (s.alter i f) (t.alter i f) where
  members := h.members
  length := by
    rw [Subscriptions.alter, Subscriptions.alter, List.length_modify, List.length_modify]
    exact h.length
  channel k hk := by
    rw [Subscriptions.alter, Subscriptions.alter, List.getElem?_modify, List.getElem?_modify,
      h.channel k hk]
  lookup := h.lookup

theorem forget (h : Apart j s t) (q : Point) : Apart j (s.forget q) (t.forget q) where
  members := h.members
  length := h.length
  channel := h.channel
  lookup r i hi := by
    rw [Subscriptions.forget, Subscriptions.forget, lookup_filter_ne, lookup_filter_ne]
    by_cases hr : r = q
    · simp [hr]
    · simpa [hr] using h.lookup r i hi

/-- A member nobody but channel `j` listens for is forgotten. -/
theorem forget_self (hq : ∀ i ≠ j, s.listeners.lookup q ≠ some i) : Apart j s (s.forget q) where
  members := rfl
  length := rfl
  channel _ _ := rfl
  lookup r i hi := by
    rw [Subscriptions.forget, lookup_filter_ne]
    by_cases hr : r = q
    · simp [hr, hq i hi]
    · simp [hr]

/-- An event that goes to channel `j`, or to nobody, shows at no other channel. -/
theorem send_self (hq : ∀ i ≠ j, s.listeners.lookup note.1 ≠ some i) :
    Apart j s (s.send note) := by
  rcases send_cases s note with ⟨-, hs⟩ | ⟨i, hl, ⟨-, hs⟩ | ⟨-, hs⟩⟩
  · rw [hs]
    exact refl j s
  · rw [hs]
    exact forget_self hq
  · obtain rfl : i = j := by_contra fun hi => hq i hi hl
    rw [hs]
    exact alter_self s i _

theorem send (h : Apart j s t) (note : Notification) : Apart j (s.send note) (t.send note) := by
  by_cases hq : ∀ i ≠ j, s.listeners.lookup note.1 ≠ some i
  · have hq' : ∀ i ≠ j, t.listeners.lookup note.1 ≠ some i := fun i hi =>
      mt (h.lookup _ i hi).1 (hq i hi)
    exact ((send_self hq).symm.trans h).trans (send_self hq')
  · -- In both rings the event goes to the same channel, which is another one.
    push Not at hq
    obtain ⟨i, hi, hl⟩ := hq
    have hl' := (h.lookup _ i hi).2 hl
    have hs := (send_cases s note).resolve_left (by simp [hl])
    have ht := (send_cases t note).resolve_left (by simp [hl'])
    simp only [hl, hl', Option.some.injEq, exists_eq_left', h.isOpen_iff hi] at hs ht
    rcases hs with ⟨hopen, hs⟩ | ⟨hopen, hs⟩
    · rw [hs, (ht.resolve_right fun h => hopen h.1).2]
      exact h.forget _
    · rw [hs, (ht.resolve_left fun h => h.1 hopen).2]
      exact h.alter i _

theorem sendAll (h : Apart j s t) (notes : List Notification) :
    Apart j (notes.foldl Subscriptions.send s) (notes.foldl Subscriptions.send t) := by
  induction notes generalizing s t with
  | nil => exact h
  | cons note notes ih => exact ih (h.send note)

theorem withMembers (h : Apart j s t) (m : Members) :
    Apart j { s with members := m } { t with members := m } :=
  ⟨rfl, h.length, h.channel, h.lookup⟩

theorem subscribe (h : Apart j s t) (q : Point) : Apart j (s.subscribe q).2 (t.subscribe q).2 where
  members := h.members
  length := by
    rw [Subscriptions.subscribe, Subscriptions.subscribe, List.length_append, List.length_append,
      h.length]
  channel i hi := by
    rw [Subscriptions.subscribe, Subscriptions.subscribe, List.getElem?_append,
      List.getElem?_append, h.length, h.channel i hi]
  lookup r i hi := by
    have hlookup := (h.forget q).lookup r i hi
    rw [Subscriptions.subscribe, Subscriptions.subscribe, List.lookup_cons, List.lookup_cons,
      h.length]
    cases r == q with
    | true => exact Iff.rfl
    | false => exact hlookup

/-- The same act is done with both rings. -/
theorem effect (h : Apart j s t) (act : Act) : Apart j (act.effect s) (act.effect t) := by
  cases act with
  | join q =>
    show Apart j (s.join q).2 (t.join q).2
    rw [join, join, h.members]
    exact (h.withMembers _).sendAll _
  | fail q =>
    show Apart j (s.fail q).2 (t.fail q).2
    by_cases hq : q ∈ s.members
    · rw [snd_fail_of_mem hq, snd_fail_of_mem (h.members ▸ hq), fail, fail, h.members]
      exact ((h.forget q).withMembers _).sendAll _
    · rwa [fail_of_not_mem hq, fail_of_not_mem (h.members ▸ hq)]
  | subscribe q => exact h.subscribe q
  | drop i => exact h.alter i _
  | drain i => exact h.alter i _

theorem queued_eq (h : Apart j s t) (hi : i ≠ j) : t.queued i = s.queued i :=
  queued_congr (h.channel i hi)

theorem received_eq (h : Apart j s t) (hi : i ≠ j) (act : Act) :
    act.received t i = act.received s i := by
  cases act with
  | drain k =>
    rw [Act.received, Act.received]
    split_ifs with hk
    · exact hk ▸ h.queued_eq (hk ▸ hi)
    · rfl
  | _ => rfl

/-- What is delivered on a channel does not depend on whether another receiver is there. -/
theorem delivered (h : Apart j s t) (hi : i ≠ j) (acts : List Act) :
    s.delivered i acts = t.delivered i (acts.filter fun act => act ≠ .drop j) := by
  induction acts generalizing s t with
  | nil => exact (h.queued_eq hi).symm
  | cons act acts ih =>
    rw [delivered_cons]
    by_cases hact : act = .drop j
    · subst hact
      have hdrop : Apart j (s.drop j) t := (alter_self s j _).symm.trans h
      rw [List.filter_cons_of_neg (by simp)]
      exact ih hdrop
    · rw [List.filter_cons_of_pos (by simpa using hact), delivered_cons, ih (h.effect act),
        h.received_eq hi]

end Apart

/-- **What is delivered is what is addressed.** On a channel that is opened for `p` at any moment of
    a run that starts with no members come in, in this order and nothing else, the events for `p`
    of the notifications from then on, up to the moment when somebody else subscribes for `p`, the
    member `p` fails, or the receiver is dropped. And nothing that is delivered on a channel is
    changed by dropping the receiver of another one. -/
theorem delivers_addressed (before : List Act) (p : Point) (later : List Act) :
    let opened := (empty.after before).subscribe p
    opened.2.delivered opened.1 later =
        ((opened.2.moments later).takeWhile fun m => !m.act.ends m.ring p opened.1).flatMap
          (fun m => addressed p (m.act.notes m.ring)) ∧
      ∀ acts i j, i ≠ j →
        empty.delivered i acts = empty.delivered i (acts.filter fun act => act ≠ .drop j) := by
  intro opened
  have hvalid : (empty.after before).Valid := valid_after (by simp [Valid, empty]) before
  obtain ⟨hactive, hqueued⟩ := hvalid.active_subscribe p
  refine ⟨?_, fun acts i j hi => (Apart.refl j empty).delivered hi acts⟩
  rw [hactive.delivered, hqueued, List.nil_append]

/-- Somebody listens for a member and drops the receiver. -/
def sampleEarlier : List Act :=
  [.join (.ofNat 5), .subscribe (.ofNat 5), .join (.ofNat 9), .drop 0]

/-- The other member fails, and so does the first after one more has joined. -/
def sampleLater : List Act :=
  [.fail (.ofNat 9), .drain 1, .join (.ofNat 7), .fail (.ofNat 5), .join (.ofNat 5),
    .join (.ofNat 8)]

/-- A second channel for the member hears of one failure and one join, and would hear the same if
    the receiver of the first had stayed. -/
theorem delivers_addressed_sampleLater :
    let opened := (empty.after sampleEarlier).subscribe (.ofNat 5)
    let acts := sampleEarlier ++ .subscribe (.ofNat 5) :: sampleLater
    opened.1 = 1 ∧
      ((opened.2.moments sampleLater).takeWhile fun m =>
          !m.act.ends m.ring (.ofNat 5) opened.1).length = 3 ∧
      opened.2.delivered opened.1 sampleLater =
        ((opened.2.moments sampleLater).takeWhile fun m =>
          !m.act.ends m.ring (.ofNat 5) opened.1).flatMap
          (fun m => addressed (.ofNat 5) (m.act.notes m.ring)) ∧
      opened.2.delivered opened.1 sampleLater =
        [.predecessorFailed (.ofNat 9) none, .successorFailed (.ofNat 9) none,
          .newPredecessor none (.ofNat 7), .newSuccessor none (.ofNat 7)] ∧
      1 ≠ 0 ∧
      empty.delivered 1 acts = empty.delivered 1 (acts.filter fun act => act ≠ .drop 0) := by
  intro opened acts
  have hne : 1 ≠ 0 := by decide
  obtain ⟨haddressed, hapart⟩ := delivers_addressed sampleEarlier (.ofNat 5) sampleLater
  exact ⟨by decide +kernel, by decide +kernel, haddressed, by decide +kernel, hne,
    hapart acts 1 0 hne⟩

/-- The failure of a node that is no member does not end the channel opened for it. Up to that
    failure the node is told nothing, and yet, when it has joined, its channel hears of the next one
    to join. -/
theorem delivered_after_failure_of_stranger :
    let opened := empty.subscribe (.ofNat 5)
    let later : List Act := [.fail (.ofNat 5), .join (.ofNat 5), .join (.ofNat 9)]
    let upToFailure := later.takeWhile fun act =>
      act ≠ .subscribe (.ofNat 5) ∧ act ≠ .fail (.ofNat 5) ∧ act ≠ .drop opened.1
    opened.2.delivered opened.1 later ≠ (opened.2.moments upToFailure).flatMap
        (fun m => addressed (.ofNat 5) (m.act.notes m.ring)) ∧
      opened.2.delivered opened.1 later =
        [.newPredecessor none (.ofNat 9), .newSuccessor none (.ofNat 9)] := by
  decide +kernel

end ReplicaRing.Subscriptions
