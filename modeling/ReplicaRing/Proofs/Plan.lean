/-!
# Plans

What a program does to a state that it does not have for itself, one access after the other
(`Plan`): between two accesses others may change the state, or the process may stop. An access
may go wrong (`Access.Gives`).

A function of the state is told apart into its accesses by a plan that does the same when it
is left alone (`Plan.run`). Then there is more to ask of it:

* what it comes to if accesses fail (`Plan.Ends`), and where it may be stopped (`Plan.Stops`);
* that whatever fails, something is true at its end, and something at all times
  (`Plan.Safe`). There is a rule for each way to build a plan;
* that no access leads out of an invariant, whatever the state before it (`Plan.Preserves`).
-/

namespace ReplicaRing

/-- One access to a state of type `σ`, with a reply of type `β`. -/
structure Access (σ β : Type) where
  /-- The reply and the state after it. -/
  run : σ → β × σ
  /-- The replies and states it may come to instead when it fails. A failure is `late` if the
      access takes its full effect nevertheless. -/
  fails : (late : Bool) → σ → β → σ → Prop

/-- Accesses one after the other, each chosen by the replies before. -/
inductive Plan (σ α : Type) : Type 1
  | done (a : α)
  | next {β : Type} (x : Access σ β) (k : β → Plan σ α)

variable {σ τ α β : Type}

/-- The access replies `b` and leaves the state `s'`; late failures count if `late` says so. -/
def Access.Gives (x : Access σ β) (late : Bool) (s : σ) (b : β) (s' : σ) : Prop :=
  x.run s = (b, s') ∨ x.fails late s b s'

namespace Plan

/-- One plan after the other. -/
def bind : Plan σ α → (α → Plan σ β) → Plan σ β
  | done a, f => f a
  | next x k, f => next x fun b => bind (k b) f

instance : Monad (Plan σ) where
  pure := done
  bind := bind

/-- The plan of a single access. -/
def access (x : Access σ β) : Plan σ β := next x done

/-- The plan of a single access that cannot fail. -/
def act (f : σ → β × σ) : Plan σ β := access ⟨f, fun _ _ _ _ => False⟩

/-- Looks at the state. -/
def ask (f : σ → β) : Plan σ β := act fun s => (f s, s)

/-- Changes the state. -/
def touch (f : σ → σ) : Plan σ Unit := act fun s => ((), f s)

/-- What comes of a plan that is left alone. -/
def run : Plan σ α → σ → α × σ
  | done a, s => (a, s)
  | next x k, s => run (k (x.run s).1) (x.run s).2

@[simp] theorem run_pure (a : α) (s : σ) : (pure a : Plan σ α).run s = (a, s) := rfl

@[simp] theorem run_bind (p : Plan σ α) (f : α → Plan σ β) (s : σ) :
    (p >>= f).run s = (f (p.run s).1).run (p.run s).2 := by
  induction p generalizing s with
  | done a => rfl
  | next x k ih => exact ih _ _

@[simp] theorem run_access (x : Access σ β) (s : σ) : (access x).run s = x.run s := rfl

@[simp] theorem run_act (f : σ → β × σ) (s : σ) : (act f).run s = f s := rfl

@[simp] theorem run_ask (f : σ → β) (s : σ) : (ask f).run s = (f s, s) := rfl

@[simp] theorem run_touch (f : σ → σ) (s : σ) : (touch f).run s = ((), f s) := rfl

/-! ## Failures -/

/-- What a plan may come to. -/
inductive Ends (late : Bool) : Plan σ α → σ → α → σ → Prop
  | done {a : α} {s : σ} : Ends late (done a) s a s
  | next {β : Type} {x : Access σ β} {k : β → Plan σ α} {s s₁ s' : σ} {b : β} {a : α}
      (hx : x.Gives late s b s₁) (h : Ends late (k b) s₁ a s') : Ends late (next x k) s a s'

/-- What a plan may leave behind if it is stopped. -/
inductive Stops (late : Bool) : Plan σ α → σ → σ → Prop
  | here {p : Plan σ α} {s : σ} : Stops late p s s
  | next {β : Type} {x : Access σ β} {k : β → Plan σ α} {s s₁ s' : σ} {b : β}
      (hx : x.Gives late s b s₁) (h : Stops late (k b) s₁ s') : Stops late (next x k) s s'

/-- Left alone, a plan comes to its end. -/
theorem ends_run (late : Bool) (p : Plan σ α) (s : σ) :
    Ends late p s (p.run s).1 (p.run s).2 := by
  induction p generalizing s with
  | done a => exact .done
  | next x k ih => exact .next (.inl rfl) (ih _ _)

/-- A plan ends, and then the one that comes next. -/
theorem Ends.bind {late : Bool} {p : Plan σ β} {f : β → Plan σ α} {s s₁ s' : σ} {b : β} {a : α}
    (h : Ends late p s b s₁) (h' : Ends late (f b) s₁ a s') : Ends late (p >>= f) s a s' := by
  induction h with
  | done => exact h'
  | next hx _ ih => exact .next hx (ih h')

/-- Whatever fails, `post` is true when the plan ends, and `always` all the time. -/
structure Safe (late : Bool) (always : σ → Prop) (post : α → σ → Prop) (p : Plan σ α)
    (s : σ) : Prop where
  ends : ∀ a s', Ends late p s a s' → post a s'
  stops : ∀ s', Stops late p s s' → always s'

variable {late : Bool} {always always' : σ → Prop} {post post' : α → σ → Prop}
  {mid : β → σ → Prop} {p : Plan σ α} {s : σ}

theorem Safe.mono (h : Safe late always post p s) (ha : ∀ s, always s → always' s)
    (hp : ∀ a s, post a s → post' a s) : Safe late always' post' p s :=
  ⟨fun a s' he => hp a s' (h.ends a s' he), fun s' hs => ha s' (h.stops s' hs)⟩

theorem Safe.and (h : Safe late always post p s) (h' : Safe late always' post' p s) :
    Safe late (fun s => always s ∧ always' s) (fun a s => post a s ∧ post' a s) p s :=
  ⟨fun a s' he => ⟨h.ends a s' he, h'.ends a s' he⟩,
    fun s' hs => ⟨h.stops s' hs, h'.stops s' hs⟩⟩

theorem safe_pure {a : α} (ha : always s) (hp : post a s) : Safe late always post (pure a) s := by
  refine ⟨fun b s' he => ?_, fun s' hs => ?_⟩
  · cases he
    exact hp
  · cases hs
    exact ha

/-- A plan that begins with an access goes on from whatever that gives. -/
theorem safe_next {x : Access σ β} {k : β → Plan σ α} (ha : always s)
    (hk : ∀ b s', x.Gives late s b s' → Safe late always post (k b) s') :
    Safe late always post (next x k) s := by
  refine ⟨fun a s' he => ?_, fun s' hs => ?_⟩
  · cases he with
    | next hx h => exact (hk _ _ hx).ends _ _ h
  · cases hs with
    | here => exact ha
    | next hx h => exact (hk _ _ hx).stops _ h

theorem safe_access {x : Access σ α} (ha : always s)
    (hx : ∀ a s', x.Gives late s a s' → always s' ∧ post a s') :
    Safe late always post (access x) s :=
  safe_next ha fun a s' h => safe_pure (hx a s' h).1 (hx a s' h).2

/-- What is true all the time is true at the end. -/
theorem Safe.bind {q : Plan σ β} {f : β → Plan σ α} (h : Safe late always mid q s)
    (hf : ∀ b s', mid b s' → always s' → Safe late always post (f b) s') :
    Safe late always post (q >>= f) s := by
  induction q generalizing s with
  | done b => exact hf b s (h.ends b s .done) (h.stops s .here)
  | next x k ih =>
    refine safe_next (h.stops s .here) fun b s' hx => ih b ?_
    exact ⟨fun b' s'' he => h.ends b' s'' (.next hx he), fun s'' hs => h.stops s'' (.next hx hs)⟩

theorem Safe.map {q : Plan σ β} {f : β → α} (h : Safe late always mid q s)
    (hf : ∀ b s', mid b s' → post (f b) s') : Safe late always post (q >>= fun b => pure (f b)) s :=
  h.bind fun b s' hb ha => safe_pure ha (hf b s' hb)

/-- What comes after an access goes on from whatever that gives. -/
theorem safe_access_bind {x : Access σ β} {f : β → Plan σ α} (ha : always s)
    (hf : ∀ b s', x.Gives late s b s' → Safe late always post (f b) s') :
    Safe late always post (access x >>= f) s :=
  safe_next ha hf

/-- What comes after an access that cannot fail goes on from what it does. -/
theorem safe_act_bind {g : σ → β × σ} {f : β → Plan σ α} (ha : always s)
    (hf : Safe late always post (f (g s).1) (g s).2) : Safe late always post (act g >>= f) s := by
  refine safe_access_bind ha fun b s' h => ?_
  rcases h with h | h
  · obtain ⟨rfl, rfl⟩ := Prod.mk.inj h
    exact hf
  · exact h.elim

theorem safe_ask_bind {g : σ → β} {f : β → Plan σ α} (hf : Safe late always post (f (g s)) s) :
    Safe late always post (ask g >>= f) s :=
  safe_act_bind (hf.stops s .here) hf

/-! ## Invariants -/

/-- Whatever is replied and whatever fails, no access of the plan leads out of `I`. -/
def Preserves (I : σ → Prop) : Plan σ α → Prop
  | done _ => True
  | next x k => (∀ late s b s', I s → x.Gives late s b s' → I s') ∧ ∀ b, (k b).Preserves I

variable {I : σ → Prop}

theorem preserves_pure (a : α) : (pure a : Plan σ α).Preserves I := trivial

theorem Preserves.bind {q : Plan σ β} {f : β → Plan σ α} (h : q.Preserves I)
    (hf : ∀ b, (f b).Preserves I) : (q >>= f).Preserves I := by
  induction q with
  | done b => exact hf b
  | next x k ih => exact ⟨h.1, fun b => ih b (h.2 b)⟩

theorem preserves_access {x : Access σ α}
    (h : ∀ late s a s', I s → x.Gives late s a s' → I s') : (access x).Preserves I :=
  ⟨h, fun _ => trivial⟩

theorem preserves_act {g : σ → α × σ} (h : ∀ s, I s → I (g s).2) : (act g).Preserves I := by
  refine preserves_access fun late s a s' hs hx => ?_
  rcases hx with hx | hx
  · obtain ⟨-, rfl⟩ := Prod.mk.inj hx
    exact h s hs
  · exact hx.elim

theorem preserves_ask (g : σ → α) : (ask g).Preserves I := preserves_act fun _ => id

/-- A plan that preserves an invariant is safe for it. -/
theorem Preserves.safe (h : p.Preserves I) (hs : I s) : Safe late I (fun _ => I) p s := by
  induction p generalizing s with
  | done a => exact safe_pure hs hs
  | next x k ih => exact safe_next hs fun b s' hx => ih b (h.2 b) (h.1 _ _ _ _ hs hx)

end Plan

/-! ## Plans for a part of the state -/

/-- A part of a state, which can be looked at and replaced. -/
structure Focus (σ τ : Type) where
  get : σ → τ
  set : τ → σ → σ
  get_set : ∀ t s, get (set t s) = t
  set_get : ∀ s, set (get s) s = s
  set_set : ∀ t t' s, set t' (set t s) = set t' s

/-- The access to a state that an access to a part of it is. -/
def Access.within (x : Access τ β) (v : Focus σ τ) : Access σ β where
  run s := ((x.run (v.get s)).1, v.set (x.run (v.get s)).2 s)
  fails late s b s' := ∃ t, x.fails late (v.get s) b t ∧ s' = v.set t s

theorem Access.gives_within {x : Access τ β} {v : Focus σ τ} {late : Bool} {s s' : σ} {b : β}
    (h : (x.within v).Gives late s b s') : ∃ t, x.Gives late (v.get s) b t ∧ s' = v.set t s := by
  rcases h with h | ⟨t, h, rfl⟩
  · obtain ⟨rfl, rfl⟩ := Prod.mk.inj h
    exact ⟨_, .inl rfl, rfl⟩
  · exact ⟨t, .inr h, rfl⟩

namespace Plan

/-- The plan for a state that a plan for a part of it is. -/
def within (v : Focus σ τ) : Plan τ α → Plan σ α
  | done a => done a
  | next x k => next (x.within v) fun b => within v (k b)

variable (v : Focus σ τ)

theorem run_within (p : Plan τ α) (s : σ) :
    (p.within v).run s = ((p.run (v.get s)).1, v.set (p.run (v.get s)).2 s) := by
  induction p generalizing s with
  | done a => exact Prod.ext rfl (v.set_get s).symm
  | next x k ih =>
    rw [within, run, ih, run, Access.within, v.get_set, v.set_set]

/-- What comes of the part comes of the state, of which only the part changes. -/
theorem Ends.within {late : Bool} {p : Plan τ α} {s : σ} {t : τ} {a : α}
    (h : Ends late p (v.get s) a t) : Ends late (p.within v) s a (v.set t s) := by
  generalize ht : v.get s = t₀ at h
  induction h generalizing s with
  | done =>
    rw [← ht, v.set_get]
    exact .done
  | @next _ x _ _ t₁ _ b _ hx _ ih =>
    have hgives : (x.within v).Gives late s b (v.set t₁ s) := by
      rw [← ht] at hx
      refine hx.imp (fun hx => ?_) fun hx => ⟨t₁, hx, rfl⟩
      show ((x.run (v.get s)).1, v.set (x.run (v.get s)).2 s) = _
      rw [hx]
    have hrest := ih (s := v.set t₁ s) (v.get_set t₁ s)
    rw [v.set_set] at hrest
    exact .next hgives hrest

/-- What is safe for the part is safe for the state, of which only the part changes. -/
theorem safe_within {late : Bool} {always : τ → Prop} {post : α → τ → Prop} {p : Plan τ α} {s : σ}
    (h : Safe late always post p (v.get s)) :
    Safe late (fun s' => ∃ t, always t ∧ s' = v.set t s)
      (fun a s' => ∃ t, post a t ∧ s' = v.set t s) (p.within v) s := by
  induction p generalizing s with
  | done a =>
    exact safe_pure ⟨_, h.stops _ .here, (v.set_get s).symm⟩ ⟨_, h.ends _ _ .done, (v.set_get s).symm⟩
  | next x k ih =>
    refine safe_next ⟨_, h.stops _ .here, (v.set_get s).symm⟩ fun b s' hx => ?_
    obtain ⟨t, hg, rfl⟩ := Access.gives_within hx
    have ht : Safe late always post (k b) (v.get (v.set t s)) := by
      rw [v.get_set]
      exact ⟨fun a s he => h.ends a s (.next hg he), fun s hs => h.stops s (.next hg hs)⟩
    have := ih b ht
    simp only [v.set_set] at this
    exact this

/-- What does not go by the part is preserved by whatever is done to it. -/
theorem preserves_within {I : σ → Prop} (h : ∀ t s, I s → I (v.set t s)) (p : Plan τ α) :
    (p.within v).Preserves I := by
  induction p with
  | done a => exact preserves_pure a
  | next x k ih =>
    refine ⟨fun late s b s' hs hx => ?_, ih⟩
    obtain ⟨t, -, rfl⟩ := Access.gives_within hx
    exact h t s hs

/-- A plan for the part preserves of the state what it preserves of the part. -/
theorem Preserves.within {I : τ → Prop} {p : Plan τ α} (h : p.Preserves I) :
    (p.within v).Preserves fun s => I (v.get s) := by
  induction p with
  | done a => exact preserves_pure a
  | next x k ih =>
    refine ⟨fun late s b s' hs hx => ?_, fun b => ih b (h.2 b)⟩
    obtain ⟨t, hg, rfl⟩ := Access.gives_within hx
    rw [v.get_set]
    exact h.1 _ _ _ _ hs hg

end Plan

end ReplicaRing
