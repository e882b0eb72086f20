import ReplicaRing.Proofs.Plan

/-!
# Plans among others

A thread goes through its plan one access at a time, and in between others do the same. What
it can rely on is said by a protocol (`Protocol`): how the others may change the world, and how
the thread may change it for them.

A plan is *right* (`Protocol.Right`) if each of its accesses, in every sound world that the
others may leave it, keeps to the protocol and leaves the rest of the plan right. It is enough to
show so with the rules for the ways to build a plan.
-/

namespace ReplicaRing

/-- What the threads that work on a state of type `σ` have agreed on. A world of type `ω` has
    such a state and what is only thought of. -/
structure Protocol (σ ω : Type) where
  state : ω → σ
  /-- What is always true. -/
  sound : ω → Prop
  /-- What the others may do. -/
  rely : ω → ω → Prop
  /-- What the thread may do. -/
  guar : ω → ω → Prop
  rely_refl : ∀ w, rely w w
  rely_trans : ∀ {w₁ w₂ w₃}, rely w₁ w₂ → rely w₂ w₃ → rely w₁ w₃

namespace Protocol

variable {σ ω α β : Type} (P : Protocol σ ω)

/-- Whatever the others do in between, each access of the plan keeps to the protocol, and `post`
    is true after the last of them. -/
def Right (post : α → ω → Prop) : Plan σ α → ω → Prop
  | .done a, w => post a w
  | .next x k, w => ∀ w₁, P.sound w₁ → P.rely w w₁ → ∃ w₂,
      P.state w₂ = (x.run (P.state w₁)).2 ∧ P.sound w₂ ∧ P.guar w₁ w₂ ∧
        Right post (k (x.run (P.state w₁)).1) w₂

variable {P} {post post' : α → ω → Prop} {mid : β → ω → Prop} {p : Plan σ α} {w w' : ω}

theorem right_pure {a : α} (h : post a w) : P.Right post (pure a) w := h

theorem right_access_bind {x : Access σ β} {f : β → Plan σ α}
    (h : ∀ w₁, P.sound w₁ → P.rely w w₁ → ∃ w₂, P.state w₂ = (x.run (P.state w₁)).2 ∧
      P.sound w₂ ∧ P.guar w₁ w₂ ∧ P.Right post (f (x.run (P.state w₁)).1) w₂) :
    P.Right post (Plan.access x >>= f) w :=
  h

/-- The plan that comes next begins in the world that the one before leaves. -/
theorem Right.bind {q : Plan σ β} {f : β → Plan σ α} (h : P.Right mid q w) (hs : P.sound w)
    (hf : ∀ b w', P.sound w' → mid b w' → P.Right post (f b) w') : P.Right post (q >>= f) w := by
  induction q generalizing w with
  | done b => exact hf b w hs h
  | next x k ih =>
    intro w₁ hs₁ hr
    obtain ⟨w₂, hst, hs₂, hg, h₂⟩ := h w₁ hs₁ hr
    exact ⟨w₂, hst, hs₂, hg, ih _ h₂ hs₂⟩

theorem Right.mono (h : P.Right post p w) (hp : ∀ a w, post a w → post' a w) :
    P.Right post' p w := by
  induction p generalizing w with
  | done a => exact hp a w h
  | next x k ih =>
    intro w₁ hs₁ hr
    obtain ⟨w₂, hst, hs₂, hg, h₂⟩ := h w₁ hs₁ hr
    exact ⟨w₂, hst, hs₂, hg, ih _ h₂⟩

/-- What neither the others nor the thread can make untrue is true at the end. -/
theorem Right.remember (h : P.Right post p w) {fact : ω → Prop} (hw : fact w)
    (hr : ∀ w₁ w₂, fact w₁ → P.rely w₁ w₂ → fact w₂)
    (hg : ∀ w₁ w₂, fact w₁ → P.guar w₁ w₂ → fact w₂) :
    P.Right (fun a w => post a w ∧ fact w) p w := by
  induction p generalizing w with
  | done a => exact ⟨h, hw⟩
  | next x k ih =>
    intro w₁ hs₁ hrely
    obtain ⟨w₂, hst, hs₂, hguar, h₂⟩ := h w₁ hs₁ hrely
    exact ⟨w₂, hst, hs₂, hguar, ih _ h₂ (hg _ _ (hr _ _ hw hrely) hguar)⟩

/-- A plan stays right while the others go on. -/
theorem Right.rely (h : P.Right post p w) (hr : P.rely w w')
    (hpost : ∀ a, post a w → post a w') : P.Right post p w' := by
  cases p with
  | done a => exact hpost a h
  | next x k => exact fun w₁ hs₁ hr₁ => h w₁ hs₁ (P.rely_trans hr hr₁)

end Protocol

end ReplicaRing
