import ReplicaRing.Timed

/-!
# What becomes of work

Work is *prompt* (`Timed.Prompt`) if it never waits: it is done at the instant it is begun,
under any deadline that has not passed. Without delays and failures everything the nodes of a
ring do is prompt, so that deadlines do not matter.

Of work that may wait, and be dropped while it does, or break off, little can be said but what
holds however long it takes and whether or not it comes to its end (`Timed.Ensures`). There is a rule for each way to
build work.

Two pieces of work may come to the same, wherever they differ (`Timed.Alike`).

If it is known when work is begun and when it is to be dropped, it is known what becomes of it.
There is an equation for each way that can go.
-/

namespace ReplicaRing

/-- The value of work, if it is done. -/
def Outcome.value? {α : Type} : Outcome α → Option α
  | .done _ a => some a
  | .dropped => none
  | .broken => none

namespace Timed

variable {σ α β : Type}

/-- The cutoff has not passed. -/
def Open (now : Nat) (cutoff : Option Nat) : Prop := ∀ c, cutoff = some c → now ≤ c

/-- The work turns the state `s` into `s'` at once, and its value is `a`. -/
def Prompt (w : Timed σ α) (s : σ) (a : α) (s' : σ) : Prop :=
  ∀ now cutoff, Open now cutoff → w now cutoff s = (.done now a, s')

variable {w : Timed σ α} {f : α → Timed σ β} {s s' s'' : σ} {a : α} {b : β}

theorem prompt_pure (a : α) (s : σ) : Prompt (Pure.pure a : Timed σ α) s a s := fun _ _ _ => rfl

theorem Prompt.bind (h : Prompt w s a s') (h' : Prompt (f a) s' b s'') :
    Prompt (w >>= f) s b s'' := by
  intro now cutoff ho
  simp only [Bind.bind, Timed.bind, h now cutoff ho]
  exact h' now cutoff ho

theorem prompt_act (g : σ → α × σ) (s : σ) : Prompt (act g) s (g s).1 (g s).2 := fun _ _ _ => rfl

/-- To wait for no time is not to wait. -/
theorem prompt_sleep_zero (s : σ) : Prompt (sleep 0) s () s := by
  intro now cutoff ho
  cases cutoff with
  | none => rfl
  | some c =>
    show (if now + 0 ≤ c then (Outcome.done (now + 0) (), s) else (.dropped, s)) = _
    rw [Nat.add_zero, if_pos (ho c rfl)]

/-- Prompt work meets every deadline. -/
theorem Prompt.within (h : Prompt w s a s') (duration : Nat) :
    Prompt (within duration w) s (some a) s' := by
  intro now cutoff ho
  cases cutoff with
  | none =>
    have hw := h now (some (now + duration)) fun c hc => by
      cases hc
      omega
    simp only [Timed.within, hw]
  | some c =>
    have hw := h now (some (min (now + duration) c)) fun c' hc => by
      cases hc
      have := ho c rfl
      omega
    simp only [Timed.within, hw]

/-- Prompt pieces of work, one after the other, are prompt. -/
theorem prompt_each_cons {g : β → Timed σ α} {bs : List β} {as : List α}
    (h : Prompt (g b) s a s') (h' : Prompt (each g bs) s' as s'') :
    Prompt (each g (b :: bs)) s (a :: as) s'' :=
  h.bind (h'.bind (prompt_pure (a :: as) s''))

/-! ## Work that may be dropped or break off -/

/-- Whenever the work is begun in the state `s`, and whenever it is dropped, `post` holds of its
    value, if it is done, and of the state that it leaves. There is no value if it was dropped or
    broke off. -/
def Ensures (w : Timed σ α) (s : σ) (post : Option α → σ → Prop) : Prop :=
  ∀ now cutoff, post (w now cutoff s).1.value? (w now cutoff s).2

variable {mid : Option α → σ → Prop} {post : Option β → σ → Prop}

theorem ensures_pure (h : post (some b) s) : Ensures (Pure.pure b : Timed σ β) s post :=
  fun _ _ => h

theorem ensures_act {g : σ → β × σ} (h : post (some (g s).1) (g s).2) : Ensures (act g) s post :=
  fun _ _ => h

/-- What takes no time cannot be dropped. -/
theorem ensures_act_bind {g : σ → α × σ} (h : Ensures (f (g s).1) (g s).2 post) :
    Ensures (act g >>= f) s post := h

theorem ensures_sleep {post : Option Unit → σ → Prop} (duration : Nat) (hdone : post (some ()) s)
    (hdropped : post none s) : Ensures (sleep duration) s post := by
  intro now cutoff
  cases cutoff with
  | none => exact hdone
  | some c =>
    simp only [sleep]
    split
    · exact hdone
    · exact hdropped

theorem ensures_hang (h : post none s) : Ensures (hang : Timed σ β) s post :=
  fun _ _ => h

theorem ensures_abort (h : post none s) : Ensures (abort : Timed σ β) s post :=
  fun _ _ => h

/-- Work that is dropped or breaks off is not followed by any other. -/
theorem Ensures.bind (h : Ensures w s mid)
    (hdone : ∀ a s', mid (some a) s' → Ensures (f a) s' post)
    (hdropped : ∀ s', mid none s' → post none s') : Ensures (w >>= f) s post := by
  intro now cutoff
  have hw := h now cutoff
  simp only [Bind.bind, Timed.bind]
  cases hr : w now cutoff s with
  | mk o s' =>
    rw [hr] at hw
    cases o with
    | done time a => exact hdone a s' hw time cutoff
    | dropped => exact hdropped s' hw
    | broken => exact hdropped s' hw

/-- Work that is dropped at its own deadline is done for others, without a value. -/
theorem Ensures.within {post : Option (Option α) → σ → Prop} (h : Ensures w s mid)
    (duration : Nat) (hdone : ∀ a s', mid (some a) s' → post (some (some a)) s')
    (hlate : ∀ s', mid none s' → post (some none) s')
    (hdropped : ∀ s', mid none s' → post none s') : Ensures (within duration w) s post := by
  intro now cutoff
  have hout : ∀ c, mid (w now (some c) s).1.value? (w now (some c) s).2 := fun c => h now (some c)
  cases cutoff with
  | none =>
    have hw := hout (now + duration)
    rw [Timed.within]
    cases hr : w now (some (now + duration)) s with
    | mk o s' =>
      rw [hr] at hw
      cases o with
      | done time a => exact hdone a s' hw
      | dropped => exact hlate s' hw
      | broken => exact hdropped s' hw
  | some c =>
    have hw := hout (min (now + duration) c)
    rw [Timed.within]
    cases hr : w now (some (min (now + duration) c)) s with
    | mk o s' =>
      rw [hr] at hw
      cases o with
      | done time a => exact hdone a s' hw
      -- Whose deadline is over first, its own or that of the work around it?
      | dropped =>
        dsimp only
        split
        · exact hlate s' hw
        · exact hdropped s' hw
      | broken => exact hdropped s' hw

/-! ## Work that comes to the same -/

/-- The same becomes of both, whenever they are begun in the state `s` and whenever they are
    dropped. -/
def Alike (w w' : Timed σ α) (s : σ) : Prop := ∀ now cutoff, w now cutoff s = w' now cutoff s

variable {w' : Timed σ α} {f' : α → Timed σ β}

theorem alike_refl (w : Timed σ α) (s : σ) : Alike w w s := fun _ _ => rfl

theorem Alike.bind (h : Alike w w' s) (f : α → Timed σ β) : Alike (w >>= f) (w' >>= f) s := by
  intro now cutoff
  simp only [Bind.bind, Timed.bind, h now cutoff]

/-- After the same work it matters only what may come of that. -/
theorem alike_bind (h : Ensures w s mid)
    (hdone : ∀ a s', mid (some a) s' → Alike (f a) (f' a) s') :
    Alike (w >>= f) (w >>= f') s := by
  intro now cutoff
  have hw := h now cutoff
  simp only [Bind.bind, Timed.bind]
  cases hr : w now cutoff s with
  | mk o s' =>
    rw [hr] at hw
    cases o with
    | done time a => exact hdone a s' hw time cutoff
    | dropped => rfl
    | broken => rfl

theorem alike_act_bind {g : σ → α × σ} (h : Alike (f (g s).1) (f' (g s).1) (g s).2) :
    Alike (act g >>= f) (act g >>= f') s := h

theorem Alike.within (h : Alike w w' s) (duration : Nat) :
    Alike (within duration w) (within duration w') s := by
  intro now cutoff
  cases cutoff <;> simp only [Timed.within, h now]

/-! ## Work whose time is known -/

variable {now time c : Nat} {cutoff : Option Nat}

theorem bind_of_done (h : w now cutoff s = (.done time a, s')) :
    (w >>= f) now cutoff s = f a time cutoff s' := by
  simp only [Bind.bind, Timed.bind, h]

theorem bind_of_dropped (h : w now cutoff s = (.dropped, s')) :
    (w >>= f) now cutoff s = (.dropped, s') := by
  simp only [Bind.bind, Timed.bind, h]

theorem bind_of_broken (h : w now cutoff s = (.broken, s')) :
    (w >>= f) now cutoff s = (.broken, s') := by
  simp only [Bind.bind, Timed.bind, h]

theorem sleep_of_le {duration : Nat} (h : now + duration ≤ c) (s : σ) :
    sleep duration now (some c) s = (.done (now + duration) (), s) := if_pos h

theorem sleep_of_lt {duration : Nat} (h : c < now + duration) (s : σ) :
    sleep duration now (some c) s = (.dropped, s) := if_neg (Nat.not_le.2 h)

/-- Work that is done before the first deadline meets its own. -/
theorem within_of_done {duration : Nat}
    (h : w now (some (min (now + duration) c)) s = (.done time a, s')) :
    within duration w now (some c) s = (.done time (some a), s') := by
  simp only [within, h]

/-- Of work that is not, it matters whose deadline is the first. -/
theorem within_of_dropped {duration : Nat}
    (h : w now (some (min (now + duration) c)) s = (.dropped, s')) :
    within duration w now (some c) s =
      (if now + duration ≤ c then .done (now + duration) none else .dropped, s') := by
  simp only [within, h]

/-- There is no other deadline. -/
theorem within_none_of_done {duration : Nat}
    (h : w now (some (now + duration)) s = (.done time a, s')) :
    within duration w now none s = (.done time (some a), s') := by
  simp only [within, h]

end Timed

end ReplicaRing
