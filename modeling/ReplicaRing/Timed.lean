/-!
# Work in virtual time

Work that may have to wait, on a state of type `σ`, runs in a time that only
passes while it waits. It may be guarded by deadlines, one within the other; all
that matters of them is the *cutoff*, the first instant at which one of them
fires. Work that is still waiting then is dropped where it stands: it never goes
on, and what it did to the state stays done. Work may also break off by itself;
then all work that it is a part of breaks off too, whatever the deadlines.

Work that is done at the very instant of its deadline meets it (`Timed.sleep`),
and of two deadlines at one instant the inner one fires first
(`Timed.within`), in time for what it guards to be told, and to end at that
instant too.
-/

namespace ReplicaRing

/-- What becomes of work. -/
inductive Outcome (α : Type)
  /-- It is done at `time`. -/
  | done (time : Nat) (value : α)
  /-- It was still waiting at the cutoff. -/
  | dropped
  /-- It broke off, and with it all work that it is a part of. No deadline helps
      against that. -/
  | broken
deriving Repr

/-- Work begun at `now`, to be dropped if it is still waiting at `cutoff`. -/
def Timed (σ α : Type) : Type :=
  (now : Nat) → (cutoff : Option Nat) → σ → Outcome α × σ

namespace Timed

variable {σ α β : Type}

/-- Work that is done at once. -/
def pure (a : α) : Timed σ α := fun now _ s => (.done now a, s)

/-- One piece of work after the other. -/
def bind (w : Timed σ α) (f : α → Timed σ β) : Timed σ β := fun now cutoff s =>
  match w now cutoff s with
  | (.done now a, s) => f a now cutoff s
  | (.dropped, s) => (.dropped, s)
  | (.broken, s) => (.broken, s)

instance : Monad (Timed σ) where
  pure := Timed.pure
  bind := Timed.bind

theorem pure_bind (a : α) (f : α → Timed σ β) : bind (pure a) f = f a := rfl

theorem bind_pure (w : Timed σ α) : bind w pure = w := by
  funext now cutoff s
  simp only [bind]
  split <;> simp_all [pure]

theorem bind_assoc {γ : Type} (w : Timed σ α) (f : α → Timed σ β) (g : β → Timed σ γ) :
    bind (bind w f) g = bind w fun a => bind (f a) g := by
  funext now cutoff s
  simp only [bind]
  cases w now cutoff s with
  | mk o s => cases o <;> rfl

/-- Work that takes no time. -/
def act (f : σ → α × σ) : Timed σ α := fun now _ s =>
  let (a, s) := f s
  (.done now a, s)

/-- Waits for `duration`. -/
def sleep (duration : Nat) : Timed σ Unit := fun now cutoff s =>
  match cutoff with
  | none => (.done (now + duration) (), s)
  | some c => if now + duration ≤ c then (.done (now + duration) (), s) else (.dropped, s)

/-- Waits for ever. -/
def hang : Timed σ α := fun _ _ s => (.dropped, s)

/-- Breaks off. -/
def abort : Timed σ α := fun _ _ s => (.broken, s)

/-- Work under a deadline: its value, or nothing if the deadline passes first. -/
def within (duration : Nat) (w : Timed σ α) : Timed σ (Option α) := fun now cutoff s =>
  let deadline := now + duration
  match cutoff with
  | none =>
    match w now (some deadline) s with
    | (.done time a, s) => (.done time (some a), s)
    | (.dropped, s) => (.done deadline none, s)
    | (.broken, s) => (.broken, s)
  | some c =>
    match w now (some (min deadline c)) s with
    | (.done time a, s) => (.done time (some a), s)
    | (.dropped, s) => (if deadline ≤ c then .done deadline none else .dropped, s)
    | (.broken, s) => (.broken, s)

/-- Work on a part of the state. -/
def focus {τ : Type} (get : τ → σ) (set : σ → τ → τ) (w : Timed σ α) : Timed τ α :=
  fun now cutoff t =>
    let (o, s) := w now cutoff (get t)
    (o, set s t)

/-- The work `f` for each of several things, one after the other. -/
def each (f : β → Timed σ α) : List β → Timed σ (List α)
  | [] => Timed.pure []
  | b :: bs => do
    let a ← f b
    return a :: (← each f bs)

/-- What becomes of work that is begun at instant zero under no deadline, and the
    state after it. -/
def run (w : Timed σ α) (s : σ) : Outcome α × σ := w 0 none s

end Timed

end ReplicaRing
