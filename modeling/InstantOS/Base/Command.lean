import Mathlib.Tactic.Common

/-!
# Commands with early return

A command changes a state and may return early.  An early return keeps the
state as it is at that point: nothing is rolled back, so the effects of the
statements before the return stay visible to the caller.

`Ends` gives a command a postcondition for the normal end and one for the
early return, and the rules below follow the shape of the command.
-/

namespace InstantOS

/-- A command on states `σ`: `none` stands for an early return. -/
def Cmd (σ α : Type) : Type := σ → Option α × σ

namespace Cmd

variable {σ α β : Type}

protected def ret (a : α) : Cmd σ α := fun s => (some a, s)

protected def andThen (c : Cmd σ α) (f : α → Cmd σ β) : Cmd σ β := fun s =>
  match c s with
  | (some a, t) => f a t
  | (none, t) => (none, t)

instance : Monad (Cmd σ) where
  pure := Cmd.ret
  bind := Cmd.andThen

/-- Return early. -/
def stop : Cmd σ α := fun s => (none, s)

/-- Read a value off the state. -/
def read (f : σ → α) : Cmd σ α := fun s => (some (f s), s)

/-- Replace the state. -/
def update (f : σ → σ) : Cmd σ Unit := fun s => (some (), f s)

/-- Go on only if `b` holds. -/
def require (b : Bool) : Cmd σ Unit := if b then Cmd.ret () else stop

/-- The state a command ends in, whether it returned early or not. -/
def exec (c : Cmd σ α) (s : σ) : σ := (c s).2

/-- `c` from `s` ends normally in `Q` or returns early in `R`. -/
def Ends (c : Cmd σ α) (s : σ) (Q : α → σ → Prop) (R : σ → Prop) : Prop :=
  match c s with
  | (some a, t) => Q a t
  | (none, t) => R t

variable {s : σ} {Q Q' : α → σ → Prop} {R R' : σ → Prop}

theorem ends_pure {a : α} (h : Q a s) : Ends (pure a : Cmd σ α) s Q R := h

theorem ends_update {f : σ → σ} {Q : Unit → σ → Prop} (h : Q () (f s)) : Ends (update f) s Q R := h

variable {c : Cmd σ α}

/-- The rule for two commands in sequence. -/
theorem ends_bind {f : α → Cmd σ β} {Q : β → σ → Prop}
    (h : Ends c s (fun a t => Ends (f a) t Q R) R) : Ends (c >>= f) s Q R := by
  show Ends (Cmd.andThen c f) s Q R
  unfold Ends Cmd.andThen at *
  cases hc : c s with
  | mk o t =>
    rw [hc] at h
    cases o with
    | none | some => exact h

/-- Commands in sequence may be grouped from the left. -/
theorem ends_bind_left {γ : Type} {f : α → Cmd σ β} {g : β → Cmd σ γ}
    {Q : γ → σ → Prop} (h : Ends ((c >>= f) >>= g) s Q R) :
    Ends (c >>= fun a => f a >>= g) s Q R := by
  have hassoc : ((c >>= f) >>= g) s = (c >>= fun a => f a >>= g) s := by
    show Cmd.andThen (Cmd.andThen c f) g s = Cmd.andThen c (fun a => Cmd.andThen (f a) g) s
    unfold Cmd.andThen
    cases c s with
    | mk o t =>
      cases o with
      | none => rfl
      | some a => rfl
  unfold Ends at *
  rw [← hassoc]
  exact h

theorem ends_read_bind {f : σ → α} {g : α → Cmd σ β} {Q : β → σ → Prop}
    (h : Ends (g (f s)) s Q R) : Ends (read f >>= g) s Q R := h

theorem ends_update_bind {f : σ → σ} {g : Unit → Cmd σ β} {Q : β → σ → Prop}
    (h : Ends (g ()) (f s) Q R) : Ends (update f >>= g) s Q R := h

theorem ends_require_bind {b : Bool} {g : Unit → Cmd σ β} {Q : β → σ → Prop}
    (ht : b → Ends (g ()) s Q R) (hf : b = false → R s) : Ends (require b >>= g) s Q R := by
  cases b with
  | true => exact ht rfl
  | false => exact hf rfl

theorem ends_ite {b : Prop} [Decidable b] {c d : Cmd σ α} (ht : b → Ends c s Q R)
    (hf : ¬ b → Ends d s Q R) : Ends (if b then c else d) s Q R := by
  split
  · rename_i h
    exact ht h
  · rename_i h
    exact hf h

theorem Ends.mono (h : Ends c s Q R) (hQ : ∀ a t, Q a t → Q' a t)
    (hR : ∀ t, R t → R' t) : Ends c s Q' R' := by
  unfold Ends at *
  cases hc : c s with
  | mk o t =>
    rw [hc] at h
    cases o with
    | none => exact hR t h
    | some a => exact hQ a t h

/-- What holds at both ends holds of the state the command leaves. -/
theorem Ends.exec {P : σ → Prop} (h : Ends c s (fun _ t => P t) P) : P (c.exec s) := by
  unfold Ends at h
  unfold Cmd.exec
  cases hc : c s with
  | mk o t =>
    rw [hc] at h
    cases o with
    | none | some => exact h

end Cmd

end InstantOS
