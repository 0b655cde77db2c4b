import Mathlib.Tactic.Common

/-!
# Computations that return

A loop of the source that might not end is a computation in `Option`, with `none` for the
run that does not come back.  `Returns r Q` says that it does come back, and with what; the
rules follow the shape of the computation.
-/

namespace InstantOS

variable {α β : Type}

/-- The computation returns, and its result satisfies `Q`. -/
def Returns (r : Option α) (Q : α → Prop) : Prop := ∃ a, r = some a ∧ Q a

variable {r : Option α} {Q Q' : α → Prop}

theorem returns_some {a : α} (h : Q a) : Returns (some a) Q := ⟨a, rfl, h⟩

/-- The rule for an early return. -/
theorem returns_unless {a : α} {c : Prop} [Decidable c] (h : Q a) (hgo : ¬ c → Returns r Q) :
    Returns (if c then some a else r) Q := by
  by_cases hc : c
  · rw [if_pos hc]
    exact returns_some h
  · rw [if_neg hc]
    exact hgo hc

theorem returns_pure {a : α} (h : Q a) : Returns (pure a) Q := ⟨a, rfl, h⟩

theorem Returns.mono (h : Returns r Q) (hQ : ∀ a, Q a → Q' a) : Returns r Q' := by
  obtain ⟨a, ha, hq⟩ := h
  exact ⟨a, ha, hQ a hq⟩

theorem Returns.bind {f : α → Option β} {Q' : β → Prop} (h : Returns r Q)
    (hf : ∀ a, Q a → Returns (f a) Q') : Returns (r >>= f) Q' := by
  obtain ⟨a, rfl, hq⟩ := h
  exact hf a hq

theorem Returns.map {f : α → β} {Q' : β → Prop} (h : Returns r Q) (hf : ∀ a, Q a → Q' (f a)) :
    Returns (r.map f) Q' := by
  obtain ⟨a, rfl, hq⟩ := h
  exact ⟨f a, rfl, hf a hq⟩

theorem Returns.of_eq (h : Returns r Q) {a : α} (ha : r = some a) : Q a := by
  obtain ⟨b, hb, hq⟩ := h
  cases hb.symm.trans ha
  exact hq

/-- The invariant rule for a loop over a list. -/
theorem returns_foldlM {f : β → α → Option β} {I : β → Prop} {l : List α} {b : β} (hb : I b)
    (hturn : ∀ b a, a ∈ l → I b → Returns (f b a) I) : Returns (l.foldlM f b) I := by
  induction l generalizing b with
  | nil => exact returns_pure hb
  | cons a l ih =>
    exact (hturn b a List.mem_cons_self hb).bind fun b' hb' =>
      ih hb' fun b a ha => hturn b a (List.mem_cons_of_mem _ ha)

end InstantOS
