import Mathlib.Data.Nat.ModEq

/-!
# Circular windows

A bounded queue in an array keeps the index of its first element and the number
of its elements; the elements are the cells from the first index on, modulo the
capacity.  `window` is that list.  The two lemmas say what a write behind the
window and a step past its first cell do to it; a ring buffer that keeps
its invariant is a FIFO list by them.
-/

namespace InstantOS.Base

open Function

variable {α : Type}

/-- The `count` cells from `first` on, modulo `cap`. -/
def window (cap : Nat) (cells : Nat → α) (first count : Nat) : List α :=
  (List.range count).map fun i => cells ((first + i) % cap)

@[simp] theorem window_length (cap : Nat) (cells : Nat → α) (first count : Nat) :
    (window cap cells first count).length = count := by
  simp [window]

/-- Two places of a window are different cells. -/
theorem window_index_ne {cap first i j : Nat} (hij : i < j) (hj : j < cap) :
    (first + i) % cap ≠ (first + j) % cap := by
  intro h
  have hcancel : i % cap = j % cap := Nat.ModEq.add_left_cancel' first h
  rw [Nat.mod_eq_of_lt (hij.trans hj), Nat.mod_eq_of_lt hj] at hcancel
  omega

/-- A write into the cell behind the window appends. -/
theorem window_push {cap : Nat} (cells : Nat → α) (first : Nat) {count : Nat} (x : α)
    (hcount : count < cap) : window cap (update cells ((first + count) % cap) x) first (count + 1) =
      window cap cells first count ++ [x] := by
  rw [window, List.range_succ, List.map_append]
  congr 1
  · refine List.map_congr_left fun i hi => ?_
    rw [update_of_ne (window_index_ne (List.mem_range.mp hi) hcount)]
  · simp

/-- The window starts with its first cell and goes on from the next one. -/
theorem window_succ (cap : Nat) (cells : Nat → α) (first count : Nat) :
    window cap cells first (count + 1) =
      cells (first % cap) :: window cap cells ((first + 1) % cap) count := by
  rw [window, List.range_succ_eq_map, List.map_cons, List.map_map]
  congr 1
  refine List.map_congr_left fun i _ => ?_
  simp only [comp_apply, Nat.mod_add_mod]
  congr 2
  omega

end InstantOS.Base
