import Mathlib.Algebra.Ring.Nat
import Mathlib.Data.List.Infix

/-!
# Serial numbers

A protocol numbers the bytes of an unbounded stream modulo `2^32` and compares two numbers by the
sign of their difference.  Such a comparison means something for positions of the stream that are
less than `2^31` apart; the lemmas read each comparison off the positions.  A run of bytes cut out
of a stream at a position is a list that is an initial part of the rest of the stream there.
-/

namespace InstantOS.Base

open BitVec

/-- `uint32_t`, as a sequence number. -/
abbrev Seq := BitVec 32

/-! ## Comparison by the signed difference -/

def seqLt (a b : Seq) : Bool := decide ((a - b).toInt < 0)
def seqLe (a b : Seq) : Bool := decide ((a - b).toInt ≤ 0)
def seqGt (a b : Seq) : Bool := decide (0 < (a - b).toInt)
def seqGe (a b : Seq) : Bool := decide (0 ≤ (a - b).toInt)

/-- The number of a position of the stream. -/
def seqOf (p : Nat) : Seq := BitVec.ofNat 32 p

@[simp] theorem toNat_seqOf (p : Nat) : (seqOf p).toNat = p % 4294967296 := by
  simp [seqOf]

theorem seqOf_toNat (a : Seq) : seqOf a.toNat = a := by
  simp [seqOf]

theorem seqOf_add (p q : Nat) : seqOf (p + q) = seqOf p + BitVec.ofNat 32 q := by
  simp [seqOf, BitVec.ofNat_add]

theorem seqOf_succ (p : Nat) : seqOf (p + 1) = seqOf p + 1 := seqOf_add p 1

/-- How far one position is ahead of another. -/
theorem toNat_seqOf_sub {p q : Nat} (hle : q ≤ p) (hlt : p < q + 4294967296) :
    (seqOf p - seqOf q).toNat = p - q := by
  simp only [toNat_sub, toNat_seqOf]
  omega

theorem seqOf_inj {p q : Nat} (hp : p < q + 4294967296) (hq : q < p + 4294967296) :
    seqOf p = seqOf q ↔ p = q := by
  rw [← toNat_inj, toNat_seqOf, toNat_seqOf]
  omega

theorem seqLt_eq (a b : Seq) : seqLt a b = decide (2147483648 ≤ (a - b).toNat) := by
  simp only [seqLt, toInt_eq_toNat_cond, decide_eq_decide]
  split <;> omega

section

variable {p q : Nat}

section

variable (hp : p < q + 2147483648) (hq : q ≤ p + 2147483648)

include hp hq

theorem seqLt_seqOf : seqLt (seqOf p) (seqOf q) = decide (p < q) := by
  simp only [seqLt, toInt_eq_toNat_cond, toNat_sub, toNat_seqOf, decide_eq_decide]
  split <;> omega

theorem seqLe_seqOf : seqLe (seqOf p) (seqOf q) = decide (p ≤ q) := by
  simp only [seqLe, toInt_eq_toNat_cond, toNat_sub, toNat_seqOf, decide_eq_decide]
  split <;> omega

theorem seqGt_seqOf : seqGt (seqOf p) (seqOf q) = decide (q < p) := by
  simp only [seqGt, toInt_eq_toNat_cond, toNat_sub, toNat_seqOf, decide_eq_decide]
  split <;> omega

end

end

/-! ## Runs of a stream -/

section

variable {α : Type} {stream data : List α} {p : Nat}

section

variable (h : data <+: stream.drop p)

include h

theorem run_length : p + data.length ≤ stream.length ∨ data = [] := by
  have hle := h.length_le
  rw [List.length_drop] at hle
  rcases data with _ | ⟨x, rest⟩
  · exact .inr rfl
  · simp only [List.length_cons] at hle ⊢
    exact .inl (by omega)

theorem run_drop (k : Nat) : data.drop k <+: stream.drop (p + k) := by
  simpa using h.drop k

/-- What is read so far and the run that starts there are what is read then. -/
theorem take_append_run : stream.take p ++ data = stream.take (p + data.length) := by
  obtain ⟨rest, hrest⟩ := h
  rw [List.take_add, ← hrest, List.take_left]

end

end

end InstantOS.Base
