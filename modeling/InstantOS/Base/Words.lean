import Mathlib.Algebra.Ring.Nat
import Mathlib.Data.List.Basic

/-!
# Words in a byte memory

A memory of bytes under 64-bit addresses that wrap around, and little-endian stores and loads
of 64-bit words in it.
-/

namespace InstantOS

open BitVec

abbrev Word := BitVec 64

/-- The bytes under all addresses. -/
abbrev Bytes := Word → BitVec 8

namespace Bytes

variable {m m' : Bytes} {a x v : Word} {vs : List Word}

/-- The offset of `x` behind `a`, around the end of the address space. -/
def offset (a x : Word) : Nat := (x - a).toNat

theorem offset_add {i : Nat} (h : i < 2 ^ 64) : offset a (a + BitVec.ofNat 64 i) = i := by
  unfold offset
  rw [BitVec.add_comm, BitVec.add_sub_cancel, BitVec.toNat_ofNat, Nat.mod_eq_of_lt h]

theorem offset_sub {n : Nat} (h : n < 2 ^ 64) (hx : n ≤ offset a x) :
    offset (a + BitVec.ofNat 64 n) x = offset a x - n := by
  unfold offset at *
  rw [← sub_sub, toNat_sub_of_le]
  · rw [toNat_ofNat, Nat.mod_eq_of_lt h]
  · rw [le_def, toNat_ofNat, Nat.mod_eq_of_lt h]
    exact hx

/-- An address before `a` is almost the whole address space behind it. -/
theorem offset_before {i n : Nat} (hi : i < n) (hn : n < 2 ^ 64) :
    offset (a + BitVec.ofNat 64 n) (a + BitVec.ofNat 64 i) = 2 ^ 64 - n + i := by
  unfold offset
  simp only [toNat_sub, toNat_add, toNat_ofNat]
  omega

/-- One byte of a word, the lowest first. -/
def byteOf (v : Word) (i : Nat) : BitVec 8 := v.extractLsb' (8 * i) 8

def storeWord (m : Bytes) (a v : Word) : Bytes := fun x =>
  if offset a x < 8 then byteOf v (offset a x) else m x

/-- The byte `i` places behind `a`. -/
def byteAt (m : Bytes) (a : Word) (i : Nat) : BitVec 8 := m (a + BitVec.ofNat 64 i)

def loadWord (m : Bytes) (a : Word) : Word :=
  byteAt m a 7 ++ byteAt m a 6 ++ byteAt m a 5 ++ byteAt m a 4 ++ byteAt m a 3 ++ byteAt m a 2
    ++ byteAt m a 1 ++ byteAt m a 0

theorem bytes_join (v : Word) :
    byteOf v 7 ++ byteOf v 6 ++ byteOf v 5 ++ byteOf v 4 ++ byteOf v 3 ++ byteOf v 2 ++ byteOf v 1
      ++ byteOf v 0 = v := by
  simp only [byteOf]
  repeat rw [BitVec.extractLsb'_append_extractLsb'_eq_extractLsb' (by rfl)]
  exact BitVec.extractLsb'_eq_self

theorem loadWord_congr (h : ∀ i < 8, byteAt m a i = byteAt m' a i) :
    loadWord m a = loadWord m' a := by
  unfold loadWord
  rw [h 0 (by decide), h 1 (by decide), h 2 (by decide), h 3 (by decide), h 4 (by decide),
    h 5 (by decide), h 6 (by decide), h 7 (by decide)]

theorem byteAt_storeWord {i : Nat} (hi : i < 8) : byteAt (storeWord m a v) a i = byteOf v i := by
  unfold byteAt storeWord
  rw [offset_add (by omega), if_pos hi]

theorem loadWord_storeWord : loadWord (storeWord m a v) a = v := by
  unfold loadWord
  simp only [byteAt_storeWord (show 0 < 8 by decide), byteAt_storeWord (show 1 < 8 by decide),
    byteAt_storeWord (show 2 < 8 by decide), byteAt_storeWord (show 3 < 8 by decide),
    byteAt_storeWord (show 4 < 8 by decide), byteAt_storeWord (show 5 < 8 by decide),
    byteAt_storeWord (show 6 < 8 by decide), byteAt_storeWord (show 7 < 8 by decide)]
  exact bytes_join v

theorem storeWord_frame (h : 8 ≤ offset a x) : storeWord m a v x = m x := by
  unfold storeWord
  rw [if_neg (by omega)]

/-! ## Several words -/

/-- The words one behind the other from `a` on. -/
def storeWords (m : Bytes) (a : Word) : List Word → Bytes
  | [] => m
  | v :: vs => storeWords (storeWord m a v) (a + 8) vs

/-- Only the bytes of the words change. -/
theorem storeWords_frame (hsize : 8 * vs.length < 2 ^ 64) (h : 8 * vs.length ≤ offset a x) :
    storeWords m a vs x = m x := by
  induction vs generalizing m a with
  | nil => rfl
  | cons v vs ih =>
    rw [List.length_cons] at hsize h
    have hnext : offset (a + 8) x = offset a x - 8 := offset_sub (n := 8) (by decide) (by omega)
    rw [storeWords, ih (by omega) (by omega), storeWord_frame (by omega)]

/-- The word `i` of the list is loaded from `8 * i` behind its start. -/
theorem loadWord_storeWords (hsize : 8 * vs.length < 2 ^ 64) {i : Nat} (hi : i < vs.length) :
    loadWord (storeWords m a vs) (a + BitVec.ofNat 64 (8 * i)) = vs[i] := by
  induction vs generalizing m a i with
  | nil => cases hi
  | cons v vs ih =>
    rw [List.length_cons] at hsize hi
    cases i with
    | zero =>
      -- the later words lie behind the first one
      have hlater : ∀ j < 8, byteAt (storeWords m a (v :: vs)) a j =
          byteAt (storeWord m a v) a j := by
        intro j hj
        rw [storeWords]
        refine storeWords_frame (by omega) ?_
        have hbefore : offset (a + 8) (a + BitVec.ofNat 64 j) = 2 ^ 64 - 8 + j :=
          offset_before hj (by decide)
        omega
      rw [show a + BitVec.ofNat 64 (8 * 0) = a from BitVec.add_zero a, loadWord_congr hlater]
      exact loadWord_storeWord
    | succ i =>
      have haddr : a + BitVec.ofNat 64 (8 * (i + 1)) = a + 8 + BitVec.ofNat 64 (8 * i) := by
        rw [BitVec.add_assoc, show (8 : Word) = BitVec.ofNat 64 8 from rfl, ← BitVec.ofNat_add]
        congr 2
        omega
      rw [haddr]
      exact ih (by omega) (by omega)

end Bytes

end InstantOS
