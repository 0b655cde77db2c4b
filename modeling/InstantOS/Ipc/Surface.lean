import Mathlib.Algebra.Ring.Nat
import Mathlib.Data.Set.Prod
import Mathlib.Order.Interval.Set.Defs

/-!
# The damage of a surface

`SurfaceObject::commit` of `src/ipc/ipc.cpp`: the rectangle a client reports as drawn is cut
to the surface, each axis on its own and in 32 bits.
-/

namespace InstantOS.Ipc

/-- One axis of `commit`: start and length of the dirty range on an axis of `limit` pixels. -/
def clip (limit start length : BitVec 32) : BitVec 32 × BitVec 32 :=
  let dirty := if start < limit then start else limit
  (dirty, if limit < dirty + length then (if dirty < limit then limit - dirty else 0#32)
    else length)

/-- `SurfaceObject`, as far as `commit` reads and writes it. -/
structure SurfaceObject where
  width : BitVec 32
  height : BitVec 32
  dirtyX : BitVec 32
  dirtyY : BitVec 32
  dirtyWidth : BitVec 32
  dirtyHeight : BitVec 32
  committed : Bool

def SurfaceObject.commit (s : SurfaceObject) (x y widthValue heightValue : BitVec 32) :
    SurfaceObject :=
  { s with
    dirtyX := (clip s.width x widthValue).1
    dirtyY := (clip s.height y heightValue).1
    dirtyWidth := (clip s.width x widthValue).2
    dirtyHeight := (clip s.height y heightValue).2
    committed := true }

/-- The pixels of a rectangle, whose far edges are sums of integers. -/
def pixels (x y width height : BitVec 32) : Set (Nat × Nat) :=
  Set.Ico x.toNat (x.toNat + width.toNat) ×ˢ Set.Ico y.toNat (y.toNat + height.toNat)

/-- The recorded damage lies in the surface and is the requested rectangle within it. -/
structure SurfaceObject.Damaged (s : SurfaceObject) (x y width height : BitVec 32) : Prop where
  columns : s.dirtyX.toNat + s.dirtyWidth.toNat ≤ s.width.toNat
  rows : s.dirtyY.toNat + s.dirtyHeight.toNat ≤ s.height.toNat
  exact : pixels s.dirtyX s.dirtyY s.dirtyWidth s.dirtyHeight =
    pixels x y width height ∩ pixels 0#32 0#32 s.width s.height

variable (limit start length : BitVec 32)

theorem clip_start : (clip limit start length).1.toNat = min start.toNat limit.toNat := by
  unfold clip
  split <;> simp only [BitVec.lt_def] at * <;> omega

/-- The length is cut to the axis unless the sum of the test wraps. -/
theorem clip_length : (clip limit start length).2.toNat =
    if min start.toNat limit.toNat + length.toNat < 2 ^ 32 then
      min length.toNat (limit.toNat - min start.toNat limit.toNat) else length.toNat := by
  have hstart := clip_start limit start length
  unfold clip at *
  dsimp only at *
  generalize (if start < limit then start else limit) = dirty at *
  rw [← hstart]
  simp only [BitVec.lt_def, BitVec.toNat_add]
  split
  · have hsum : dirty.toNat + length.toNat < 2 ^ 32 := by omega
    split
    · rw [BitVec.toNat_sub]
      omega
    · simp only [BitVec.toNat_ofNat]
      omega
  · split <;> omega

/-- **The damage stays inside the surface**, and is exact, if and only if neither clip test
wraps. -/
theorem commit_damaged_iff (s : SurfaceObject) (x y width height : BitVec 32) :
    (s.commit x y width height).Damaged x y width height ↔
      min x.toNat s.width.toNat + width.toNat < 2 ^ 32 ∧
        min y.toNat s.height.toNat + height.toNat < 2 ^ 32 := by
  constructor
  · rintro ⟨hcolumns, hrows, -⟩
    simp only [SurfaceObject.commit, clip_start, clip_length] at hcolumns hrows
    constructor
    · split at hcolumns <;> omega
    · split at hrows <;> omega
  · rintro ⟨hx, hy⟩
    constructor
    · simp only [SurfaceObject.commit, clip_start, clip_length, if_pos hx]
      omega
    · simp only [SurfaceObject.commit, clip_start, clip_length, if_pos hy]
      omega
    · ext ⟨i, j⟩
      simp only [pixels, SurfaceObject.commit, clip_start, clip_length, if_pos hx, if_pos hy,
        Set.mem_inter_iff, Set.mem_prod, Set.mem_Ico, BitVec.toNat_ofNat]
      omega

/-- A request of the full 32-bit width from the middle of a surface is not cut. -/
theorem commit_outside : ¬ ∀ (s : SurfaceObject) (x y width height : BitVec 32),
      (s.commit x y width height).Damaged x y width height := by
  intro h
  exact absurd (h ⟨100, 100, 0, 0, 0, 0, false⟩ 50 0 0xFFFFFFFF 1).columns (by decide)

end InstantOS.Ipc
