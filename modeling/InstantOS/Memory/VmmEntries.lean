import InstantOS.Base.RadixTable
import InstantOS.Memory.Vmm

/-!
# Entries, walks and pages

The bits of an entry, the page tables as radix tables, and the page a walk
ends at.  A *page* is the 4 KiB view of a leaf: a 1 GiB or 2 MiB leaf is read as
the many 4 KiB leaves it stands for, so splitting it is invisible here.
`virtualToPhysicalIn` and `accessFrom` are functions of the walk, which is
what lets the later modules speak about walks only.
-/

namespace InstantOS.Vmm

open BitVec hiding and_assoc and_self or_assoc

/-! ## Bits -/

variable (e : Entry) (k : Nat)

private theorem has_twoPow : has e (twoPow 64 k) = e.getLsbD k := by
  unfold has
  rw [and_twoPow]
  cases h : e.getLsbD k with
  | false => rfl
  | true =>
    have hk : k < 64 := lt_of_getLsbD h
    have hne : twoPow 64 k ≠ 0#64 := by
      intro h0
      have hbit := congrArg (fun v => v.getLsbD k) h0
      simp [hk] at hbit
    simpa using hne

theorem has_present : has e present = e.getLsbD 0 := has_twoPow e 0
theorem has_readWrite : has e readWrite = e.getLsbD 1 := has_twoPow e 1
theorem has_userSuper : has e userSuper = e.getLsbD 2 := has_twoPow e 2
theorem has_largePage : has e largePage = e.getLsbD 7 := has_twoPow e 7
theorem has_privateTable : has e privateTable = e.getLsbD 9 := has_twoPow e 9
theorem has_noExecute : has e noExecute = e.getLsbD 63 := has_twoPow e 63

/-- The test for two flags at once. -/
theorem both_bits {i j : Nat} (hi : i < 64) (hj : j < 64) :
    e &&& (twoPow 64 i ||| twoPow 64 j) = twoPow 64 i ||| twoPow 64 j ↔
      e.getLsbD i ∧ e.getLsbD j := by
  constructor
  · intro h
    have hbit := fun k => congrArg (fun v => v.getLsbD k) h
    exact ⟨by simpa [hi] using hbit i, by simpa [hj] using hbit j⟩
  · rintro ⟨h, h'⟩
    apply eq_of_getLsbD_eq
    grind

private theorem or_and_right (x y z : BitVec 64) : (x ||| y) &&& z = x &&& z ||| y &&& z := by
  apply eq_of_getLsbD_eq
  intro k _
  simp only [getLsbD_or, getLsbD_and, Bool.and_or_distrib_right]

/-- A flag that is a single bit is set in a disjunction when one side has it. -/
theorem has_or (x y flag : Entry) : has (x ||| y) flag = (has x flag || has y flag) := by
  unfold has
  rw [or_and_right, Bool.eq_iff_iff]
  simp only [bne_iff_ne, ne_eq, Bool.or_eq_true, or_eq_zero_iff]
  tauto

theorem has_zero (flag : Entry) : has 0#64 flag = false := by
  simp [has]

private theorem range_getLsbD {w : Nat} {x : BitVec w} {lo hi : Nat} (hhi : hi ≤ w)
    (h : ∀ k : Fin w, x.getLsbD k = decide (lo ≤ k.val ∧ k.val < hi)) (k : Nat) :
    x.getLsbD k = decide (lo ≤ k ∧ k < hi) := by
  by_cases hk : k < w
  · exact h ⟨k, hk⟩
  rw [getLsbD_of_ge _ _ (by omega)]
  symm
  simp only [decide_eq_false_iff_not]
  omega

theorem present_getLsbD : present.getLsbD k = decide (0 ≤ k ∧ k < 1) :=
  range_getLsbD (by decide) (by decide) k

theorem largePage_getLsbD : largePage.getLsbD k = decide (7 ≤ k ∧ k < 8) :=
  range_getLsbD (by decide) (by decide) k

theorem addrMask_getLsbD : addrMask.getLsbD k = decide (12 ≤ k ∧ k < 52) :=
  range_getLsbD (by decide) (by decide) k

theorem gibMask_getLsbD : gibMask.getLsbD k = decide (30 ≤ k ∧ k < 52) :=
  range_getLsbD (by decide) (by decide) k

theorem mibMask_getLsbD : mibMask.getLsbD k = decide (21 ≤ k ∧ k < 52) :=
  range_getLsbD (by decide) (by decide) k

theorem pageMask_getLsbD : pageMask.getLsbD k = decide (0 ≤ k ∧ k < 12) :=
  range_getLsbD (by decide) (by decide) k

private theorem gibOffset_getLsbD : (0x3FFFFFFF#64).getLsbD k = decide (0 ≤ k ∧ k < 30) :=
  range_getLsbD (by decide) (by decide) k

private theorem mibOffset_getLsbD : (0x1FFFFF#64).getLsbD k = decide (0 ≤ k ∧ k < 21) :=
  range_getLsbD (by decide) (by decide) k

private theorem gibFrame_getLsbD : (0xFFFFFC0000#40).getLsbD k = decide (18 ≤ k ∧ k < 40) :=
  range_getLsbD (by decide) (by decide) k

private theorem mibFrame_getLsbD : (0xFFFFFFFE00#40).getLsbD k = decide (9 ≤ k ∧ k < 40) :=
  range_getLsbD (by decide) (by decide) k

theorem frameOf_getLsbD : (frameOf e).getLsbD k = (decide (k < 40) && e.getLsbD (12 + k)) := by
  simp only [frameOf, getLsbD_extractLsb']

theorem addrOf_getLsbD (f : Frame) (k : Nat) :
    (addrOf f).getLsbD k = (decide (12 ≤ k) && f.getLsbD (k - 12)) := by
  simp only [addrOf, getLsbD_shiftLeft, getLsbD_setWidth]
  by_cases h : k < 64 <;> by_cases h' : k < 12
  · simp [show ¬ 12 ≤ k by omega]
  · simp [h, show 12 ≤ k by omega, show k - 12 < 64 by omega]
  · omega
  · rw [getLsbD_of_ge f (k - 12) (by omega)]
    simp

theorem addrOf_toNat (f : Frame) : (addrOf f).toNat = f.toNat * 4096 := by
  simp only [addrOf, toNat_shiftLeft, toNat_setWidth]
  omega

/-! ## Frames of entries -/

theorem frameOf_or (x y : Entry) : frameOf (x ||| y) = frameOf x ||| frameOf y := by
  apply eq_of_getLsbD_eq
  intro k hk
  simp only [frameOf_getLsbD, getLsbD_or, Bool.and_or_distrib_left]

@[simp] theorem frameOf_addrOf (f : Frame) : frameOf (addrOf f) = f := by
  apply eq_of_getLsbD_eq
  intro k hk
  simp only [frameOf_getLsbD, addrOf_getLsbD, hk, decide_true, Bool.true_and, Nat.le_add_right,
    Nat.add_sub_cancel_left]

/-- An entry made of an address and of flag bits names that address. -/
theorem frameOf_addrOf_or (f : Frame) {flags : Entry} (h : flags &&& addrMask = 0#64) :
    frameOf (addrOf f ||| flags) = f := by
  have hflags : frameOf flags = 0#40 := by
    apply eq_of_getLsbD_eq
    intro k hk
    have hbit := congrArg (fun v => v.getLsbD (12 + k)) h
    simp only [getLsbD_and, addrMask_getLsbD] at hbit
    have hin : 12 ≤ 12 + k ∧ 12 + k < 52 := by omega
    simp only [hin, and_self, decide_true, Bool.and_true] at hbit
    simp only [frameOf_getLsbD, hbit, Bool.and_false, getLsbD_zero]
  rw [frameOf_or, hflags]
  simp

/-- Bits outside the address may be combined freely. -/
theorem flags_or {x y : Entry} (hx : x &&& addrMask = 0#64) (hy : y &&& addrMask = 0#64) :
    (x ||| y) &&& addrMask = 0#64 := by
  rw [or_and_right, hx, hy]
  rfl

theorem flags_and_not : (e &&& ~~~ addrMask) &&& addrMask = 0#64 := by
  grind

theorem flags_and {x : Entry} (y : Entry) (hx : x &&& addrMask = 0#64) :
    (x &&& y) &&& addrMask = 0#64 := by
  rw [BitVec.and_assoc, and_comm y, ← BitVec.and_assoc, hx]
  simp

/-! ## Page tables as radix tables -/

/-- The table below an entry of level `n`.  Level 4 has no large pages, and
level 1 holds leaves. -/
def child (n : Nat) (e : Entry) : Option Frame :=
  if 1 < n ∧ has e present = true ∧ (n = 4 ∨ has e largePage = false) then some (frameOf e)
  else none

abbrev Machine.tableAt (m : Machine) (r : Frame) (p : List Index) : Option Frame :=
  Radix.tableAt child m.mem 4 r p

abbrev Machine.walk (m : Machine) (r : Frame) (p : List Index) : List Entry :=
  Radix.walk child m.mem 4 r p

/-- The four indices of a virtual address. -/
def path (va : BitVec 64) : List Index := [pml4Index va, pdptIndex va, pdIndex va, ptIndex va]

/-- The 4 KiB frame at the remaining indices of a leaf. -/
def subFrame (f : Frame) : List Index → Frame
  | [i] => (f &&& 0xFFFFFFFE00#40) ||| i.setWidth 40
  | [j, i] => (f &&& 0xFFFFFC0000#40) ||| (j.setWidth 40 <<< 9) ||| i.setWidth 40
  | _ => f

/-- The flags of a leaf, without the markers of tables and of large pages. -/
def leafFlags (rest : List Index) : Entry :=
  if rest = [] then e &&& ~~~ addrMask &&& ~~~ privateTable
  else e &&& ~~~ addrMask &&& ~~~ privateTable &&& ~~~ largePage

/-- A mapped 4 KiB page: its frame and its flags. -/
structure Page where
  frame : Frame
  flags : Entry
deriving DecidableEq

/-- The page at the end of a walk along the given indices. -/
def pageOf : List Index → List Entry → Option Page
  | _ :: rest, [e] =>
    if has e present then some ⟨subFrame (frameOf e) rest, leafFlags e rest⟩ else none
  | _ :: rest, _ :: e :: w => pageOf rest (e :: w)
  | _, _ => none

@[simp] theorem pageOf_leaf (i : Index) (rest : List Index) (e : Entry) : pageOf (i :: rest) [e] =
      if has e present then some ⟨subFrame (frameOf e) rest, leafFlags e rest⟩ else none := rfl

@[simp] theorem pageOf_table (i : Index) (rest : List Index) (e f : Entry) (w : List Entry) :
    pageOf (i :: rest) (e :: f :: w) = pageOf rest (f :: w) := rfl

/-- The page of a virtual address, given by its four indices. -/
def Machine.pageAt (m : Machine) (r : Frame) (q : List Index) : Option Page :=
  pageOf q (m.walk r q)

/-- Only the end of a walk decides about the page. -/
theorem pageOf_append {p : List Index} {w : List Entry} (h : w.length = p.length)
    (i : Index) (s : List Index) (e : Entry) (v : List Entry) :
    pageOf (p ++ i :: s) (w ++ e :: v) = pageOf (i :: s) (e :: v) := by
  induction p generalizing w with
  | nil =>
    have hw : w = [] := List.length_eq_zero_iff.mp h
    subst hw
    rfl
  | cons j p ih =>
    cases w with
    | nil => cases h
    | cons x w =>
      have hlen : w.length = p.length := by simpa using h
      rw [← ih hlen]
      cases w with
      | nil => rfl
      | cons y w => rfl

private theorem gib_translation (e va : BitVec 64) : (e &&& gibMask) ||| (va &&& 0x3FFFFFFF#64) =
      addrOf (subFrame (frameOf e) [pdIndex va, ptIndex va]) ||| (va &&& pageMask) := by
  apply eq_of_getLsbD_eq
  intro k hk
  simp only [subFrame, getLsbD_or, getLsbD_and, gibMask_getLsbD, gibOffset_getLsbD,
    gibFrame_getLsbD, pageMask_getLsbD, addrOf_getLsbD, frameOf_getLsbD,
    getLsbD_shiftLeft, getLsbD_setWidth, pdIndex, ptIndex,
    getLsbD_ushiftRight]
  grind

private theorem mib_translation (e va : BitVec 64) : (e &&& mibMask) ||| (va &&& 0x1FFFFF#64) =
      addrOf (subFrame (frameOf e) [ptIndex va]) ||| (va &&& pageMask) := by
  apply eq_of_getLsbD_eq
  intro k hk
  simp only [subFrame, getLsbD_or, getLsbD_and, mibMask_getLsbD, mibOffset_getLsbD,
    mibFrame_getLsbD, pageMask_getLsbD, addrOf_getLsbD, frameOf_getLsbD, getLsbD_setWidth,
    ptIndex, getLsbD_ushiftRight]
  grind

theorem addrOf_frameOf : addrOf (frameOf e) = e &&& addrMask := by
  apply eq_of_getLsbD_eq
  simp only [addrOf_getLsbD, frameOf_getLsbD, getLsbD_and, addrMask_getLsbD]
  grind

/-- `VirtualToPhysicalIn` reads the page off the walk. -/
theorem virtualToPhysicalIn_eq (m : Machine) {r : Frame} (hr : r ≠ 0) (va : BitVec 64) :
    virtualToPhysicalIn m r va =
      (m.pageAt r (path va)).elim 0#64 fun l => addrOf l.frame ||| (va &&& pageMask) := by
  unfold virtualToPhysicalIn Machine.pageAt Machine.walk path
  rw [if_neg hr]
  simp only [Radix.walk_cons, child]
  -- the four entries that either side reads, under one name each
  generalize hpdpte : m.mem (frameOf (m.mem r (pml4Index va))) (pdptIndex va) = pdpte
  generalize hpde : m.mem (frameOf pdpte) (pdIndex va) = pde
  generalize hpte : m.mem (frameOf pde) (ptIndex va) = pte
  cases h4 : has (m.mem r (pml4Index va)) present with
  | false => simp [h4]
  | true =>
    cases h3 : has pdpte present with
    | false => simp [hpdpte, h3]
    | true =>
      cases l3 : has pdpte largePage with
      | true => simp [hpdpte, h3, l3, gib_translation]
      | false =>
        cases h2 : has pde present with
        | false => simp [hpdpte, hpde, h3, l3, h2]
        | true =>
          cases l2 : has pde largePage with
          | true => simp [hpdpte, hpde, h3, l3, h2, l2, mib_translation]
          | false =>
            cases h1 : has pte present with
            | false => simp [hpdpte, hpde, hpte, h3, l3, h2, l2, h1]
            | true =>
              simp [hpdpte, hpde, hpte, h3, l3, h2, l2, h1, subFrame, addrOf_frameOf]

/-- The permissions along a walk; `none` when an entry is not present. -/
def accessOf : Access → List Entry → Option Access
  | a, [] => some a
  | a, e :: w => if has e present then accessOf (a.meet e) w else none

/-! ## The entries the manager builds -/

variable {n : Nat}

/-- The reading of an entry by `child`, in terms of its parts. -/
theorem child_eq_some {e : Entry} (hn : 1 < n) (hp : has e present)
    (hl : n = 4 ∨ has e largePage = false) : child n e = some (frameOf e) :=
  if_pos ⟨hn, hp, hl⟩

theorem of_child_eq_some {e : Entry} {u : Frame} (h : child n e = some u) :
    has e present ∧ (n = 4 ∨ has e largePage = false) ∧ frameOf e = u := by
  unfold child at h
  split at h
  · rename_i hc
    exact ⟨hc.2.1, hc.2.2, Option.some.inj h⟩
  · cases h

theorem child_eq_none_of_absent {e : Entry} (hp : has e present = false) : child n e = none := by
  apply if_neg
  rintro ⟨-, h, -⟩
  rw [hp] at h
  cases h

theorem child_eq_none_of_large {e : Entry} (hn : n ≠ 4)
    (hl : has e largePage) : child n e = none := by
  apply if_neg
  rintro ⟨-, -, h | h⟩
  · exact hn h
  · rw [hl] at h
    cases h

theorem child_zero (n : Nat) : child n 0#64 = none := child_eq_none_of_absent (has_zero present)

theorem child_one : child 1 e = none := by
  apply if_neg
  omega

/-- The indices of a virtual address from a level down. -/
private def indexPath (va : BitVec 64) : Nat → List Index
  | 0 => []
  | level + 1 => (va >>> (12 + 9 * level)).setWidth 9 :: indexPath va level

private theorem accessFrom_walk (m : Machine) (va : BitVec 64) (hn : n ≤ 4) (r : Frame)
    (a : Access) :
    accessFrom m va n r a = accessOf a (Radix.walk child m.mem n r (indexPath va n)) := by
  induction n generalizing r a with
  | zero => rfl
  | succ n ih =>
    rw [indexPath, Radix.walk_cons, accessOf, accessFrom]
    generalize m.mem r _ = e
    cases hp : has e present with
    | false => rfl
    | true =>
      cases hlarge : 0 < n && n < 3 && has e largePage with
      | true =>
        simp only [Bool.and_eq_true, decide_eq_true_eq] at hlarge
        rw [child_eq_none_of_large (by omega) hlarge.2]
        rfl
      | false =>
        cases n with
        | zero =>
          rfl
        | succ n =>
          rw [child_eq_some (by omega) hp (by grind)]
          exact ih (by omega) _ _

/-- The walk of `PermitsFaultedAccess` is the walk of the tables. -/
theorem accessFrom_eq (m : Machine) (r : Frame) (va : BitVec 64) (a : Access) :
    accessFrom m va 4 r a = accessOf a (m.walk r (path va)) :=
  accessFrom_walk m va (Nat.le_refl 4) r a

section

variable (e : Entry)

theorem has_unmark {flag : Entry} (h : flag &&& privateTable = 0#64) :
    has (e &&& ~~~ privateTable) flag = has e flag := by
  unfold has
  have hand : e &&& ~~~ privateTable &&& flag = e &&& flag := by
    apply eq_of_getLsbD_eq
    intro k hk
    have hbit := congrArg (fun v => v.getLsbD k) h
    grind
  rw [hand]

theorem has_unmark_private : has (e &&& ~~~ privateTable) privateTable = false := by
  rw [has_privateTable]
  simp [privateTable]

theorem frameOf_unmark : frameOf (e &&& ~~~ privateTable) = frameOf e := by
  apply eq_of_getLsbD_eq
  intro k hk
  have hbit : privateTable.getLsbD (12 + k) = false := by
    have h64 : ∀ j : Fin 64, 12 ≤ j.val → privateTable.getLsbD j = false := by decide
    exact h64 ⟨12 + k, by omega⟩ (by simp)
  simp only [frameOf_getLsbD, getLsbD_and, getLsbD_not, hbit, hk]
  simp
  omega

/-- The marker of private tables is not read by the walk. -/
theorem child_unmark (n : Nat) : child n (e &&& ~~~ privateTable) = child n e := by
  unfold child
  rw [has_unmark e (by decide), has_unmark e (by decide), frameOf_unmark]

theorem leafFlags_unmark (rest : List Index) :
    leafFlags (e &&& ~~~ privateTable) rest = leafFlags e rest := by
  have hidem : e &&& ~~~ privateTable &&& ~~~ addrMask &&& ~~~ privateTable =
      e &&& ~~~ addrMask &&& ~~~ privateTable := by
    grind
  unfold leafFlags
  rw [hidem]

end

/-! Promoting an entry sets permissions only. -/

/-- The bits that `MapPageInto` adds to upper entries. -/
def Promotion (bits : Entry) : Prop := bits &&& ~~~ (readWrite ||| userSuper) = 0#64

section

variable {bits : Entry} (h : Promotion bits) (e : Entry)

include h

private theorem promotion_getLsbD (k : Nat) (hk : k ≠ 1 ∧ k ≠ 2) : bits.getLsbD k = false := by
  by_cases hlt : k < 64
  · have hbit := congrArg (fun v => v.getLsbD k) h
    have hmask : ∀ j : Fin 64, j.val ≠ 1 ∧ j.val ≠ 2 →
        (~~~ (readWrite ||| userSuper)).getLsbD j := by decide
    simp only [getLsbD_and, hmask ⟨k, hlt⟩ hk, Bool.and_true, getLsbD_zero] at hbit
    exact hbit
  · exact getLsbD_of_ge _ _ (by omega)

theorem present_promote : has (e ||| bits) present = has e present := by
  rw [has_or, has_present bits, promotion_getLsbD h 0 (by decide), Bool.or_false]

theorem large_promote : has (e ||| bits) largePage = has e largePage := by
  rw [has_or, has_largePage bits, promotion_getLsbD h 7 (by decide), Bool.or_false]

theorem private_promote : has (e ||| bits) privateTable = has e privateTable := by
  rw [has_or, has_privateTable bits, promotion_getLsbD h 9 (by decide), Bool.or_false]

theorem frameOf_promote : frameOf (e ||| bits) = frameOf e := by
  apply eq_of_getLsbD_eq
  intro k hk
  rw [frameOf_getLsbD, frameOf_getLsbD, getLsbD_or,
    promotion_getLsbD h (12 + k) (by omega), Bool.or_false]

theorem child_promote (n : Nat) : child n (e ||| bits) = child n e := by
  unfold child
  rw [present_promote h, large_promote h, frameOf_promote h]

end

theorem promotion_of_flags (flags : Entry) :
    Promotion ((flags &&& userSuper) ||| (flags &&& readWrite)) := by
  apply eq_of_getLsbD_eq
  grind

section

variable (u : Frame) (e : Entry)

theorem frameOf_cloneEntry : frameOf (cloneEntry u e) = u :=
  frameOf_addrOf_or u (flags_or (flags_or (flags_and_not e) (by decide)) (by decide))

theorem present_cloneEntry : has (cloneEntry u e) present = has e present := by
  rw [has_present, has_present]
  simp [cloneEntry, addrOf, addrMask, readWrite, privateTable]

theorem large_cloneEntry : has (cloneEntry u e) largePage = has e largePage := by
  rw [has_largePage, has_largePage]
  simp [cloneEntry, addrOf, addrMask, readWrite, privateTable]

theorem private_cloneEntry : has (cloneEntry u e) privateTable := by
  rw [has_privateTable]
  simp [cloneEntry, privateTable]

theorem meet_cloneEntry (a : Access) : a.meet (cloneEntry u e) = a.meet (e ||| readWrite) := by
  unfold Access.meet
  rw [has_readWrite, has_readWrite, has_userSuper, has_userSuper, has_noExecute, has_noExecute]
  simp [cloneEntry, addrOf, addrMask, privateTable]

end

section

variable (u : Frame) (e : Entry)

theorem frameOf_splitEntry : frameOf (splitEntry u e) = u := by
  have hflags : splitFlags e &&& addrMask = 0#64 := flags_and _ (flags_and_not e)
  unfold splitEntry
  simp only [BitVec.or_assoc]
  exact frameOf_addrOf_or u (flags_or hflags (by decide))

theorem present_splitEntry : has (splitEntry u e) present := by
  rw [has_present]
  simp [splitEntry, present]

theorem large_splitEntry : has (splitEntry u e) largePage = false := by
  rw [has_largePage]
  simp [splitEntry, splitFlags, addrOf, addrMask, present, readWrite, userSuper, privateTable,
    largePage]

theorem private_splitEntry : has (splitEntry u e) privateTable := by
  rw [has_privateTable]
  simp [splitEntry, privateTable]

/-- The table entry of a split leaf allows everything the leaf allows. -/
theorem meet_splitEntry (a : Access) :
    a.meet (splitEntry u e) = ⟨a.writable, a.user, a.noExec || has e noExecute⟩ := by
  unfold Access.meet
  rw [has_readWrite, has_userSuper, has_noExecute, has_noExecute]
  simp [splitEntry, splitFlags, addrOf, addrMask, present, readWrite, userSuper, privateTable,
    largePage]

end

/-- A leaf of a split page, its address as bits. -/
private theorem splitLeaf_or (mask step bits : BitVec 64) (k : Nat) (hstep : step = twoPow 64 k)
    (hmask : ∀ b, mask.getLsbD b → k + 9 ≤ b) (e : Entry) (j : Index) :
    splitLeaf mask step bits e j =
      ((e &&& mask) ||| (j.setWidth 64 <<< k)) ||| splitFlags e ||| present ||| bits := by
  unfold splitLeaf
  rw [hstep, mul_twoPow_eq_shiftLeft, add_eq_or_of_and_eq_zero]
  apply eq_of_getLsbD_eq
  grind

/-- The leaves `leaf j` of level `n - 1` stand for the large leaf `e` of level
`n`: the same pages with the same permissions. -/
structure Splits (n : Nat) (e : Entry) (leaf : Index → Entry) : Prop where
  present : ∀ j, has (leaf j) Vmm.present = true
  noChild : ∀ j, child (n - 1) (leaf j) = none
  page : ∀ i j rest, rest.length = n - 2 → pageOf (j :: rest) [leaf j] = pageOf (i :: j :: rest) [e]
  readWrite : ∀ j, has (leaf j) Vmm.readWrite = has e Vmm.readWrite
  userSuper : ∀ j, has (leaf j) Vmm.userSuper = has e Vmm.userSuper
  noExecute : ∀ j, has (leaf j) Vmm.noExecute = has e Vmm.noExecute

/-- A split leaf differs from the large one in its address and its size only. -/
private theorem splits_of_address {e bits : Entry} {leaf base : Index → Entry}
    (he : has e present) (hleaf : ∀ j, leaf j = base j ||| splitFlags e ||| present ||| bits)
    (hbase : ∀ j k, ¬ (12 ≤ k ∧ k < 52) → (base j).getLsbD k = false)
    (hbits : n = 3 ∧ bits = largePage ∨ n = 2 ∧ bits = 0#64)
    (hframe : ∀ j rest, rest.length = n - 2 →
      subFrame (frameOf (base j)) rest = subFrame (frameOf e) (j :: rest)) : Splits n e leaf := by
  have hbit : ∀ j k, k < 64 → (leaf j).getLsbD k = ((base j).getLsbD k || k = 0 ||
      (k = 7 && n = 3) || e.getLsbD k && !decide (12 ≤ k ∧ k < 52) && !decide (k = 7)) := by
    intro j k hk
    rw [hleaf]
    simp only [splitFlags, getLsbD_or, getLsbD_and, getLsbD_not,
      addrMask_getLsbD, present_getLsbD, largePage_getLsbD]
    rcases hbits with ⟨rfl, rfl⟩ | ⟨rfl, rfl⟩
    · grind [largePage_getLsbD]
    · grind
  have hpresent : ∀ j, has (leaf j) present := by
    intro j
    rw [has_present, hbit j 0 (by decide)]
    simp
  refine
    { present := hpresent
      noChild := ?_
      page := ?_
      readWrite := ?_
      userSuper := ?_
      noExecute := ?_ }
  · intro j
    rcases hbits with ⟨rfl, -⟩ | ⟨rfl, -⟩
    · apply child_eq_none_of_large (by decide)
      rw [has_largePage, hbit j 7 (by decide)]
      simp
    · exact child_one _
  · intro i j rest hrest
    have haddr : frameOf (leaf j) = frameOf (base j) := by
      apply eq_of_getLsbD_eq
      intro b hb
      rw [frameOf_getLsbD, frameOf_getLsbD]
      grind
    rw [pageOf_leaf, pageOf_leaf, hpresent, he, haddr, hframe j rest hrest]
    simp only [↓reduceIte, Option.some.injEq, Page.mk.injEq, true_and]
    rw [has_present] at he
    apply eq_of_getLsbD_eq
    intro b hb
    simp only [leafFlags, reduceCtorEq, ↓reduceIte]
    split
    all_goals
      simp only [getLsbD_and, getLsbD_not, hbit j b hb, addrMask_getLsbD,
        largePage_getLsbD]
      grind
  · intro j
    rw [has_readWrite, has_readWrite, hbit j 1 (by decide), hbase j 1 (by decide)]
    simp
  · intro j
    rw [has_userSuper, has_userSuper, hbit j 2 (by decide), hbase j 2 (by decide)]
    simp
  · intro j
    rw [has_noExecute, has_noExecute, hbit j 63 (by decide), hbase j 63 (by decide)]
    simp

theorem splits_gib {e : Entry} (he : has e present) :
    Splits 3 e (splitLeaf gibMask 0x200000#64 largePage e) := by
  refine splits_of_address he
    (splitLeaf_or gibMask 0x200000#64 largePage 21 (by decide) (by grind [gibMask_getLsbD]) e) ?_
      (.inl ⟨rfl, rfl⟩) ?_
  · intro j k hk
    simp only [getLsbD_or, getLsbD_and, gibMask_getLsbD, getLsbD_shiftLeft,
      getLsbD_setWidth]
    grind
  · intro j rest hrest
    obtain ⟨k, rfl⟩ := List.length_eq_one_iff.mp hrest
    apply eq_of_getLsbD_eq
    simp only [subFrame, getLsbD_or, getLsbD_and, frameOf_getLsbD, gibMask_getLsbD,
      gibFrame_getLsbD, mibFrame_getLsbD, getLsbD_shiftLeft, getLsbD_setWidth]
    grind

theorem splits_mib {e : Entry} (he : has e present) :
    Splits 2 e (splitLeaf mibMask 0x1000#64 0#64 e) := by
  refine splits_of_address he
    (splitLeaf_or mibMask 0x1000#64 0#64 12 (by decide) (by grind [mibMask_getLsbD]) e) ?_
      (.inr ⟨rfl, rfl⟩) ?_
  · intro j k hk
    simp only [getLsbD_or, getLsbD_and, mibMask_getLsbD, getLsbD_shiftLeft,
      getLsbD_setWidth]
    grind
  · intro j rest hrest
    obtain rfl := List.length_eq_zero_iff.mp hrest
    apply eq_of_getLsbD_eq
    simp only [subFrame, getLsbD_or, getLsbD_and, frameOf_getLsbD, mibMask_getLsbD,
      mibFrame_getLsbD, getLsbD_shiftLeft, getLsbD_setWidth]
    grind

end InstantOS.Vmm
