import InstantOS.Memory.PmmFrames
import Mathlib.Order.Interval.Finset.Nat

/-!
# Runs of the physical memory manager

The eight operations as one step function, the counting invariant of
`s_usedFrames`, the agreement of bitmap and reference counts, and the frames
that are free after `Initialize`.

The agreement has one leak: `ReserveRange` sets the bit of a free frame and
leaves its count at zero.  `ReservesUsedOnly` is the condition on a step that
closes it, and `refcount_agrees_of_run` is the invariant of every run whose
steps meet it.
-/

namespace InstantOS.Pmm

open Relation Finset

/-- A call of the manager after `Initialize`. -/
inductive Op
  | allocFrame
  | allocFrames (count : Nat)
  | allocFramesAbove (count minPhys : Nat)
  | allocFramesBelow (count maxPhys : Nat)
  | incRef (physAddr : Nat)
  | freeFrame (physAddr : Nat)
  | freeFrames (physAddr count : Nat)
  | reserveRange (physAddr bytes : Nat)
deriving DecidableEq, Repr

def step (s : State) : Op → State
  | .allocFrame => (allocFrame s).2
  | .allocFrames count => (allocFrames s count).2
  | .allocFramesAbove count minPhys => (allocFramesAbove s count minPhys).2
  | .allocFramesBelow count maxPhys => (allocFramesBelow s count maxPhys).2
  | .incRef physAddr => incRef s physAddr
  | .freeFrame physAddr => freeFrame s physAddr
  | .freeFrames physAddr count => freeFrames s physAddr count
  | .reserveRange physAddr bytes => reserveRange s physAddr bytes

/-- One call, whatever its arguments. -/
def Call (s t : State) : Prop := ∃ op, t = step s op

/-! ## What a step is made of

Every operation is a sequence of the primitive steps below.  An invariant of
the manager is proved once for each of them. -/

/-- The primitive steps: a grant of free frames, one more reference, one
reference less, the reservation of one frame, and no change. -/
inductive Primitive (s : State) : State → Prop
  | idle : Primitive s s
  | grant {start count : Nat} {t : State} (h : Granted s start count t) : Primitive s t
  | share {frame : Nat} (hpos : 0 < frame) (hbound : frame < s.totalFrames)
      (hused : testFrame s frame = true) (hroom : s.refcount frame < pinned) :
      Primitive s (setRefcount s frame (s.refcount frame + 1))
  | drop {frame : Nat} {t : State} (hbound : frame < s.totalFrames)
      (h : Dropped s frame t) : Primitive s t
  | reserve {frame : Nat} (hbound : frame < s.totalFrames) :
      Primitive s (reserveFrame s frame)

variable {s : State} {frame : Nat}

theorem AllocSpec.primitive {count : Nat} {result : Nat × State}
    (h : AllocSpec s count result) : Primitive s result.2 := by
  rcases h with h | ⟨start, _, hgrant⟩
  · rw [h]
    exact .idle
  · exact .grant hgrant

theorem incRef_primitive (s : State) (physAddr : Nat) : Primitive s (incRef s physAddr) := by
  unfold incRef
  dsimp only
  split
  · rename_i h
    obtain ⟨hcount, hroom⟩ := h
    simp only [countable, Bool.and_eq_true, bne_iff_ne, decide_eq_true_eq] at hcount
    exact .share (Nat.pos_of_ne_zero hcount.1.1.2) hcount.1.2 hcount.2 hroom
  · exact .idle

/-- A loop of primitive steps over tracked frames keeps every invariant that
the primitive steps keep, as long as the tracked range stays where it is. -/
theorem forFrames_primitive {P : State → Prop} {body : State → Nat → State} {lo hi : Nat}
    (hinv : ∀ t u, P t → Primitive t u → P u)
    (hbody : ∀ t f, f < t.totalFrames → Primitive t (body t f) ∧ SameShape t (body t f))
    (hbound : hi ≤ s.totalFrames) (h0 : P s) : P (forFrames lo hi body s) := by
  have h : SameShape s (forFrames lo hi body s) ∧ P (forFrames lo hi body s) := by
    refine forFrames_preserves (P := fun t => SameShape s t ∧ P t) ⟨.refl s, h0⟩ ?_
    intro t f _ hf ⟨hshape, ht⟩
    have hb := hbody t f (by rw [hshape.total]; omega)
    exact ⟨hshape.trans hb.2, hinv t _ ht hb.1⟩
  exact h.2

/-- **One induction for all operations**: what every primitive step preserves,
every call preserves. -/
theorem step_preserves {P : State → Prop} (hinv : ∀ t u, P t → Primitive t u → P u)
    (h : P s) (op : Op) : P (step s op) := by
  cases op with
  | allocFrame => exact hinv s _ h (allocFrame_spec s).primitive
  | allocFrames count => exact hinv s _ h (allocFrames_spec s count).primitive
  | allocFramesAbove count minPhys =>
    exact hinv s _ h (allocFramesAbove_spec s count minPhys).primitive
  | allocFramesBelow count maxPhys =>
    exact hinv s _ h (allocFramesBelow_spec s count maxPhys).primitive
  | incRef physAddr => exact hinv s _ h (incRef_primitive s physAddr)
  | freeFrame physAddr =>
    simp only [step, freeFrame]
    split
    · exact h
    · split
      · exact h
      · exact hinv s _ h (.drop (by omega) (dropFrame_spec s _))
  | freeFrames physAddr count =>
    simp only [step, freeFrames]
    split
    · exact h
    · exact forFrames_primitive hinv
        (fun t f hf => ⟨.drop hf (dropFrame_spec t f), (dropFrame_spec t f).shape⟩)
        (Nat.min_le_right _ _) h
  | reserveRange physAddr bytes =>
    simp only [step, reserveRange]
    split
    · exact h
    · exact forFrames_primitive hinv (fun t f hf => ⟨.reserve hf, reserveFrame_shape t f⟩)
        (by simp only [reserveEnd]; exact Nat.min_le_right _ _) h

/-! ## The counter of used frames -/

/-- The tracked frames whose bit is set. -/
def usedSet (s : State) : Finset Nat :=
  (range s.totalFrames).filter (fun f => testFrame s f = true)

theorem mem_usedSet {f : Nat} : f ∈ usedSet s ↔ f < s.totalFrames ∧ testFrame s f := by
  simp [usedSet]

/-- `s_usedFrames` counts the set bits of the tracked frames. -/
def Counted (s : State) : Prop := s.usedFrames = (usedSet s).card

variable {t : State}

/-- Setting a clear bit adds one frame to the used set. -/
theorem usedSet_insert (htotal : t.totalFrames = s.totalFrames) (hbound : frame < s.totalFrames)
    (htest : ∀ g, testFrame t g = (decide (g = frame) || testFrame s g)) :
    usedSet t = insert frame (usedSet s) := by
  ext g
  rw [mem_insert, mem_usedSet, mem_usedSet, htotal, htest]
  by_cases hg : g = frame
  · subst hg
    simp [hbound]
  · simp [hg]

/-- Clearing a bit takes its frame out of the used set. -/
theorem usedSet_erase (htotal : t.totalFrames = s.totalFrames)
    (htest : ∀ g, testFrame t g = (!decide (g = frame) && testFrame s g)) :
    usedSet t = (usedSet s).erase frame := by
  ext g
  rw [mem_erase, mem_usedSet, mem_usedSet, htotal, htest]
  by_cases hg : g = frame
  · simp [hg]
  · simp [hg]

private theorem usedSet_granted {start count : Nat} (h : Granted s start count t) :
    usedSet t = usedSet s ∪ Finset.Ico start (start + count) := by
  ext g
  rw [mem_union, mem_usedSet, mem_usedSet, h.shape.total, h.test]
  have hbound := h.bound
  by_cases hg : start ≤ g ∧ g < start + count
  · have hlt : g < s.totalFrames := by omega
    simp [hg, hlt]
  · simp [hg]

theorem Counted.primitive (h : Counted s) (hstep : Primitive s t) : Counted t := by
  unfold Counted at h ⊢
  cases hstep with
  | idle => exact h
  | grant hgrant =>
    rename_i start count
    have hdisj : Disjoint (usedSet s) (Finset.Ico start (start + count)) := by
      rw [disjoint_left]
      intro g hg hrun
      rw [mem_Ico] at hrun
      have hfree := hgrant.free g hrun.1 hrun.2
      rw [(mem_usedSet.mp hg).2] at hfree
      exact absurd hfree (by decide)
    rw [hgrant.used, usedSet_granted hgrant, card_union_of_disjoint hdisj, Nat.card_Ico, h]
    omega
  | share _ _ _ _ => exact h
  | drop hbound hdrop =>
    rename_i frame
    cases hdrop with
    | kept | shared => exact h
    | released hused _ =>
      have herase : usedSet { clearFrame (setRefcount s frame 0) frame with
          usedFrames := s.usedFrames - 1 } = (usedSet s).erase frame :=
        usedSet_erase rfl (testFrame_clearFrame (setRefcount s frame 0) frame)
      rw [herase, card_erase_of_mem (mem_usedSet.mpr ⟨hbound, hused⟩), ← h]
  | reserve hbound =>
    rename_i frame
    cases hbit : testFrame s frame with
    | true => simpa [reserveFrame, hbit] using h
    | false =>
      have hnot : frame ∉ usedSet s := by
        rw [mem_usedSet, hbit]
        simp
      rw [usedSet_insert (reserveFrame_shape s frame).total hbound
        (testFrame_reserveFrame s frame), card_insert_of_notMem hnot, ← h]
      simp [reserveFrame, hbit, setFrame]

theorem Counted.step (h : Counted s) (op : Op) : Counted (step s op) :=
  step_preserves (fun _ _ ht hp => .primitive ht hp) h op

/-! ## The state `Initialize` leaves -/

theorem releaseUsable_shape (s : State) (frame : Nat) : SameShape s (releaseUsable s frame) := by
  unfold releaseUsable
  split
  · exact ⟨rfl, rfl, rfl⟩
  · exact .refl s

theorem testFrame_releaseUsable (s : State) (frame g : Nat) :
    testFrame (releaseUsable s frame) g = (!decide (g = frame) && testFrame s g) := by
  unfold releaseUsable
  split
  · exact testFrame_clearFrame s frame g
  rename_i hbit
  by_cases hg : g = frame
  · subst hg
    simpa using hbit
  · simp [hg]

/-- A frame that is released is no longer used and becomes usable. -/
private theorem releaseUsable_counted (h : Counted s) (hbound : frame < s.totalFrames) :
    Counted (releaseUsable s frame) ∧
      (releaseUsable s frame).usableFrames + (releaseUsable s frame).usedFrames =
        s.usableFrames + s.usedFrames := by
  unfold Counted at h ⊢
  cases hbit : testFrame s frame with
  | false => simpa [releaseUsable, hbit] using h
  | true =>
    have hmem := mem_usedSet.mpr ⟨hbound, hbit⟩
    have hpos := card_pos.mpr ⟨frame, hmem⟩
    refine ⟨?_, by simp only [releaseUsable, hbit, clearFrame, if_true]; omega⟩
    rw [usedSet_erase (releaseUsable_shape s frame).total (testFrame_releaseUsable s frame),
      card_erase_of_mem hmem, ← h]
    simp [releaseUsable, hbit, clearFrame]

/-- The invariant of the bitmap while `Initialize` builds it. -/
def Building (total words : Nat) (s : State) : Prop :=
  Counted s ∧ s.totalFrames = total ∧ s.bitmapSize = words

variable {total words : Nat}

private theorem building_loop {body : State → Nat → State} {lo hi : Nat}
    (hbody : ∀ t f, f < t.totalFrames → Counted t → Counted (body t f) ∧ SameShape t (body t f))
    (hbound : hi ≤ total) (h : Building total words s) :
    Building total words (forFrames lo hi body s) := by
  refine forFrames_preserves h ?_
  intro t f _ hf ⟨hc, ht, hw⟩
  have hb := hbody t f (by omega) hc
  exact ⟨hb.1, hb.2.total.trans ht, hb.2.words.trans hw⟩

private theorem releaseRegion_building (h : Building total words s) (region : MemoryRegion) :
    Building total words (releaseRegion s region) ∧
      (releaseRegion s region).usableFrames + (releaseRegion s region).usedFrames =
        s.usableFrames + s.usedFrames := by
  unfold releaseRegion
  split
  · refine forFrames_preserves (P := fun t => Building total words t ∧
      t.usableFrames + t.usedFrames = s.usableFrames + s.usedFrames) ⟨h, rfl⟩ ?_
    rintro t f _ hf ⟨⟨hcount, htotal, hwords⟩, hsum⟩
    have hshape := releaseUsable_shape t f
    have hbound : f < t.totalFrames := by
      have := h.2.1
      split at hf <;> omega
    have hone := releaseUsable_counted hcount hbound
    exact ⟨⟨hone.1, hshape.total.trans htotal, hshape.words.trans hwords⟩, hone.2.trans hsum⟩
  · exact ⟨h, rfl⟩

theorem usableFrames_reserveFrame (s : State) (frame : Nat) :
    (reserveFrame s frame).usableFrames = s.usableFrames := by
  unfold reserveFrame
  split <;> rfl

/-- Steps 3a to 3c set the bits of a range and leave the usable frames alone. -/
private theorem reserveFrames_building (h : Building total words s) (start stop : Nat) :
    Building total words (reserveFrames start stop s) ∧
      (reserveFrames start stop s).usableFrames = s.usableFrames ∧
      ∀ f < total, testFrame (reserveFrames start stop s) f = true ↔
        (start / pageSize ≤ f ∧ f < stop / pageSize) ∨ testFrame s f = true := by
  refine ⟨building_loop (fun t f hf ht => ⟨.primitive ht (.reserve hf),
    reserveFrame_shape t f⟩) (h.2.1 ▸ Nat.min_le_right _ _) h, ?_, fun f hf => ?_⟩
  · exact forFrames_preserves (P := fun t => t.usableFrames = s.usableFrames) rfl
      fun t f _ _ ht => (usableFrames_reserveFrame t f).trans ht
  · have htotal := h.2.1
    rw [reserveFrames, forFrames_pointwise (v := testFrame) (g := fun _ => true) s
      (by intro t k; simp) (by intro t k j hj; simp [hj])]
    split
    · exact iff_of_true rfl (.inl (by omega))
    · have hout : ¬ (start / pageSize ≤ f ∧ f < stop / pageSize) := by omega
      simp [hout]

section

variable {l : Layout} (hwords : l.bitmapSize = (l.totalFrames + 63) / 64)

include hwords

private theorem usedSet_allUsed (s : State) (p : Nat) :
    usedSet (allUsed s l p) = range l.totalFrames := by
  ext g
  rw [mem_usedSet, mem_range]
  refine ⟨fun hg => hg.1, fun hg => ⟨hg, ?_⟩⟩
  have hword : g / 64 < l.bitmapSize := by omega
  have hbit : g % 64 < 64 := Nat.mod_lt _ (by decide)
  rw [testFrame_eq_getLsbD]
  show BitVec.getLsbD (if g / 64 < l.bitmapSize then BitVec.allOnes 64 else _) _
  rw [if_pos hword, BitVec.getLsbD_allOnes]
  simpa using hbit

private theorem allUsed_building (s : State) (p : Nat) :
    Building l.totalFrames l.bitmapSize (allUsed s l p) := by
  refine ⟨?_, rfl, rfl⟩
  rw [Counted, usedSet_allUsed hwords, card_range]
  rfl

theorem buildBitmap_building (s : State) (map : MemoryMap) (p : Nat) :
    Building l.totalFrames l.bitmapSize (buildBitmap s map l p) := by
  have hregions : Building l.totalFrames l.bitmapSize
      (map.regions.foldl releaseRegion (allUsed s l p)) :=
    List.foldlRecOn _ _ (allUsed_building hwords s p) fun t ht region _ =>
      (releaseRegion_building ht region).1
  unfold buildBitmap
  dsimp only
  have hreserved := (reserveFrames_building (reserveFrames_building (reserveFrames_building
    hregions l.kernelStart l.kernelEnd).1 l.mmapStart l.mmapEnd).1 (p / pageSize * pageSize)
    (alignUp (p + l.metaBytes) pageSize)).1
  split
  · rename_i hpos
    exact ⟨.primitive hreserved.1 (.reserve hpos),
      (reserveFrame_shape _ 0).total.trans hreserved.2.1,
      (reserveFrame_shape _ 0).words.trans hreserved.2.2⟩
  · exact hreserved

end

/-- Bitmap and reference counts agree on every frame but the null guard. -/
def Agrees (s : State) : Prop :=
  ∀ f, 1 ≤ f → f < s.totalFrames → (testFrame s f = true ↔ 1 ≤ s.refcount f)

/-- The state `t` is the bitmap `b` with seeded counts, in service. -/
structure Seeded (b t : State) : Prop where
  total : t.totalFrames = b.totalFrames
  words : t.bitmapSize = b.bitmapSize
  used : t.usedFrames = b.usedFrames
  usable : t.usableFrames = b.usableFrames
  test : ∀ f, testFrame t f = testFrame b f
  ref : ∀ f, f < b.totalFrames → t.refcount f = if testFrame b f then 1 else 0
  cursor : t.allocCursor = 1
  init : t.initialized = true

variable {map : MemoryMap}

theorem initializePmm_seeded {kernelBase kernelSize : Nat}
    (h : initializePmm s map kernelBase kernelSize = some t) :
    ∃ p, findPlacement (layout map kernelBase kernelSize) map = some p ∧
      Seeded (buildBitmap s map (layout map kernelBase kernelSize) p) t := by
  unfold initializePmm at h
  dsimp only at h
  split at h
  · cases h
  rename_i p hp
  refine ⟨p, hp, ?_⟩
  generalize buildBitmap s map (layout map kernelBase kernelSize) p = b at h
  -- the seeding loop writes counts only
  have hkept : ∀ {α : Type} (g : State → α), (∀ u f, g (seedRefcount u f) = g u) →
      g (forFrames 0 b.totalFrames seedRefcount b) = g b := fun g hg =>
    forFrames_preserves (P := fun u => g u = g b) rfl fun u f _ _ hu => (hg u f).trans hu
  cases h
  refine ⟨hkept State.totalFrames fun _ _ => rfl, hkept State.bitmapSize fun _ _ => rfl,
    hkept State.usedFrames fun _ _ => rfl, hkept State.usableFrames fun _ _ => rfl,
    fun f => hkept (fun u => testFrame u f) fun _ _ => rfl, fun f hf => ?_, rfl, rfl⟩
  have hpoint : frameView (forFrames 0 b.totalFrames seedRefcount b) f = _ :=
    forFrames_pointwise (g := fun x => (x.1, if x.1 then 1 else 0)) b
      (by intro u k; simp [frameView, seedRefcount, setRefcount, testFrame])
      (by intro u k j hj; simp [frameView, seedRefcount, setRefcount, testFrame, hj]) f
  rw [if_pos ⟨Nat.zero_le f, hf⟩] at hpoint
  exact congrArg Prod.snd hpoint

/-- After `Initialize` the counter is exact, the two tables agree, the manager
is in service and no frame has more than one owner. -/
theorem initializePmm_spec {kernelBase kernelSize : Nat}
    (h : initializePmm s map kernelBase kernelSize = some t) :
    Counted t ∧ Agrees t ∧ t.initialized ∧ ∀ f, f < t.totalFrames → t.refcount f ≤ 1 := by
  obtain ⟨p, _, hseeded⟩ := initializePmm_seeded h
  have hbuild := (buildBitmap_building (l := layout map kernelBase kernelSize) rfl s map p).1
  generalize buildBitmap s map (layout map kernelBase kernelSize) p = b at hseeded hbuild
  refine ⟨?_, ?_, hseeded.init, ?_⟩
  · have hset : usedSet t = usedSet b := by
      ext g
      simp only [mem_usedSet, hseeded.total, hseeded.test]
    rw [Counted, hseeded.used, hbuild, hset]
  · intro f _ hf
    rw [hseeded.test, hseeded.ref f (hseeded.total ▸ hf)]
    split <;> simp_all
  · intro f hf
    rw [hseeded.ref f (hseeded.total ▸ hf)]
    split <;> omega

/-! ## Agreement over runs -/

/-- The step does not reserve a free frame: a `ReserveRange` call names only
frames that are in use already (the null guard apart).  Every other call meets
it. -/
def ReservesUsedOnly (s : State) : Op → Prop
  | .reserveRange physAddr bytes =>
    ∀ f, 1 ≤ f → reserveStart physAddr ≤ f → f < reserveEnd s physAddr bytes → testFrame s f = true
  | _ => True

section

variable (h : Agrees s)

include h

theorem Agrees.granted {start count : Nat} (hgrant : Granted s start count t) : Agrees t := by
  intro f hpos hf
  rw [hgrant.shape.total] at hf
  rw [hgrant.test, hgrant.ref]
  by_cases hrun : start ≤ f ∧ f < start + count
  · simp [hrun]
  · simpa [hrun] using h f hpos hf

theorem Agrees.allocSpec {count : Nat} {result : Nat × State}
    (hspec : AllocSpec s count result) : Agrees result.2 := by
  rcases hspec with heq | ⟨start, _, hgrant⟩
  · rw [heq]
    exact h
  · exact h.granted hgrant

theorem Agrees.dropped (hdrop : Dropped s frame t) : Agrees t := by
  intro f hpos hf
  rw [hdrop.shape.total] at hf
  by_cases hne : f = frame
  · subst hne
    cases hdrop with
    | kept _ => exact h f hpos hf
    | shared hused _ hmany =>
      have hrc : (setRefcount s f (s.refcount f - 1)).refcount f = s.refcount f - 1 := by
        simp
      rw [testFrame_setRefcount, hused]
      exact ⟨fun _ => by omega, fun _ => rfl⟩
    | released _ _ =>
      have hrc : (clearFrame (setRefcount s f 0) f).refcount f = 0 := by
        simp
      have hbit : testFrame (clearFrame (setRefcount s f 0) f) f = false := by simp
      constructor
      · intro hset
        exact absurd (hset.symm.trans hbit) (by decide)
      · intro hone
        exact absurd (hrc ▸ hone : 1 ≤ 0) (by decide)
  · rw [(hdrop.other hne).1, (hdrop.other hne).2]
    exact h f hpos hf

theorem Agrees.incRef (physAddr : Nat) : Agrees (incRef s physAddr) := by
  unfold Pmm.incRef
  dsimp only
  split
  · rename_i hcount
    intro f hpos hf
    by_cases hne : f = physAddr / pageSize
    · subst hne
      have hused : testFrame s (physAddr / pageSize) := by
        have hall := hcount.1
        simp only [countable, Bool.and_eq_true] at hall
        exact hall.2
      simp [hused]
    · simpa [hne] using h f hpos hf
  · exact h

/-- A reservation of used frames changes nothing but, possibly, the bit of the
null guard. -/
theorem Agrees.reserveRange {physAddr bytes : Nat}
    (hused : ReservesUsedOnly s (.reserveRange physAddr bytes)) :
    Agrees (reserveRange s physAddr bytes) := by
  unfold Pmm.reserveRange
  split
  · exact h
  let r := forFrames (reserveStart physAddr) (reserveEnd s physAddr bytes) reserveFrame s
  have hshape : SameShape s r := forFrames_preserves (.refl s)
    (fun t f _ _ ht => ht.trans (reserveFrame_shape t f))
  have hcounts : r.refcount = s.refcount :=
    forFrames_preserves (P := fun t => t.refcount = s.refcount) rfl
      (fun t f _ _ ht => (refcount_reserveFrame t f).trans ht)
  intro f hpos hf
  rw [hshape.total] at hf
  have hbit : testFrame r f = testFrame s f := by
    unfold r
    rw [forFrames_pointwise (v := testFrame) (g := fun _ => true) s
      (by intro t k; simp) (by intro t k j hj; simp [hj])]
    split
    · rename_i hin
      exact (hused f hpos hin.1 hin.2).symm
    · rfl
  rw [hbit, hcounts]
  exact h f hpos hf

theorem Agrees.step {op : Op} (hop : ReservesUsedOnly s op) : Agrees (step s op) := by
  cases op with
  | allocFrame => exact h.allocSpec (allocFrame_spec s)
  | allocFrames count => exact h.allocSpec (allocFrames_spec s count)
  | allocFramesAbove count minPhys => exact h.allocSpec (allocFramesAbove_spec s count minPhys)
  | allocFramesBelow count maxPhys => exact h.allocSpec (allocFramesBelow_spec s count maxPhys)
  | incRef physAddr => exact h.incRef physAddr
  | freeFrame physAddr =>
    simp only [Pmm.step, freeFrame]
    split
    · exact h
    · split
      · exact h
      · exact h.dropped (dropFrame_spec s _)
  | freeFrames physAddr count =>
    simp only [Pmm.step, freeFrames]
    split
    · exact h
    · exact forFrames_preserves h (fun t f _ _ ht => ht.dropped (dropFrame_spec t f))
  | reserveRange physAddr bytes => exact h.reserveRange hop

end

theorem step_shape (s : State) (op : Op) : SameShape s (step s op) := by
  refine step_preserves (fun t u ht hp => ht.trans ?_) (.refl s) op
  cases hp with
  | idle => exact .refl t
  | grant hgrant => exact hgrant.shape
  | share _ _ _ _ => exact ⟨rfl, rfl, rfl⟩
  | drop _ hdrop => exact hdrop.shape
  | reserve _ => exact reserveFrame_shape t _

/-- With the tables in agreement, a shared frame survives one release. -/
theorem Agrees.freeFrame_incRef (h : Agrees s) (hinit : s.initialized)
    {f : Nat} (hpos : 1 ≤ f) (hf : f < s.totalFrames) (hused : testFrame s f) :
    testFrame (freeFrame (Pmm.incRef s (f * pageSize)) (f * pageSize)) f := by
  have hdiv : f * pageSize / pageSize = f := Nat.mul_div_cancel f (by decide)
  have hone : 1 ≤ s.refcount f := (h f hpos hf).mp hused
  have hcount : countable s (f * pageSize) := by
    simp only [countable, hdiv, hinit, hused, Bool.and_true, Bool.true_and, Bool.and_eq_true,
      bne_iff_ne, decide_eq_true_eq]
    omega
  have hguard : ¬ (f = 0 ∨ s.totalFrames ≤ f) := by omega
  have hstays : ∀ t, SameShape s t → testFrame t f → 1 < t.refcount f →
      testFrame (freeFrame t (f * pageSize)) f := by
    intro t hshape hbit hmany
    simp only [freeFrame, hdiv, hshape.init, hshape.total, hinit, hguard, Bool.not_true,
      Bool.false_eq_true, ↓reduceIte]
    have hdrop := dropFrame_spec t f
    generalize dropFrame t f = u at hdrop
    cases hdrop with
    | kept | shared => exact hbit
    | released _ hlast => omega
  unfold Pmm.incRef
  simp only [hdiv]
  split
  · -- two references: the release only counts down
    refine hstays _ ⟨rfl, rfl, rfl⟩ hused ?_
    simp only [refcount_setRefcount, ↓reduceIte]
    omega
  · -- saturated: neither call changes the count again
    rename_i hfull
    have hpin : ¬ s.refcount f < 0xFFFF := fun hroom => hfull ⟨hcount, hroom⟩
    exact hstays s (.refl s) hused (by omega)

/-- In every run after `Initialize` whose `ReserveRange` calls name used frames
only, a frame's bit is set exactly when its reference count is at least one;
so a frame that has been shared once needs two releases. -/
theorem refcount_agrees_of_run {s₀ s₁ s : State} {map : MemoryMap}
    {kernelBase kernelSize : Nat} (hinit : initializePmm s₀ map kernelBase kernelSize = some s₁)
    (hrun : ReflTransGen (fun t u => ∃ op, ReservesUsedOnly t op ∧ u = step t op) s₁ s) :
    ∀ f, 1 ≤ f → f < s.totalFrames → (testFrame s f = true ↔ 1 ≤ s.refcount f) ∧
      (testFrame s f = true →
        testFrame (freeFrame (incRef s (f * pageSize)) (f * pageSize)) f = true) := by
  obtain ⟨_, hagree, hservice, _⟩ := initializePmm_spec hinit
  have hinv : Agrees s ∧ s.initialized = true := by
    induction hrun with
    | refl => exact ⟨hagree, hservice⟩
    | tail _ hstep ih =>
      obtain ⟨op, hop, heq⟩ := hstep
      subst heq
      exact ⟨ih.1.step hop, (step_shape _ op).init.trans ih.2⟩
  intro f hpos hf
  exact ⟨hinv.1 f hpos hf, fun hused => hinv.1.freeFrame_incRef hinv.2 hpos hf hused⟩

/-- The manager before `Initialize`, with cleared tables. -/
def blankState : State :=
  { bitmap := fun _ => 0#64
    refcount := fun _ => 0
    bitmapAddr := 0
    refcountAddr := 0
    bitmapSize := 0
    totalFrames := 0
    usedFrames := 0
    usableFrames := 0
    allocCursor := 1
    initialized := false }

/-- A machine with 64 KiB of free memory at address 0. -/
def smallMap : MemoryMap :=
  { regions := [{ base := 0, pages := 16, endAddr := 0x10000, type := .free }]
    regionsAddr := 0x100000
    regionBytes := 32 }

/-- The manager of the small machine after `Initialize`. -/
def smallState : State :=
  (initializePmm blankState smallMap 0 0).getD blankState

theorem smallState_initializePmm : initializePmm blankState smallMap 0 0 = some smallState := by
  rfl

/-- On the small machine frame 4 is allocated and then reserved: the run keeps
the agreement. -/
theorem refcount_agrees_smallState :
    let s := step (step smallState (.allocFramesAbove 3 0x4000)) (.reserveRange 0x4000 1)
    (testFrame s 4 = true ↔ 1 ≤ s.refcount 4) ∧
      (testFrame s 4 = true →
        testFrame (freeFrame (incRef s (4 * pageSize)) (4 * pageSize)) 4 = true) := by
  refine refcount_agrees_of_run smallState_initializePmm
    ((ReflTransGen.single ⟨.allocFramesAbove 3 0x4000, trivial, rfl⟩).tail
      ⟨.reserveRange 0x4000 1, ?_, rfl⟩) 4 (by decide +kernel) (by decide +kernel)
  intro f _ hlo hhi
  have hf : f = 4 := by
    have h1 : reserveStart 0x4000 = 4 := by decide +kernel
    have h2 : reserveEnd (step smallState (.allocFramesAbove 3 0x4000)) 0x4000 1 = 5 := by
      decide +kernel
    omega
  subst hf
  decide +kernel

/-- `ReserveRange` on the free frame 2 of the small machine sets its bit and
leaves its count at zero: the agreement does not hold in every reachable
state. -/
theorem reserveRange_breaks_agreement :
    ¬ ∀ (s₀ s₁ s : State) (map : MemoryMap) (kernelBase kernelSize : Nat),
      initializePmm s₀ map kernelBase kernelSize = some s₁ → ReflTransGen Call s₁ s →
      ∀ f, 1 ≤ f → f < s.totalFrames → (testFrame s f = true ↔ 1 ≤ s.refcount f) := by
  intro hall
  have h := hall blankState smallState (step smallState (.reserveRange 0x2000 1)) smallMap 0 0
    smallState_initializePmm (ReflTransGen.single ⟨_, rfl⟩) 2 (by decide +kernel)
      (by decide +kernel)
  exact absurd (h.mp (by decide +kernel)) (by decide +kernel)

/-! ## The initial free set -/

/-- The descriptor hands the frame to the allocator. -/
def MemoryRegion.Covers (r : MemoryRegion) (f : Nat) : Prop :=
  r.type = .free ∧ r.base / pageSize ≤ f ∧ f < r.base / pageSize + r.pages
deriving Decidable

/-- The base and the number of pages of every descriptor are 64-bit words. -/
def MemoryMap.Words (map : MemoryMap) : Prop :=
  ∀ r ∈ map.regions, r.base < 2 ^ 64 ∧ r.pages < 2 ^ 64

/-- A frame of the range from `start` to `stop`, rounded to pages. -/
def InPages (start stop f : Nat) : Prop :=
  start / pageSize ≤ f ∧ f < alignUp stop pageSize / pageSize
deriving Decidable

theorem testFrame_releaseRegion {r : MemoryRegion} (hr : r.base < 2 ^ 64 ∧ r.pages < 2 ^ 64)
    (htotal : s.totalFrames < 2 ^ 64) {f : Nat} (hf : f < s.totalFrames) :
    testFrame (releaseRegion s r) f = true ↔ testFrame s f = true ∧ ¬ r.Covers f := by
  unfold releaseRegion MemoryRegion.Covers
  split_ifs with hfree
  · rw [forFrames_pointwise (v := testFrame) (g := fun _ => false) s
      (by intro t k; simp [testFrame_releaseUsable])
      (by intro t k j hj; simp [testFrame_releaseUsable, hj])]
    have hstart : r.base / pageSize < 2 ^ 64 := (Nat.div_le_self _ _).trans_lt hr.1
    generalize r.base / pageSize = start at hstart ⊢
    -- an end that wraps around is cut off at the tracked top like any other
    have hin : start ≤ f ∧ f < (if (start + r.pages) % 2 ^ 64 < start ∨
        s.totalFrames < (start + r.pages) % 2 ^ 64 then s.totalFrames
        else (start + r.pages) % 2 ^ 64) ↔ start ≤ f ∧ f < start + r.pages := by
      split <;> omega
    simp only [hin]
    split <;> simp [*]
  · simp [hfree]

/-- Step 2 frees the frames that a free descriptor covers, and counts each of them once. -/
theorem releaseRegions_spec (htotal : total < 2 ^ 64)
    {regions : List MemoryRegion} (hregions : ∀ r ∈ regions, r.base < 2 ^ 64 ∧ r.pages < 2 ^ 64)
    (h : Building total words s) : Building total words (regions.foldl releaseRegion s) ∧
      (regions.foldl releaseRegion s).usableFrames + (regions.foldl releaseRegion s).usedFrames =
        s.usableFrames + s.usedFrames ∧
      ∀ f < total, testFrame (regions.foldl releaseRegion s) f = true ↔
        testFrame s f = true ∧ ∀ r ∈ regions, ¬ r.Covers f := by
  induction regions generalizing s with
  | nil => simpa using h
  | cons r regions ih =>
    obtain ⟨hone, hsum⟩ := releaseRegion_building h r
    obtain ⟨hbuilt, hrest, htest⟩ := ih (fun r' hr' => hregions r' (.tail _ hr')) hone
    refine ⟨hbuilt, hrest.trans hsum, fun f hf => (htest f hf).trans ?_⟩
    rw [testFrame_releaseRegion (hregions r (.head _)) (h.2.1 ▸ htotal) (h.2.1 ▸ hf),
      List.forall_mem_cons, and_assoc]

/-- The bits of the finished bitmap, and the count of usable frames. -/
theorem buildBitmap_spec {l : Layout} (hwords : l.bitmapSize = (l.totalFrames + 63) / 64)
    (hlt : l.totalFrames < 2 ^ 64) (hmap : map.Words) (s : State) (p : Nat) :
    (∀ f < l.totalFrames, testFrame (buildBitmap s map l p) f = true ↔
      f = 0 ∨ (p / pageSize * pageSize / pageSize ≤ f ∧
        f < alignUp (p + l.metaBytes) pageSize / pageSize) ∨
      (l.mmapStart / pageSize ≤ f ∧ f < l.mmapEnd / pageSize) ∨
      (l.kernelStart / pageSize ≤ f ∧ f < l.kernelEnd / pageSize) ∨
      ∀ r ∈ map.regions, ¬ r.Covers f) ∧ (buildBitmap s map l p).usableFrames =
      {f ∈ range l.totalFrames | ∃ r ∈ map.regions, r.Covers f}.card := by
  have hall := allUsed_building hwords s p
  have hones : ∀ f < l.totalFrames, testFrame (allUsed s l p) f = true := fun f hf =>
    (mem_usedSet.mp (by rw [usedSet_allUsed hwords]; exact mem_range.mpr hf)).2
  obtain ⟨hreleased, hsum, htest⟩ := releaseRegions_spec hlt hmap hall
  obtain ⟨hkernel, husable1, htest1⟩ := reserveFrames_building hreleased l.kernelStart l.kernelEnd
  obtain ⟨hmmap, husable2, htest2⟩ := reserveFrames_building hkernel l.mmapStart l.mmapEnd
  obtain ⟨hmeta, husable3, htest3⟩ := reserveFrames_building hmmap (p / pageSize * pageSize)
    (alignUp (p + l.metaBytes) pageSize)
  have hcover : usedSet (map.regions.foldl releaseRegion (allUsed s l p)) =
      {f ∈ range l.totalFrames | ¬ ∃ r ∈ map.regions, r.Covers f} := by
    ext f
    rw [mem_usedSet, hreleased.2.1, mem_filter, mem_range]
    refine and_congr_right fun hf => ?_
    simp [htest f hf, hones f hf]
  have hsplit := card_filter_add_card_filter_not
    (s := range l.totalFrames) (fun f => ∃ r ∈ map.regions, r.Covers f)
  have hcount := hreleased.1
  rw [Counted, hcover] at hcount
  rw [card_range] at hsplit
  have hstart : (allUsed s l p).usableFrames + (allUsed s l p).usedFrames = l.totalFrames :=
    Nat.zero_add _
  have htotal := hmeta.2.1
  unfold buildBitmap
  dsimp only
  refine ⟨fun f hf => ?_, ?_⟩
  · rw [if_pos (by omega), testFrame_reserveFrame, Bool.or_eq_true, decide_eq_true_eq,
      htest3 f hf, htest2 f hf, htest1 f hf, htest f hf, and_iff_right (hones f hf)]
  · split
    · rw [usableFrames_reserveFrame]
      omega
    · omega

theorem layout_totalFrames_lt (map : MemoryMap) (kernelBase kernelSize : Nat) :
    (layout map kernelBase kernelSize).totalFrames < 2 ^ 64 := by
  have hround : ∀ value, alignUp value pageSize < 2 ^ 64 := fun value => by
    unfold alignUp pageSize uint64Max
    split
    · omega
    · split <;> omega
  exact (Nat.div_le_self _ _).trans_lt (hround _)

/-- After `Initialize` a frame is free exactly when it is not the null guard, a free descriptor
covers it, and it is no frame of the kernel image, the memory map or the metadata.  The frames
are those of the layout, and the two counters count the frames that are not free and the frames
that free descriptors cover. -/
theorem initial_free_set {s t : State} {map : MemoryMap} {kernelBase kernelSize : Nat}
    (hmap : map.Words) (h : initializePmm s map kernelBase kernelSize = some t) :
    ∃ p, findPlacement (layout map kernelBase kernelSize) map = some p ∧
      t.totalFrames = (layout map kernelBase kernelSize).totalFrames ∧
      (∀ f < t.totalFrames, testFrame t f = false ↔ 0 < f ∧ (∃ r ∈ map.regions, r.Covers f) ∧
          ¬ InPages kernelBase ((kernelBase + kernelSize) % 2 ^ 64) f ∧ ¬ InPages map.regionsAddr
            ((map.regionsAddr + map.regions.length * map.regionBytes) % 2 ^ 64) f ∧
          ¬ InPages p (p + (layout map kernelBase kernelSize).metaBytes) f) ∧
      t.usedFrames = {f ∈ range t.totalFrames | testFrame t f = true}.card ∧
      t.usableFrames = {f ∈ range t.totalFrames | ∃ r ∈ map.regions, r.Covers f}.card := by
  obtain ⟨p, hp, hseeded⟩ := initializePmm_seeded h
  obtain ⟨htest, husable⟩ := buildBitmap_spec rfl
    (layout_totalFrames_lt map kernelBase kernelSize) hmap s p
  have htotal := hseeded.total.trans
    (buildBitmap_building rfl s map p).2.1
  have hround : ∀ a, a / pageSize * pageSize / pageSize = a / pageSize := fun a =>
    Nat.mul_div_cancel _ (by decide)
  refine ⟨p, hp, htotal, fun f hf => ?_, (initializePmm_spec h).1, ?_⟩
  · have hbit := htest f (htotal ▸ hf)
    rw [← hseeded.test] at hbit
    rw [← Bool.not_eq_true, hbit]
    simp only [layout, hround, InPages, not_or, not_forall, not_not, exists_prop,
      Nat.pos_iff_ne_zero]
    exact ⟨fun ⟨hpos, hmeta, harray, himage, hcover⟩ => ⟨hpos, hcover, himage, harray, hmeta⟩,
      fun ⟨hpos, hcover, himage, harray, hmeta⟩ => ⟨hpos, hmeta, harray, himage, hcover⟩⟩
  · rw [hseeded.usable, husable, htotal]

/-- On the small machine frame 4 is free, and all its frames are usable. -/
theorem initial_free_set_smallState : testFrame smallState 4 = false ∧
      smallState.usableFrames = {f ∈ range smallState.totalFrames |
        ∃ r ∈ smallMap.regions, r.Covers f}.card := by
  obtain ⟨p, hp, _, hfree, _, husable⟩ := initial_free_set
    (by simp [MemoryMap.Words, smallMap]) smallState_initializePmm
  obtain rfl : 4096 = p := Option.some.inj hp
  exact ⟨(hfree 4 (by decide +kernel)).mpr (by decide +kernel), husable⟩

end InstantOS.Pmm
