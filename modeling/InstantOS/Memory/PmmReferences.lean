import InstantOS.Memory.PmmRun

/-!
# References to physical frames over whole runs

A ledger counts, for every frame, how often it has been handed out, how often
`IncRef` succeeded on it and how often it was released.  A caller that releases
a frame no more often than it obtained references keeps the outstanding number
below the frame's reference count, or the count has saturated and the frame is
pinned for good.  Either way the frame's bit is set, and the searches never
return it.
-/

namespace InstantOS.Pmm

open Relation

/-- What the callers did to each frame since it was first handed out. -/
structure Ledger where
  allocs : Nat → Nat
  shares : Nat → Nat
  frees : Nat → Nat

def Ledger.empty : Ledger := ⟨fun _ => 0, fun _ => 0, fun _ => 0⟩

/-- References handed out and not yet given back. -/
def Ledger.outstanding (l : Ledger) (f : Nat) : Nat := l.allocs f + l.shares f - l.frees f

/-- The frames an allocation of `count` frames hands out with its result. -/
def runOf (count : Nat) (result : Nat × State) (f : Nat) : Bool :=
  result.1 != 0 && decide (result.1 / pageSize ≤ f) && decide (f < result.1 / pageSize + count)

/-- The frames a call hands out. -/
def handsOut (s : State) : Op → Nat → Bool
  | .allocFrame => runOf 1 (allocFrame s)
  | .allocFrames count => runOf count (allocFrames s count)
  | .allocFramesAbove count minPhys => runOf count (allocFramesAbove s count minPhys)
  | .allocFramesBelow count maxPhys => runOf count (allocFramesBelow s count maxPhys)
  | _ => fun _ => false

/-- The frame an `IncRef` call takes a further reference to. -/
def takesShare (s : State) : Op → Nat → Bool
  | .incRef physAddr => fun f => countable s physAddr && f == physAddr / pageSize
  | _ => fun _ => false

/-- The frames a call gives back. -/
def givesBack : Op → Nat → Bool
  | .freeFrame physAddr => fun f => f == physAddr / pageSize
  | .freeFrames physAddr count => fun f =>
    decide (physAddr / pageSize ≤ f) && decide (f < physAddr / pageSize + count)
  | _ => fun _ => false

/-- The ledger after a call.  Counting starts with a frame's first allocation:
what happens to a frame that was reserved at boot and never handed out is not
the callers' business. -/
def Ledger.record (l : Ledger) (s : State) (op : Op) : Ledger where
  allocs f := if handsOut s op f then l.allocs f + 1 else l.allocs f
  shares f := if 0 < l.allocs f ∧ takesShare s op f then l.shares f + 1 else l.shares f
  frees f := if 0 < l.allocs f ∧ givesBack op f then l.frees f + 1 else l.frees f

/-- The callers' discipline: a frame that was handed out is given back only
while a reference to it is outstanding. -/
def Disciplined (l : Ledger) (op : Op) : Prop :=
  ∀ f, 0 < l.allocs f → givesBack op f = true → l.frees f < l.allocs f + l.shares f

/-- A call by disciplined callers, with its entry in the ledger. -/
def Tick (x y : State × Ledger) : Prop :=
  ∃ op, Disciplined x.2 op ∧ y = (step x.1 op, x.2.record x.1 op)

/-! ## The invariant, one frame at a time -/

/-- What the manager knows about a frame (`bit`, `rc`) against what the
callers hold of it: they gave back no more than they obtained, and while a
reference is outstanding the frame is in use with at least that many counted
references, unless it is pinned. -/
structure FrameOk (inRange bit : Bool) (rc allocs shares frees : Nat) : Prop where
  balanced : frees ≤ allocs + shares
  silent : allocs = 0 → shares = 0 ∧ frees = 0
  tracked : 0 < allocs → inRange = true
  small : inRange = true → rc ≤ pinned
  used : frees < allocs + shares → bit = true
  counted : frees < allocs + shares → rc = pinned ∨ allocs + shares - frees ≤ rc

variable {rc allocs shares frees : Nat}

/-- Handing out a frame that was free. -/
theorem FrameOk.handOut (h : FrameOk true false rc allocs shares frees) :
    FrameOk true true 1 (allocs + 1) shares frees := by
  have hbal := h.balanced
  have hnone : ¬ frees < allocs + shares := fun hlt => absurd (h.used hlt) (by decide)
  exact
    { balanced := by omega
      silent := by omega
      tracked := fun _ => rfl
      small := fun _ => by decide
      used := fun _ => rfl
      counted := fun _ => .inr (by omega) }

/-- A successful `IncRef`. -/
theorem FrameOk.share (h : FrameOk true true rc allocs shares frees) :
    FrameOk true true (if rc < pinned then rc + 1 else rc) allocs
      (if 0 < allocs then shares + 1 else shares) frees := by
  have hbal := h.balanced
  have hsmall := h.small rfl
  refine
    { balanced := by split <;> omega
      silent := ?_
      tracked := fun _ => rfl
      small := fun _ => by split <;> omega
      used := fun _ => rfl
      counted := ?_ }
  · intro hzero
    rw [if_neg (by omega)]
    exact h.silent hzero
  · intro hlt
    by_cases hroom : rc < pinned
    · right
      by_cases hout : frees < allocs + shares
      · have hcount := (h.counted hout).resolve_left (by omega)
        split <;> omega
      · split <;> omega
    · left
      rw [if_neg hroom]
      omega

/-- A release the manager ignores: the callers' side alone moves. -/
theorem FrameOk.giveBack {inRange bit : Bool} (h : FrameOk inRange bit rc allocs shares frees)
    (hdisc : 0 < allocs → frees < allocs + shares) :
    FrameOk inRange bit rc allocs shares (if 0 < allocs then frees + 1 else frees) := by
  by_cases hpos : 0 < allocs
  · have hlt := hdisc hpos
    rw [if_pos hpos]
    exact { h with
        balanced := by omega
        silent := by omega
        used := fun _ => h.used hlt
        counted := fun _ => (h.counted hlt).imp id (by omega) }
  · rw [if_neg hpos]
    exact h

variable {s : State} {l : Ledger}

/-- A release that the manager counts: the bit and the count after
`dropFrame`. -/
theorem FrameOk.drop {inRange : Bool} {t : State} {f allocs shares frees : Nat}
    (h : FrameOk inRange (testFrame s f) (s.refcount f) allocs shares frees)
    (hdrop : Dropped s f t) (hdisc : 0 < allocs → frees < allocs + shares) :
    FrameOk inRange (testFrame t f) (t.refcount f) allocs shares
      (if 0 < allocs then frees + 1 else frees) := by
  have hback := h.giveBack hdisc
  generalize hf' : (if 0 < allocs then frees + 1 else frees) = frees' at hback
  -- a frame that was never handed out has nothing outstanding afterwards
  have hnext : frees' < allocs + shares → 0 < allocs ∧ frees' = frees + 1 := by
    intro hlt
    by_cases hpos : 0 < allocs
    · rw [if_pos hpos] at hf'
      exact ⟨hpos, hf'.symm⟩
    · have := h.silent (by omega)
      omega
  cases hdrop with
  | kept _ => exact hback
  | shared hused hpin hmany =>
    refine { hback with
        small := ?_
        used := fun _ => hused
        counted := ?_ }
    · intro ht
      have := h.small ht
      rw [refcount_setRefcount, if_pos rfl]
      omega
    · intro hlt
      obtain ⟨hpos, hfrees⟩ := hnext hlt
      rw [refcount_setRefcount, if_pos rfl]
      have hle := (h.counted (hdisc hpos)).resolve_left hpin
      omega
  | released hused hlast =>
    -- at most one counted reference: it was the outstanding one
    have hnone : ¬ frees' < allocs + shares := by
      intro hlt
      obtain ⟨hpos, hfrees⟩ := hnext hlt
      rcases h.counted (hdisc hpos) with hpin | hle
      · rw [hpin] at hlast
        exact absurd hlast (by decide)
      · omega
    exact { hback with
        small := fun _ => by simp
        used := fun hlt => absurd hlt hnone
        counted := fun hlt => absurd hlt hnone }

/-! ## The invariant of the manager -/

/-- Every frame of the manager is in order with the ledger. -/
def Backed (s : State) (l : Ledger) : Prop :=
  ∀ f, FrameOk (decide (0 < f ∧ f < s.totalFrames)) (testFrame s f) (s.refcount f)
    (l.allocs f) (l.shares f) (l.frees f)

theorem Backed.empty (h : ∀ f, f < s.totalFrames → s.refcount f ≤ pinned) :
    Backed s Ledger.empty := by
  intro f
  exact
    { balanced := Nat.le_refl _
      silent := fun _ => ⟨rfl, rfl⟩
      tracked := fun hpos => absurd hpos (Nat.lt_irrefl 0)
      small := fun ht => h f (by simp only [decide_eq_true_eq] at ht; exact ht.2)
      used := fun hlt => absurd hlt (Nat.lt_irrefl _)
      counted := fun hlt => absurd hlt (Nat.lt_irrefl _) }

/-- A free frame has no outstanding reference. -/
theorem Backed.outstanding_of_free (h : Backed s l) {f : Nat}
    (hfree : testFrame s f = false) : l.outstanding f = 0 := by
  have hf := h f
  have hnone : ¬ l.frees f < l.allocs f + l.shares f := by
    intro hlt
    rw [hf.used hlt] at hfree
    exact absurd hfree (by decide)
  unfold Ledger.outstanding
  omega

private theorem runOf_granted {t : State} {start count f r : Nat}
    (hr : r = start * pageSize) (h : Granted s start count t) :
    runOf count (r, t) f = decide (start ≤ f ∧ f < start + count) := by
  have hdiv : start * pageSize / pageSize = start := Nat.mul_div_cancel start (by decide)
  have hne : (start * pageSize != 0) := by
    have := h.pos
    rw [bne_iff_ne]
    exact Nat.mul_ne_zero (by omega) (by decide)
  simp [runOf, hr, hdiv, hne]

section

variable (h : Backed s l)

include h

/-- An allocation keeps the ledger backed, and what it hands out had no
outstanding reference. -/
private theorem Backed.alloc {op : Op} {count : Nat}
    {result : Nat × State} (hstep : step s op = result.2)
    (hout : ∀ f, handsOut s op f = runOf count result f)
    (hshare : ∀ f, takesShare s op f = false) (hback : ∀ f, givesBack op f = false)
    (hspec : AllocSpec s count result) : (Disciplined l op → Backed (step s op) (l.record s op)) ∧
      ∀ f, handsOut s op f → l.outstanding f = 0 := by
  rcases hspec with heq | ⟨start, hr, hgrant⟩
  · have hnone : ∀ f, handsOut s op f = false := by
      intro f
      rw [hout f, heq]
      simp [runOf]
    refine ⟨fun _ => ?_, fun f hf => absurd (hf.symm.trans (hnone f)) (by decide)⟩
    rw [hstep, heq]
    intro f
    simpa [Ledger.record, hnone, hshare, hback] using h f
  · have hrun : ∀ f, handsOut s op f = decide (start ≤ f ∧ f < start + count) := by
      intro f
      rw [hout f]
      exact runOf_granted hr hgrant
    constructor
    · intro _
      rw [hstep]
      intro f
      rw [hgrant.shape.total, hgrant.test, hgrant.ref]
      simp only [Ledger.record, hrun, hshare, hback]
      by_cases hin : start ≤ f ∧ f < start + count
      · have hpos := hgrant.pos
        have hbound := hgrant.bound
        have htracked : 0 < f ∧ f < s.totalFrames := by omega
        have hf := h f
        rw [hgrant.free f hin.1 hin.2] at hf
        simpa [hin, htracked] using (by simpa [htracked] using hf :
          FrameOk true false (s.refcount f) (l.allocs f) (l.shares f) (l.frees f)).handOut
      · simpa [hin] using h f
    · intro f hf
      rw [hrun f, decide_eq_true_eq] at hf
      exact h.outstanding_of_free (hgrant.free f hf.1 hf.2)

private theorem Backed.incRef (physAddr : Nat) :
    Backed (incRef s physAddr) (l.record s (.incRef physAddr)) := by
  intro f
  simp only [Ledger.record, handsOut, takesShare, givesBack, Bool.false_eq_true, and_false,
    ↓reduceIte]
  by_cases hhit : countable s physAddr ∧ f = physAddr / pageSize
  · obtain ⟨hc, hf⟩ := hhit
    have hall := hc
    simp only [countable, Bool.and_eq_true, bne_iff_ne, ← hf] at hall
    have hpos : 0 < f := Nat.pos_of_ne_zero hall.1.1.2
    have hshape : (Pmm.incRef s physAddr).totalFrames = s.totalFrames := by
      unfold Pmm.incRef
      dsimp only
      split <;> rfl
    have htest : testFrame (Pmm.incRef s physAddr) f := by
      unfold Pmm.incRef
      dsimp only
      split <;> exact hall.2
    have hrc : (Pmm.incRef s physAddr).refcount f =
        if s.refcount f < pinned then s.refcount f + 1 else s.refcount f := by
      unfold Pmm.incRef
      rw [← hf]
      by_cases hroom : s.refcount f < pinned
      · rw [if_pos ⟨hc, hroom⟩, if_pos hroom, refcount_setRefcount, if_pos rfl]
      · rw [if_neg (fun hand => hroom hand.2), if_neg hroom]
    have hok := h f
    rw [hall.2, show decide (0 < f ∧ f < s.totalFrames) = true by simp [hpos, hall.1.2]] at hok
    rw [hshape, htest, hrc, show decide (0 < f ∧ f < s.totalFrames) = true by
      simp [hpos, hall.1.2]]
    simpa [hc, hf] using hok.share
  · -- the call does not reach this frame
    have hsame : testFrame (Pmm.incRef s physAddr) f = testFrame s f ∧
        (Pmm.incRef s physAddr).refcount f = s.refcount f ∧
        (Pmm.incRef s physAddr).totalFrames = s.totalFrames := by
      unfold Pmm.incRef
      dsimp only
      split
      · rename_i hguard
        have hne : f ≠ physAddr / pageSize := fun heq => hhit ⟨hguard.1, heq⟩
        exact ⟨rfl, by simp [hne], rfl⟩
      · exact ⟨rfl, rfl, rfl⟩
    have hno : ¬ (0 < l.allocs f ∧ (countable s physAddr && f == physAddr / pageSize)) := by
      intro hand
      apply hhit
      simpa using hand.2
    rw [hsame.1, hsame.2.1, hsame.2.2]
    simpa only [hno, ↓reduceIte] using h f

private theorem Backed.freeFrame {physAddr : Nat} (hdisc : Disciplined l (.freeFrame physAddr)) :
    Backed (freeFrame s physAddr) (l.record s (.freeFrame physAddr)) := by
  intro f
  simp only [Ledger.record, handsOut, takesShare, givesBack, Bool.false_eq_true, and_false,
    ↓reduceIte, beq_iff_eq]
  by_cases hf : f = physAddr / pageSize
  · have hd : 0 < l.allocs f → l.frees f < l.allocs f + l.shares f :=
      fun hpos => hdisc f hpos (by simp [givesBack, hf])
    have hfrees : (if 0 < l.allocs f ∧ f = physAddr / pageSize then l.frees f + 1 else l.frees f) =
        if 0 < l.allocs f then l.frees f + 1 else l.frees f := by simp [← hf]
    rw [hfrees]
    unfold Pmm.freeFrame
    split
    · exact (h f).giveBack hd
    dsimp only
    split
    · exact (h f).giveBack hd
    · rw [← hf, (dropFrame_spec s f).shape.total]
      exact (h f).drop (dropFrame_spec s f) hd
  · have hfrees : (if 0 < l.allocs f ∧ f = physAddr / pageSize then l.frees f + 1 else l.frees f) =
        l.frees f := by simp [hf]
    rw [hfrees]
    unfold Pmm.freeFrame
    split
    · exact h f
    dsimp only
    split
    · exact h f
    · have hother := (dropFrame_spec s (physAddr / pageSize)).other hf
      rw [hother.1, hother.2, (dropFrame_spec s (physAddr / pageSize)).shape.total]
      exact h f

private theorem Backed.freeFrames
    {physAddr count : Nat} (hdisc : Disciplined l (.freeFrames physAddr count)) :
    Backed (freeFrames s physAddr count) (l.record s (.freeFrames physAddr count)) := by
  intro f
  have hallocs : (l.record s (.freeFrames physAddr count)).allocs f = l.allocs f := by
    simp [Ledger.record, handsOut]
  have hshares : (l.record s (.freeFrames physAddr count)).shares f = l.shares f := by
    simp [Ledger.record, takesShare]
  have hfrees : (l.record s (.freeFrames physAddr count)).frees f =
      if 0 < l.allocs f ∧ physAddr / pageSize ≤ f ∧ f < physAddr / pageSize + count then
        l.frees f + 1 else l.frees f := by
    simp [Ledger.record, givesBack]
  have hd : physAddr / pageSize ≤ f ∧ f < physAddr / pageSize + count →
      0 < l.allocs f → l.frees f < l.allocs f + l.shares f :=
    fun hf hpos => hdisc f hpos (by simp [givesBack, hf])
  rw [hallocs, hshares, hfrees]
  -- a frame the callers name and the loop does not reach is released on paper only
  have hpaper : FrameOk (decide (0 < f ∧ f < s.totalFrames)) (testFrame s f) (s.refcount f)
      (l.allocs f) (l.shares f)
      (if 0 < l.allocs f ∧ physAddr / pageSize ≤ f ∧ f < physAddr / pageSize + count then
        l.frees f + 1 else l.frees f) := by
    by_cases hf : physAddr / pageSize ≤ f ∧ f < physAddr / pageSize + count
    · simpa [hf] using (h f).giveBack (hd hf)
    · simpa [hf] using h f
  unfold Pmm.freeFrames
  split
  · exact hpaper
  have hview := frameView_forFrames_dropFrame s (physAddr / pageSize)
    (min ((physAddr / pageSize + count) % 2 ^ 64) s.totalFrames) f
  have hshape := forFrames_dropFrame_shape s (physAddr / pageSize)
    (min ((physAddr / pageSize + count) % 2 ^ 64) s.totalFrames)
  have htest := congrArg Prod.fst hview
  have href := congrArg Prod.snd hview
  dsimp only [frameView] at htest href
  rw [hshape.total, htest, href]
  split
  · have hnamed : physAddr / pageSize ≤ f ∧ f < physAddr / pageSize + count := by
      have := Nat.mod_le (physAddr / pageSize + count) (2 ^ 64)
      omega
    simpa [hnamed] using (h f).drop (dropFrame_spec s f) (hd hnamed)
  · exact hpaper

private theorem Backed.reserveRange (physAddr bytes : Nat) :
    Backed (reserveRange s physAddr bytes) (l.record s (.reserveRange physAddr bytes)) := by
  have hrec : l.record s (.reserveRange physAddr bytes) = l := by
    simp [Ledger.record, handsOut, takesShare, givesBack]
  rw [hrec]
  unfold Pmm.reserveRange
  split
  · exact h
  refine forFrames_preserves (P := fun t => Backed t l) h ?_
  intro t f _ _ ht g
  rw [(reserveFrame_shape t f).total, testFrame_reserveFrame, refcount_reserveFrame]
  have hg := ht g
  exact { hg with used := fun hlt => by rw [hg.used hlt]; simp }

/-- **One step**: a disciplined call keeps the ledger backed, and no frame it
hands out has an outstanding reference. -/
theorem Backed.step (op : Op) : (Disciplined l op → Backed (step s op) (l.record s op)) ∧
    ∀ f, handsOut s op f → l.outstanding f = 0 := by
  cases op with
  | allocFrame => exact h.alloc rfl (fun _ => rfl) (fun _ => rfl) (fun _ => rfl) (allocFrame_spec s)
  | allocFrames count =>
    exact h.alloc rfl (fun _ => rfl) (fun _ => rfl) (fun _ => rfl) (allocFrames_spec s count)
  | allocFramesAbove count minPhys =>
    exact h.alloc rfl (fun _ => rfl) (fun _ => rfl) (fun _ => rfl)
      (allocFramesAbove_spec s count minPhys)
  | allocFramesBelow count maxPhys =>
    exact h.alloc rfl (fun _ => rfl) (fun _ => rfl) (fun _ => rfl)
      (allocFramesBelow_spec s count maxPhys)
  | incRef physAddr => exact ⟨fun _ => h.incRef physAddr, fun _ hf => absurd hf Bool.false_ne_true⟩
  | freeFrame physAddr =>
    exact ⟨fun hdisc => h.freeFrame hdisc, fun _ hf => absurd hf Bool.false_ne_true⟩
  | freeFrames physAddr count =>
    exact ⟨fun hdisc => h.freeFrames hdisc, fun _ hf => absurd hf Bool.false_ne_true⟩
  | reserveRange physAddr bytes =>
    exact ⟨fun _ => h.reserveRange physAddr bytes, fun _ hf => absurd hf Bool.false_ne_true⟩

end

/-- In every run of disciplined callers after `Initialize` no allocation hands
out a frame to which a reference is outstanding, saturated counts included;
and in every reachable state, disciplined or not, `s_usedFrames` is the number
of set bits of the tracked frames. -/
theorem no_early_release {s₀ s₁ : State} {map : MemoryMap} {kernelBase kernelSize : Nat}
    (hinit : initializePmm s₀ map kernelBase kernelSize = some s₁) :
    (∀ s l, ReflTransGen Tick (s₁, Ledger.empty) (s, l) →
      ∀ op f, 0 < l.outstanding f → handsOut s op f = false) ∧
    (∀ s, ReflTransGen Call s₁ s → s.usedFrames = (usedSet s).card) := by
  obtain ⟨hcounted, _, _, hsmall⟩ := initializePmm_spec hinit
  constructor
  · intro s l hrun op f hpos
    have hbacked : ∀ x, ReflTransGen Tick (s₁, .empty) x → Backed x.1 x.2 := by
      intro x hx
      induction hx with
      | refl => exact .empty (fun f hf => Nat.le_trans (hsmall f hf) (by decide))
      | tail _ htick ih =>
        obtain ⟨op, hdisc, heq⟩ := htick
        subst heq
        exact (ih.step op).1 hdisc
    cases hout : handsOut s op f with
    | false => rfl
    | true =>
      have hzero : l.outstanding f = 0 := ((hbacked (s, l) hrun).step op).2 f hout
      omega
  · intro s hrun
    induction hrun with
    | refl => exact hcounted
    | tail _ hcall ih =>
      obtain ⟨op, heq⟩ := hcall
      subst heq
      exact Counted.step ih op

/-- On the small machine the frame of a first allocation is not handed out by
a second one. -/
theorem no_early_release_smallState : handsOut smallState .allocFrame 2 = true ∧
      handsOut (step smallState .allocFrame) .allocFrame 2 = false ∧
      (step smallState .allocFrame).usedFrames = (usedSet (step smallState .allocFrame)).card := by
  refine ⟨by decide +kernel, ?_, ?_⟩
  · refine (no_early_release smallState_initializePmm).1 _
      (Ledger.empty.record smallState .allocFrame)
      (ReflTransGen.single ⟨.allocFrame, ?_, rfl⟩) .allocFrame 2 (by decide +kernel)
    intro f hpos
    exact absurd hpos (Nat.lt_irrefl 0)
  · exact (no_early_release smallState_initializePmm).2 _ (ReflTransGen.single ⟨.allocFrame, rfl⟩)

end InstantOS.Pmm
