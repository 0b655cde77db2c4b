import InstantOS.Memory.PmmRun

/-!
# The frame searches miss nothing

`FindFirstFree` and the run search return 0 only when the range they look through
holds no run of free frames.  `AllocFrame` starts at its cursor, but falls back to a
search from frame 1 on, so the cursor decides which frame it finds and not whether.
-/

namespace InstantOS.Pmm

open Relation

/-! ## The searches -/

variable {s t : State}

section

variable {f : Nat} (hpos : 1 ≤ f) (hf : f < s.totalFrames) (hfree : testFrame s f = false)

include hpos hf hfree

/-- A word without a free frame is left, one with a free frame ends the search. -/
private theorem scanWord_complete (i : Nat) : ∀ n, n ≤ 64 → i * 64 + (64 - n) ≤ f →
      (∃ r, scanWord s 1 i n = some r ∧ r ≠ 0) ∨ scanWord s 1 i n = none ∧ i * 64 + 64 ≤ f := by
  intro n
  induction n with
  | zero => exact fun _ hle => .inr ⟨rfl, hle⟩
  | succ n ih =>
    intro hn hle
    simp only [scanWord]
    split
    · exact ih (by omega) (by omega)
    split
    · omega
    split
    · rename_i hbit
      refine ih (by omega) ?_
      -- the frame of the set bit is not the free one
      have hne : f ≠ i * 64 + (63 - n) := by
        rintro rfl
        rw [testFrame_eq_getLsbD, show (i * 64 + (63 - n)) / 64 = i by omega,
          show (i * 64 + (63 - n)) % 64 = 63 - n by omega, hbit] at hfree
        cases hfree
      omega
    · exact .inl ⟨_, rfl, by omega⟩

private theorem scanFrom_complete :
    ∀ n i, i * 64 ≤ f → f < (i + n) * 64 → scanFrom s 1 n i ≠ 0 := by
  intro n
  induction n with
  | zero => intro i _ _; omega
  | succ n ih =>
    intro i hi hn
    simp only [scanFrom]
    split
    · rename_i hfull
      refine ih (i + 1) ?_ (by omega)
      by_contra hlt
      rw [testFrame_eq_getLsbD, show f / 64 = i by omega, hfull, BitVec.getLsbD_allOnes] at hfree
      simp only [decide_eq_false_iff_not] at hfree
      omega
    · rcases scanWord_complete hpos hf hfree i 64 le_rfl (by omega) with
        ⟨r, hr, hne⟩ | ⟨hnone, hpast⟩
      · rw [hr]
        exact hne
      · rw [hnone]
        exact ih (i + 1) (by omega) (by omega)

private theorem findFirstFree_complete (hwords : s.totalFrames ≤ s.bitmapSize * 64) :
    findFirstFree s 1 ≠ 0 :=
  scanFrom_complete hpos hf hfree _ _ (by omega) (by omega)

end

/-- The run of `runLen` frames before `frame` may be the beginning of the run that is missed. -/
private theorem findRun_complete {count r : Nat}
    (hfree : ∀ f, r ≤ f → f < r + count → testFrame s f = false) :
    ∀ n frame runStart runLen, 0 < frame → (0 < runLen → 0 < runStart) → runLen < count →
      frame ≤ r + runLen → r + count ≤ frame + n → findRun s count n frame runStart runLen ≠ 0 := by
  intro n
  induction n with
  | zero => intros; omega
  | succ n ih =>
    intro frame runStart runLen hpos hrun hlen hle hend
    simp only [findRun]
    split
    · rename_i hused
      refine ih _ _ _ (by omega) (by omega) (by omega) ?_ (by omega)
      by_contra hlt
      rw [hfree frame (by omega) (by omega)] at hused
      cases hused
    · have hnow : 0 < if runLen = 0 then frame else runStart := by
        split <;> omega
      split
      · exact hnow.ne'
      · exact ih _ _ _ (by omega) (fun _ => hnow) (by omega) (by omega) (by omega)

/-! ## The allocations -/

/-- `count` free frames from the frame `r` on, behind the null guard, of the tracked range and
of the physical addresses `[lo, hi)`. -/
structure FreeRun (s : State) (count lo hi r : Nat) : Prop where
  nonempty : 0 < count
  pos : 1 ≤ r
  tracked : r + count ≤ s.totalFrames
  above : lo ≤ r * pageSize
  below : (r + count) * pageSize ≤ hi
  free : ∀ f, r ≤ f → f < r + count → testFrame s f = false

/-- An allocation returns 0 if and only if there is no such run; otherwise it returns one, and
exactly its frames become used, with one owner each. -/
def Searches (s : State) (count lo hi : Nat) (result : Nat × State) : Prop :=
  (result.1 = 0 ↔ ∀ r, ¬ FreeRun s count lo hi r) ∧
    (result.1 ≠ 0 → ∃ r, result.1 = r * pageSize ∧ FreeRun s count lo hi r ∧
      Granted s r count result.2)

theorem AllocSpec.searches {count lo hi : Nat} {result : Nat × State} (h : AllocSpec s count result)
    (hbounds : ∀ r, result.1 = r * pageSize → Granted s r count result.2 →
      lo ≤ r * pageSize ∧ (r + count) * pageSize ≤ hi)
    (hcomplete : ∀ r, FreeRun s count lo hi r → result.1 ≠ 0) : Searches s count lo hi result := by
  rcases h with heq | ⟨r, hr, hgrant⟩
  · have hzero : result.1 = 0 := by rw [heq]
    exact ⟨iff_of_true hzero fun r hr => hcomplete r hr hzero, fun hne => absurd hzero hne⟩
  obtain ⟨habove, hbelow⟩ := hbounds r hr hgrant
  have hrun : FreeRun s count lo hi r :=
    ⟨hgrant.nonempty, hgrant.pos, hgrant.bound, habove, hbelow, hgrant.free⟩
  exact ⟨iff_of_false (hcomplete r hrun) fun hnone => hnone r hrun, fun _ => ⟨r, hr, hrun, hgrant⟩⟩

/-- What `Initialize` sets up and every call keeps. -/
structure Ready (s : State) : Prop where
  init : s.initialized = true
  words : s.totalFrames ≤ s.bitmapSize * 64
  cursor : 1 ≤ s.allocCursor

private theorem step_cursor (h : 1 ≤ s.allocCursor) (op : Op) : 1 ≤ (step s op).allocCursor := by
  have hloop : ∀ {body : State → Nat → State} (lo hi : Nat),
      (∀ t f, (body t f).allocCursor = t.allocCursor) →
        1 ≤ (forFrames lo hi body s).allocCursor := fun lo hi hbody =>
    forFrames_preserves (P := fun t => 1 ≤ t.allocCursor) h fun t f _ _ ht => (hbody t f).symm ▸ ht
  have htake : ∀ start count, 1 ≤ (takeRun s start count).2.allocCursor := by
    intro start count
    unfold takeRun
    split
    · exact h
    · exact hloop _ _ fun _ _ => rfl
  have hdrop : ∀ t f, (dropFrame t f).allocCursor = t.allocCursor := by
    intro t f
    unfold dropFrame
    split_ifs <;> rfl
  have hreserve : ∀ t f, (reserveFrame t f).allocCursor = t.allocCursor := by
    intro t f
    unfold reserveFrame
    split <;> rfl
  cases op
  all_goals
    simp only [step, allocFrame, allocFrames, allocFramesAbove, allocFramesBelow, incRef, freeFrame,
      freeFrames, reserveRange]
    split_ifs
  all_goals first
    | exact h
    | exact htake _ _
    | exact (hdrop _ _).symm ▸ h
    | exact hloop _ _ hdrop
    | exact hloop _ _ hreserve
    | exact le_rfl
    | exact Nat.le_add_left 1 _

theorem Ready.of_run {s₀ s₁ : State} {map : MemoryMap} {kernelBase kernelSize : Nat}
    (hinit : initializePmm s₀ map kernelBase kernelSize = some s₁)
    (hrun : ReflTransGen Call s₁ s) : Ready s := by
  induction hrun with
  | refl =>
    obtain ⟨p, _, hseeded⟩ := initializePmm_seeded hinit
    obtain ⟨_, htotal, hwords⟩ :=
      buildBitmap_building (l := layout map kernelBase kernelSize) rfl s₀ map p
    refine ⟨hseeded.init, ?_, hseeded.cursor.ge⟩
    rw [hseeded.total, hseeded.words, htotal, hwords]
    simp only [layout]
    omega
  | @tail t _ _ hstep ih =>
    obtain ⟨op, rfl⟩ := hstep
    have hshape := step_shape t op
    exact ⟨hshape.init.trans ih.init, hshape.total ▸ hshape.words ▸ ih.words,
      step_cursor ih.cursor op⟩

section

variable (h : Ready s)

include h

theorem Ready.allocFrame_searches : Searches s 1 0 (s.totalFrames * pageSize) (allocFrame s) := by
  refine (allocFrame_spec s).searches
    (fun r _ hgrant => ⟨Nat.zero_le _, Nat.mul_le_mul_right _ hgrant.bound⟩) fun r hr => ?_
  have hcursor := h.cursor
  have hone : findFirstFree s 1 ≠ 0 :=
    findFirstFree_complete hr.pos hr.tracked (hr.free r le_rfl (by omega)) h.words
  have hne : (if findFirstFree s s.allocCursor = 0 ∧ 1 < s.allocCursor then findFirstFree s 1
      else findFirstFree s s.allocCursor) ≠ 0 := by
    split
    · exact hone
    · intro hzero
      have hcur : s.allocCursor = 1 := by omega
      exact hone (hcur ▸ hzero)
  rw [allocFrame, if_neg (by simp [h.init])]
  rw [if_neg hne]
  exact Nat.mul_ne_zero hne (by decide)

/-- The three searches for a run from the frame they find. -/
private theorem Ready.takeRun_searches {start count lo hi : Nat} {result : Nat × State}
    (hresult : result = if !s.initialized ∨ count = 0 then (0, s) else takeRun s start count)
    (hspec : AllocSpec s count result) (hbounds : start ≠ 0 → Granted s start count result.2 →
      lo ≤ start * pageSize ∧ (start + count) * pageSize ≤ hi)
    (hcomplete : ∀ r, FreeRun s count lo hi r → start ≠ 0) : Searches s count lo hi result := by
  have hfirst : 0 < count → result.1 = start * pageSize := by
    intro hcount
    rw [hresult, if_neg (by simp [h.init, hcount.ne']), takeRun]
    split
    · rename_i hzero
      rw [hzero, Nat.zero_mul]
    · rfl
  refine hspec.searches (fun r hr hgrant => ?_) fun r hr => ?_
  · obtain rfl : start = r := Nat.eq_of_mul_eq_mul_right (by decide)
      ((hfirst hgrant.nonempty).symm.trans hr)
    exact hbounds hgrant.pos.ne' hgrant
  · rw [hfirst hr.nonempty]
    exact Nat.mul_ne_zero (hcomplete r hr) (by decide)

theorem Ready.allocFrames_searches (count : Nat) :
    Searches s count 0 (s.totalFrames * pageSize) (allocFrames s count) := by
  refine h.takeRun_searches rfl (allocFrames_spec s count)
    (fun _ hgrant => ⟨Nat.zero_le _, Nat.mul_le_mul_right _ hgrant.bound⟩) fun r hr => ?_
  have hpos := hr.pos
  have htracked := hr.tracked
  rw [findContiguous, if_neg hr.nonempty.ne']
  split
  · exact findFirstFree_complete hpos (by omega) (hr.free r le_rfl (by omega)) h.words
  · exact findRun_complete hr.free _ _ _ _ (by decide) (by decide) hr.nonempty hpos (by omega)

theorem Ready.allocFramesAbove_searches (count : Nat) {minPhys : Nat}
    (haligned : minPhys % pageSize = 0) :
    Searches s count minPhys (s.totalFrames * pageSize) (allocFramesAbove s count minPhys) := by
  refine h.takeRun_searches rfl (allocFramesAbove_spec s count minPhys)
    (fun hne hgrant => ⟨?_, Nat.mul_le_mul_right _ hgrant.bound⟩) fun r hr => ?_
  · have hlow := (findRun_start_free rfl hne).1
    simp only [pageSize] at *
    omega
  · obtain ⟨hcount, hpos, htracked, habove, -, hfree⟩ := hr
    simp only [pageSize] at *
    exact findRun_complete hfree _ _ _ _ (by omega) (by decide) hcount (by omega) (by omega)

theorem Ready.allocFramesBelow_searches (count maxPhys : Nat) :
    Searches s count 0 maxPhys (allocFramesBelow s count maxPhys) := by
  refine h.takeRun_searches rfl (allocFramesBelow_spec s count maxPhys)
    (fun hne hgrant => ⟨Nat.zero_le _, ?_⟩) fun r hr => ?_
  · have hhigh := (findRun_start_free rfl hne).2.1
    have hcount := hgrant.nonempty
    simp only [pageSize] at *
    omega
  · obtain ⟨hcount, hpos, htracked, -, hbelow, hfree⟩ := hr
    simp only [pageSize] at *
    exact findRun_complete hfree _ _ _ _ (by decide) (by decide) hcount hpos (by omega)

end

/-- In every state after `Initialize` the four allocations find a run of free frames if there is
one in their range. -/
theorem allocation_complete {s₀ s₁ : State} {map : MemoryMap} {kernelBase kernelSize : Nat}
    (hinit : initializePmm s₀ map kernelBase kernelSize = some s₁)
    (hrun : ReflTransGen Call s₁ s) (count : Nat) :
    Searches s 1 0 (s.totalFrames * pageSize) (allocFrame s) ∧
      Searches s count 0 (s.totalFrames * pageSize) (allocFrames s count) ∧
      (∀ minPhys, minPhys % pageSize = 0 →
        Searches s count minPhys (s.totalFrames * pageSize) (allocFramesAbove s count minPhys)) ∧
      ∀ maxPhys, Searches s count 0 maxPhys (allocFramesBelow s count maxPhys) := by
  have h := Ready.of_run hinit hrun
  exact ⟨h.allocFrame_searches, h.allocFrames_searches count,
    fun _ haligned => h.allocFramesAbove_searches count haligned, h.allocFramesBelow_searches count⟩

/-- On the small machine, three frames above 16 KiB. -/
theorem allocation_complete_smallState :
    Searches smallState 3 0x4000 (smallState.totalFrames * pageSize)
      (allocFramesAbove smallState 3 0x4000) :=
  (allocation_complete smallState_initializePmm .refl 3).2.2.1 0x4000 (by decide)

end InstantOS.Pmm
