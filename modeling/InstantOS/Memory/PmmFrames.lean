import InstantOS.Memory.Pmm
import Mathlib.Data.Finset.Card

/-!
# Frame-level lemmas of the physical memory manager

What every bitmap update does to the bit of every frame, what the frame loops
preserve, and what the two searches return.  The invariant modules use these
facts and never unfold a search or a bitmap word.
-/

namespace InstantOS.Pmm

variable (s : State)

/-! ## Bits -/

private theorem frameBit_getLsbD (frame k : Nat) (hk : k < 64) :
    (frameBit frame).getLsbD k = decide (k = frame % 64) := by
  unfold frameBit
  have hf : frame % 64 < 64 := Nat.mod_lt _ (by decide)
  by_cases h : k = frame % 64
  · subst h
    simp [hf]
  by_cases hlt : k < frame % 64
  · simp [hlt, h]
  · have hne : k - frame % 64 ≠ 0 := by omega
    simp [h, hne]

theorem testFrame_eq_getLsbD (frame : Nat) :
    testFrame s frame = (s.bitmap (frame / 64)).getLsbD (frame % 64) := by
  have hf : frame % 64 < 64 := Nat.mod_lt _ (by decide)
  unfold testFrame
  cases hbit : (s.bitmap (frame / 64)).getLsbD (frame % 64) with
  | true =>
    have hne : s.bitmap (frame / 64) &&& frameBit frame ≠ 0#64 := by
      intro hzero
      have hk := congrArg (fun v => v.getLsbD (frame % 64)) hzero
      simp [frameBit_getLsbD _ _ hf, hbit] at hk
    simpa using hne
  | false =>
    have hzero : s.bitmap (frame / 64) &&& frameBit frame = 0#64 := by
      apply BitVec.eq_of_getLsbD_eq
      intro k hk
      rw [BitVec.getLsbD_and, frameBit_getLsbD _ _ hk]
      by_cases h : k = frame % 64
      · subst h
        simp [hbit]
      · simp [h]
    simp [hzero]

@[simp] theorem testFrame_setFrame (frame g : Nat) :
    testFrame (setFrame s frame) g = (decide (g = frame) || testFrame s g) := by
  have hg : g % 64 < 64 := Nat.mod_lt _ (by decide)
  simp only [testFrame_eq_getLsbD, setFrame]
  by_cases hword : g / 64 = frame / 64
  · have hiff : g % 64 = frame % 64 ↔ g = frame := by omega
    rw [if_pos hword, BitVec.getLsbD_or, frameBit_getLsbD _ _ hg]
    simp only [hiff]
    rw [Bool.or_comm]
  · have hne : g ≠ frame := fun h => hword (by rw [h])
    simp [hword, hne]

@[simp] theorem testFrame_clearFrame (frame g : Nat) :
    testFrame (clearFrame s frame) g = (!decide (g = frame) && testFrame s g) := by
  have hg : g % 64 < 64 := Nat.mod_lt _ (by decide)
  simp only [testFrame_eq_getLsbD, clearFrame]
  by_cases hword : g / 64 = frame / 64
  · have hiff : g % 64 = frame % 64 ↔ g = frame := by omega
    rw [if_pos hword, BitVec.getLsbD_and, BitVec.getLsbD_not, frameBit_getLsbD _ _ hg]
    simp only [hiff, hg, decide_true, Bool.true_and]
    rw [Bool.and_comm]
  · have hne : g ≠ frame := fun h => hword (by rw [h])
    simp [hword, hne]

@[simp] theorem testFrame_setRefcount (frame count g : Nat) :
    testFrame (setRefcount s frame count) g = testFrame s g := rfl

@[simp] theorem refcount_setRefcount (frame count g : Nat) :
    (setRefcount s frame count).refcount g = if g = frame then count else s.refcount g := rfl

@[simp] theorem refcount_clearFrame (frame : Nat) :
    (clearFrame s frame).refcount = s.refcount := rfl

/-! ## What is common to all operations

An operation never moves the tracked range, and it changes a frame only
through `testFrame` and `refcount`.  `SameShape` is the part of the state that
every operation keeps. -/

/-- Two states of one manager: the tracked range and the initialized flag
agree. -/
structure SameShape (s t : State) : Prop where
  total : t.totalFrames = s.totalFrames
  words : t.bitmapSize = s.bitmapSize
  init : t.initialized = s.initialized

theorem SameShape.refl : SameShape s s := ⟨rfl, rfl, rfl⟩

variable {s : State} {body : State → Nat → State}

theorem SameShape.trans {t u : State} (h : SameShape s t) (h' : SameShape t u) : SameShape s u :=
  ⟨h'.total.trans h.total, h'.words.trans h.words, h'.init.trans h.init⟩

/-- Induction over a frame loop.  The motive may mention the frame the loop
has come to, so a fact about the frames still ahead can be carried along. -/
theorem forFrames_induction {P : Nat → State → Prop} {lo hi : Nat} (hle : lo ≤ hi) (h0 : P lo s)
    (hstep : ∀ t f, lo ≤ f → f < hi → P f t → P (f + 1) (body t f)) :
    P hi (forFrames lo hi body s) := by
  have hrun : ∀ (n k : Nat) (t : State), lo ≤ k → k + n = hi → P k t →
      P hi ((List.range' k n).foldl body t) := by
    intro n
    induction n with
    | zero =>
      intro k t _ hk ht
      have hkhi : k = hi := by omega
      subst hkhi
      exact ht
    | succ n ih =>
      intro k t hlo hk ht
      exact ih (k + 1) (body t k) (by omega) (by omega) (hstep t k hlo (by omega) ht)
  exact hrun (hi - lo) lo s (Nat.le_refl _) (by omega) h0

/-- A frame loop preserves what each of its iterations preserves. -/
theorem forFrames_preserves {P : State → Prop} {lo hi : Nat} (h0 : P s)
    (hstep : ∀ t f, lo ≤ f → f < hi → P t → P (body t f)) : P (forFrames lo hi body s) := by
  by_cases hle : lo ≤ hi
  · exact forFrames_induction hle h0 hstep
  · unfold forFrames
    rw [Nat.sub_eq_zero_of_le (by omega)]
    exact h0

/-- The pointwise effect of a frame loop whose body changes one frame of the
view `v` at a time: every frame of the range is changed once, the others are
untouched. -/
theorem forFrames_pointwise {α : Type} {v : State → Nat → α} {g : α → α} {lo hi : Nat} (s : State)
    (hself : ∀ t f, v (body t f) f = g (v t f))
    (hother : ∀ t f k, k ≠ f → v (body t f) k = v t k) (k : Nat) : v (forFrames lo hi body s) k =
      if lo ≤ k ∧ k < hi then g (v s k) else v s k := by
  have hrun : ∀ (n lo : Nat) (t : State), v ((List.range' lo n).foldl body t) k =
        if lo ≤ k ∧ k < lo + n then g (v t k) else v t k := by
    intro n
    induction n with
    | zero =>
      intro lo t
      rw [if_neg (by omega)]
      rfl
    | succ n ih =>
      intro lo t
      rw [List.range'_succ, List.foldl_cons, ih]
      by_cases hk : k = lo
      · subst hk
        rw [if_neg (by omega), if_pos (by omega), hself]
      rw [hother t lo k hk]
      by_cases hin : lo + 1 ≤ k ∧ k < lo + 1 + n
      · rw [if_pos hin, if_pos (by omega)]
      · rw [if_neg hin, if_neg (by omega)]
  unfold forFrames
  rw [hrun]
  by_cases hle : lo ≤ hi
  · rw [show lo + (hi - lo) = hi by omega]
  · rw [if_neg (by omega), if_neg (by omega)]

/-! ## Searches -/

private theorem scanWord_free (s : State) (startFrame i : Nat) :
    ∀ n, n ≤ 64 → ∀ r, scanWord s startFrame i n = some r → r ≠ 0 →
      startFrame ≤ r ∧ r < s.totalFrames ∧ testFrame s r = false := by
  intro n
  induction n with
  | zero => intro _ r h; simp [scanWord] at h
  | succ n ih =>
    intro hn r h hr
    simp only [scanWord] at h
    split at h
    · exact ih (by omega) r h hr
    split at h
    · exact absurd (Option.some.inj h).symm hr
    split at h
    · exact ih (by omega) r h hr
    rename_i hbit
    have hreq := Option.some.inj h
    subst hreq
    refine ⟨by omega, by omega, ?_⟩
    rw [testFrame_eq_getLsbD, show (i * 64 + (63 - n)) / 64 = i by omega,
      show (i * 64 + (63 - n)) % 64 = 63 - n by omega]
    simpa using hbit

private theorem scanFrom_free (s : State) (startFrame : Nat) :
    ∀ n i r, scanFrom s startFrame n i = r → r ≠ 0 →
      startFrame ≤ r ∧ r < s.totalFrames ∧ testFrame s r = false := by
  intro n
  induction n with
  | zero => intro i r h hr; exact absurd h.symm hr
  | succ n ih =>
    intro i r h hr
    simp only [scanFrom] at h
    split at h
    · exact ih _ r h hr
    split at h
    · rename_i result hword
      subst h
      exact scanWord_free s startFrame i 64 (by omega) result hword hr
    · exact ih _ r h hr

/-- A found frame is a free frame of the tracked range. -/
theorem findFirstFree_free {startFrame r : Nat} (h : findFirstFree s startFrame = r) (hr : r ≠ 0) :
    startFrame ≤ r ∧ r < s.totalFrames ∧ testFrame s r = false :=
  scanFrom_free s startFrame _ _ r h hr

private theorem findRun_free (s : State) (count lo : Nat) :
    ∀ n frame runStart runLen r, lo ≤ frame →
      (0 < runLen → runStart + runLen = frame ∧ lo ≤ runStart) →
      (∀ f, runStart ≤ f → f < runStart + runLen → testFrame s f = false) →
      findRun s count n frame runStart runLen = r → r ≠ 0 →
      lo ≤ r ∧ r + count ≤ frame + n ∧ ∀ f, r ≤ f → f < r + count → testFrame s f = false := by
  intro n
  induction n with
  | zero => intro frame runStart runLen r _ _ _ h hr; exact absurd h.symm hr
  | succ n ih =>
    intro frame runStart runLen r hlow hrun hfree h hr
    simp only [findRun] at h
    split at h
    · obtain ⟨h1, h2, h3⟩ := ih (frame + 1) runStart 0 r (by omega) (by omega)
        (by intro f _ _; omega) h hr
      exact ⟨h1, by omega, h3⟩
    rename_i hbit
    -- the run including `frame`, whichever frame it starts at
    have hnow : ∀ f, (if runLen = 0 then frame else runStart) ≤ f →
        f < (if runLen = 0 then frame else runStart) + (runLen + 1) →
        testFrame s f = false := by
      intro f hlo hhi
      by_cases hzero : runLen = 0
      · rw [if_pos hzero] at hlo hhi
        have hf : f = frame := by omega
        subst hf
        simpa using hbit
      · rw [if_neg hzero] at hlo hhi
        by_cases hf : f = frame
        · subst hf
          simpa using hbit
        · exact hfree f hlo (by omega)
    have hend : (if runLen = 0 then frame else runStart) + (runLen + 1) = frame + 1 ∧
        lo ≤ (if runLen = 0 then frame else runStart) := by
      by_cases hzero : runLen = 0
      · rw [if_pos hzero]
        omega
      · rw [if_neg hzero]
        omega
    split at h
    · subst h
      refine ⟨hend.2, by omega, ?_⟩
      intro f hlo hhi
      exact hnow f hlo (by omega)
    · obtain ⟨h1, h2, h3⟩ := ih (frame + 1) _ (runLen + 1) r (by omega) (fun _ => hend) hnow h hr
      exact ⟨h1, by omega, h3⟩

/-- A found run consists of free frames of the range of the search. -/
theorem findRun_start_free {count n frame r : Nat} (h : findRun s count n frame 0 0 = r)
    (hr : r ≠ 0) :
    frame ≤ r ∧ r + count ≤ frame + n ∧ ∀ f, r ≤ f → f < r + count → testFrame s f = false :=
  findRun_free s count frame n frame 0 0 r (Nat.le_refl _) (by omega) (by intro f _ _; omega) h hr

theorem findContiguous_free {count r : Nat} (h : findContiguous s count = r) (hr : r ≠ 0) :
    0 < r ∧ r + count ≤ s.totalFrames ∧ ∀ f, r ≤ f → f < r + count → testFrame s f = false := by
  unfold findContiguous at h
  split at h
  · exact absurd h.symm hr
  split at h
  · obtain ⟨h1, h2, h3⟩ := findFirstFree_free h hr
    refine ⟨by omega, by omega, ?_⟩
    intro f hlo hhi
    have hf : f = r := by omega
    subst hf
    exact h3
  · obtain ⟨h1, h2, h3⟩ := findRun_start_free h hr
    exact ⟨h1, by omega, h3⟩

/-! ## Specifications of the operations -/

@[simp] theorem testFrame_takeFrame (s : State) (frame g : Nat) :
    testFrame (takeFrame s frame) g = (decide (g = frame) || testFrame s g) :=
  testFrame_setFrame s frame g

@[simp] theorem refcount_takeFrame (s : State) (frame g : Nat) :
    (takeFrame s frame).refcount g = if g = frame then 1 else s.refcount g := rfl

/-- The step of a successful allocation of `count` frames from `start` on: the
frames were free, and now they are used with one owner each. -/
structure Granted (s : State) (start count : Nat) (t : State) : Prop where
  pos : 0 < start
  nonempty : 0 < count
  bound : start + count ≤ s.totalFrames
  free : ∀ f, start ≤ f → f < start + count → testFrame s f = false
  test : ∀ f, testFrame t f = (decide (start ≤ f ∧ f < start + count) || testFrame s f)
  ref : ∀ f, t.refcount f =
    if start ≤ f ∧ f < start + count then 1 else s.refcount f
  used : t.usedFrames = s.usedFrames + count
  shape : SameShape s t

private theorem granted_forFrames {start count : Nat} (hpos : 0 < start)
    (hcount : 0 < count) (hbound : start + count ≤ s.totalFrames)
    (hfree : ∀ f, start ≤ f → f < start + count → testFrame s f = false) :
    Granted s start count (forFrames start (start + count) takeFrame s) := by
  refine
    { pos := hpos
      nonempty := hcount
      bound := hbound
      free := hfree
      test := ?_
      ref := ?_
      used := ?_
      shape := ?_ }
  · intro f
    rw [forFrames_pointwise (v := testFrame) (g := fun _ => true) s
      (by intro t f; simp) (by intro t f k hk; simp [hk])]
    by_cases hf : start ≤ f ∧ f < start + count
    · simp
    · simp
  · intro f
    exact forFrames_pointwise (g := fun _ => 1) s
      (by intro t f; simp) (by intro t f k hk; simp [hk]) f
  · have hused : (forFrames start (start + count) takeFrame s).usedFrames + start =
        s.usedFrames + (start + count) := by
      refine forFrames_induction (P := fun k t => t.usedFrames + start = s.usedFrames + k)
        (Nat.le_add_right start count) rfl ?_
      intro t f _ _ ht
      show t.usedFrames + 1 + start = s.usedFrames + (f + 1)
      omega
    omega
  · exact forFrames_preserves (SameShape.refl s) (fun t f _ _ h => h.trans ⟨rfl, rfl, rfl⟩)

/-- What an allocation of `count` frames can do: fail and change nothing, or
grant a run of free frames. -/
def AllocSpec (s : State) (count : Nat) (result : Nat × State) : Prop :=
  result = (0, s) ∨ ∃ start, result.1 = start * pageSize ∧ Granted s start count result.2

private theorem takeRun_spec {start count : Nat} (hcount : 0 < count)
    (h : start ≠ 0 → 0 < start ∧ start + count ≤ s.totalFrames ∧
      ∀ f, start ≤ f → f < start + count → testFrame s f = false) :
    AllocSpec s count (takeRun s start count) := by
  unfold takeRun
  split
  · exact .inl rfl
  · rename_i hne
    obtain ⟨hpos, hbound, hfree⟩ := h hne
    exact .inr ⟨start, rfl, granted_forFrames hpos hcount hbound hfree⟩

theorem allocFrames_spec (s : State) (count : Nat) : AllocSpec s count (allocFrames s count) := by
  unfold allocFrames
  split
  · exact .inl rfl
  · exact takeRun_spec (by grind) (fun hne => findContiguous_free rfl hne)

theorem allocFramesAbove_spec (s : State) (count minPhys : Nat) :
    AllocSpec s count (allocFramesAbove s count minPhys) := by
  unfold allocFramesAbove
  split
  · exact .inl rfl
  · refine takeRun_spec (by grind) (fun hne => ?_)
    obtain ⟨h1, h2, h3⟩ := findRun_start_free rfl hne
    exact ⟨by omega, by omega, h3⟩

theorem allocFramesBelow_spec (s : State) (count maxPhys : Nat) :
    AllocSpec s count (allocFramesBelow s count maxPhys) := by
  unfold allocFramesBelow
  split
  · exact .inl rfl
  · refine takeRun_spec (by grind) (fun hne => ?_)
    obtain ⟨h1, h2, h3⟩ := findRun_start_free rfl hne
    exact ⟨h1, by omega, h3⟩

/-- `AllocFrame` moves the cursor as well; the frame it grants is one. -/
theorem allocFrame_spec (s : State) : AllocSpec s 1 (allocFrame s) := by
  unfold allocFrame
  split
  · exact .inl rfl
  dsimp only
  generalize hfound : (if findFirstFree s s.allocCursor = 0 ∧ 1 < s.allocCursor then
    findFirstFree s 1 else findFirstFree s s.allocCursor) = frame
  split
  · exact .inl rfl
  rename_i hne
  have hfree : frame < s.totalFrames ∧ testFrame s frame = false := by
    split at hfound
    · exact (findFirstFree_free hfound hne).2
    · exact (findFirstFree_free hfound hne).2
  have hgrant : Granted s frame 1 (takeFrame s frame) := by
    have h : Granted s frame 1 (forFrames frame (frame + 1) takeFrame s) := by
      refine granted_forFrames (by omega) (by decide) (by omega) ?_
      intro f hlo hhi
      have hf : f = frame := by omega
      subst hf
      exact hfree.2
    have heq : forFrames frame (frame + 1) takeFrame s = takeFrame s frame := by
      simp [forFrames]
    rwa [heq] at h
  refine .inr ⟨frame, rfl, ?_⟩
  exact { hgrant with shape := ⟨rfl, rfl, rfl⟩ }

/-- What dropping one reference of a frame can do. -/
inductive Dropped (s : State) (frame : Nat) : State → Prop
  | kept (h : testFrame s frame = false ∨ s.refcount frame = pinned) : Dropped s frame s
  | shared (hused : testFrame s frame = true) (hpin : s.refcount frame ≠ pinned)
      (h : 1 < s.refcount frame) :
      Dropped s frame (setRefcount s frame (s.refcount frame - 1))
  | released (hused : testFrame s frame = true) (h : s.refcount frame ≤ 1) :
      Dropped s frame
        { clearFrame (setRefcount s frame 0) frame with usedFrames := s.usedFrames - 1 }

theorem dropFrame_spec (s : State) (frame : Nat) : Dropped s frame (dropFrame s frame) := by
  unfold dropFrame
  split
  · rename_i h
    exact .kept (.inl (by simpa using h))
  rename_i hused
  split
  · rename_i h
    exact .kept (.inr h)
  rename_i hpin
  split
  · rename_i h
    exact .shared (by simpa using hused) hpin h
  · exact .released (by simpa using hused) (by omega)

theorem Dropped.shape {t : State} {frame : Nat} (h : Dropped s frame t) : SameShape s t := by
  cases h <;> exact ⟨rfl, rfl, rfl⟩

/-- Dropping a reference of one frame leaves every other frame alone. -/
theorem Dropped.other {t : State} {frame k : Nat} (h : Dropped s frame t)
    (hk : k ≠ frame) : testFrame t k = testFrame s k ∧ t.refcount k = s.refcount k := by
  cases h with
  | kept _ => exact ⟨rfl, rfl⟩
  | shared _ _ _ => exact ⟨rfl, by simp [hk]⟩
  | released _ _ =>
    refine ⟨?_, by simp [hk]⟩
    show testFrame (clearFrame (setRefcount s frame 0) frame) k = testFrame s k
    simp [hk]

/-- The bit and the count of a frame, as one value. -/
def frameView (s : State) (f : Nat) : Bool × Nat := (testFrame s f, s.refcount f)

/-- What `dropFrame` makes of the bit and the count of its own frame. -/
private def dropView (v : Bool × Nat) : Bool × Nat :=
  if !v.1 then v
  else if v.2 = pinned then v
  else if 1 < v.2 then (v.1, v.2 - 1)
  else (false, 0)

section

variable (s : State)

private theorem frameView_dropFrame_self (f : Nat) :
    frameView (dropFrame s f) f = dropView (frameView s f) := by
  unfold dropFrame dropView frameView
  split
  · rfl
  split
  · rfl
  split
  · simp
  · show (testFrame (clearFrame (setRefcount s f 0) f) f,
      (clearFrame (setRefcount s f 0) f).refcount f) = (false, 0)
    simp

private theorem frameView_dropFrame_other (f k : Nat) (hk : k ≠ f) :
    frameView (dropFrame s f) k = frameView s k := by
  have h := (dropFrame_spec s f).other hk
  unfold frameView
  rw [h.1, h.2]

/-- The release loop drops one reference of every frame of its range. -/
theorem frameView_forFrames_dropFrame (lo hi f : Nat) : frameView (forFrames lo hi dropFrame s) f =
      if lo ≤ f ∧ f < hi then frameView (dropFrame s f) f else frameView s f := by
  rw [forFrames_pointwise s frameView_dropFrame_self
    frameView_dropFrame_other, frameView_dropFrame_self]

theorem forFrames_dropFrame_shape (lo hi : Nat) : SameShape s (forFrames lo hi dropFrame s) :=
  forFrames_preserves (SameShape.refl s) (fun t f _ _ h => h.trans (dropFrame_spec t f).shape)

theorem reserveFrame_shape (frame : Nat) : SameShape s (reserveFrame s frame) := by
  unfold reserveFrame
  split
  · exact SameShape.refl s
  · exact ⟨rfl, rfl, rfl⟩

@[simp] theorem testFrame_reserveFrame (frame g : Nat) :
    testFrame (reserveFrame s frame) g = (decide (g = frame) || testFrame s g) := by
  unfold reserveFrame
  split
  · rename_i h
    by_cases hg : g = frame
    · subst hg
      simp [h]
    · simp [hg]
  · exact testFrame_setFrame s frame g

@[simp] theorem refcount_reserveFrame (frame : Nat) :
    (reserveFrame s frame).refcount = s.refcount := by
  unfold reserveFrame
  split <;> rfl

end

end InstantOS.Pmm
