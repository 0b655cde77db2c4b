import InstantOS.Ipc.Windows

/-!
# One window has the focus

The flag and the number agree: a window carries the focus flag if and only if
`focusedWindowID` is its id, and the number is zero or names a registered
window that can be seen.

Every operation keeps this but one.  `controlWindow` with `Minimize` takes the
number from the window along with the flag and hands the focus on; with `Close`
it takes the flag and leaves the number.  `WindowOp.Sound` excludes the closing
of the window that has the focus, and ids that wrap around; `focus_agrees` is
the invariant of every run without them.
-/

namespace InstantOS.Ipc

open Function Option

namespace WindowManager

/-- The state of a window object. -/
def state? (m : WindowManager) (id : Nat) : Option WindowState := (m.objects id).map (·.state)

/-! ## Reading the operations through `state?` -/

theorem state?_modify (m : WindowManager) (id : Nat) (f : WindowObject → WindowObject)
    {g : WindowState → WindowState} (hg : ∀ w, (f w).state = g w.state) (k : Nat) :
    (m.modify id f).state? k = (m.state? k).map fun s => if k = id then g s else s := by
  by_cases h : k = id
  · subst h
    cases hobj : m.objects k <;> simp [state?, modify, hobj, hg]
  · simp only [state?, modify, update_of_ne h, h]
    exact map_id'.symm

variable {f : WindowObject → WindowObject} {id dead : Nat} {m : WindowManager}
  {maxX maxY maxWidth maxHeight : Int}

/-- A method that leaves the state of its window. -/
theorem state?_modify_same (m : WindowManager) (id : Nat)
    (hf : ∀ w, (f w).state = w.state) (k : Nat) : (m.modify id f).state? k = m.state? k := by
  rw [state?_modify m id f (g := fun s => s) hf]
  cases m.state? k <;> simp

/-- What the windows of a state are, apart from their order and geometry: the
operations are compared by it. -/
structure SameTable (m m' : WindowManager) : Prop where
  windows : m'.windows = m.windows
  counter : m'.windowIDCounter = m.windowIDCounter

/-- The effect of a successful `focusWindow` on the states. -/
def focusEffect (m : WindowManager) (id k : Nat) (s : WindowState) : WindowState :=
  if k = id then { s with focused := true, minimized := false }
  else if k = m.focusedWindowID ∧ m.Registered k then { s with focused := false }
  else s

/-- What `focusWindow` does when it succeeds. -/
structure Focused (m : WindowManager) (id : Nat) (m' : WindowManager) : Prop
    extends SameTable m m' where
  registered : m.Registered id
  visible : ∃ s, m.state? id = some s ∧ s.closed = false
  focus : m'.focusedWindowID = id
  states : ∀ k, m'.state? k = (m.state? k).map (m.focusEffect id k)

theorem lookupWindow_some {w : WindowObject}
    (h : m.lookupWindow id = some w) : m.Registered id ∧ m.objects id = some w := by
  unfold lookupWindow at h
  split at h
  · exact ⟨by assumption, h⟩
  · cases h

/-- The window that had the focus loses its flag. -/
theorem state?_loseFocus (m : WindowManager) (id k : Nat) :
    (m.loseFocus id).state? k = (m.state? k).map fun s =>
        if k ≠ id ∧ k = m.focusedWindowID ∧ m.Registered k then { s with focused := false }
        else s := by
  unfold loseFocus
  cases hstate : m.state? k with
  | none =>
    split
    · rw [state?_modify _ _ _ (g := fun s => { s with focused := false }) fun _ => rfl, hstate]
      rfl
    · rw [hstate]
      rfl
  | some s =>
    obtain ⟨w, hw, -⟩ := map_eq_some_iff.mp hstate
    have hlookup : k = m.focusedWindowID →
        ((m.lookupWindow m.focusedWindowID).isSome ↔ m.Registered k) := by
      rintro rfl
      by_cases h : m.Registered m.focusedWindowID <;> simp [lookupWindow, hw]
    split
    · rename_i hcond
      rw [state?_modify _ _ _ (g := fun s => { s with focused := false }) fun _ => rfl, hstate]
      by_cases hk : k = m.focusedWindowID
      · have := (hlookup hk).mp hcond.1
        simp [hk ▸ hcond.2, this]
      · simp [hk]
    · rename_i hcond
      rw [hstate, map_some, if_neg]
      rintro ⟨hid, hk, hreg⟩
      exact hcond ⟨(hlookup hk).mpr hreg, hk ▸ hid⟩

/-- The target is shown and gets the flag. -/
theorem state?_gainFocus (m : WindowManager) (id k : Nat) :
    (m.gainFocus id).state? k = (m.state? k).map fun s =>
      if k = id then { s with focused := true, minimized := false } else s := by
  have hflag := state?_modify { m.modify id unminimize with focusedWindowID := id } id
    (fun w => enqueueWindowEvent .focusGained (setZOrder m.nextWindowZOrder (setFocused true w)))
    (g := fun s => { s with focused := true }) (fun _ => rfl) k
  have hshown := state?_modify m id unminimize (g := fun s => { s with minimized := false })
    (fun _ => rfl) k
  refine hflag.trans ((congrArg (Option.map _) hshown).trans ?_)
  by_cases hk : k = id <;> cases m.state? k <;> simp [hk]

theorem focusWindow_spec (m : WindowManager) (id : Nat) :
    (m.focusWindow id).2 = m ∨ Focused m id (m.focusWindow id).2 := by
  unfold focusWindow
  split
  · exact .inl rfl
  rename_i target hlookup
  obtain ⟨hregistered, hobj⟩ := lookupWindow_some hlookup
  split
  · exact .inl rfl
  rename_i hclosed
  refine .inr ⟨⟨?_, ?_⟩, hregistered, ⟨target.state, by simp [state?, hobj],
    by simpa using hclosed⟩,
    rfl, fun k => ?_⟩
  · dsimp only [loseFocus]
    split <;> rfl
  · dsimp only [loseFocus]
    split <;> rfl
  · rw [state?_gainFocus, state?_loseFocus]
    cases m.state? k with
    | none => rfl
    | some s => by_cases hk : k = id <;> simp [focusEffect, hk]

/-- What `control` does to the state of its window. -/
def controlState (action : WindowControlAction) (s : WindowState) : WindowState :=
  match action with
  | .restore => if s.closed then s else { s with minimized := false, maximized := false }
  | .minimize => if s.closed then s else { s with minimized := true, focused := false }
  | .maximize => if s.closed then s else { s with minimized := false, maximized := true }
  | .close => { s with closed := true, focused := false, minimized := false }
  | .other => s

theorem control_state (action : WindowControlAction) (w : WindowObject) :
    (control action maxX maxY maxWidth maxHeight w).state = controlState action w.state := by
  cases action with
  | restore =>
    by_cases hclosed : w.state.closed
    · simp [control, controlState, hclosed]
    · by_cases hmax : w.state.maximized = true <;>
        simp [control, controlState, hclosed, unminimize, hmax]
  | minimize => simp only [control, controlState]; split <;> rfl
  | maximize =>
    simp only [control, controlState]
    split
    · rfl
    · split <;> rfl
  | close => rfl
  | other => rfl

/-! ## The invariant -/

/-- The table of windows: registered windows exist, each in one slot, and ids
are positive and below the counter. -/
structure TableSound (m : WindowManager) : Prop where
  counter : 0 < m.windowIDCounter
  numbered : ∀ k s, m.state? k = some s → 0 < k ∧ k < m.windowIDCounter
  present : ∀ k, m.Registered k → (m.state? k).isSome
  single : ∀ i j k, m.windows i = some k → m.windows j = some k → i = j

/-- Flag and number agree, leaving out the window `dead` that is about to be
deleted and is not registered any more; ids are positive, so `0` leaves out
none. -/
structure FocusSound (m : WindowManager) (dead : Nat) : Prop extends TableSound m where
  flag : ∀ k s, k ≠ dead → m.state? k = some s → (s.focused = true ↔ m.focusedWindowID = k)
  focus : m.focusedWindowID = 0 ∨ (m.Registered m.focusedWindowID ∧
    ∃ s, m.state? m.focusedWindowID = some s ∧ s.closed = false ∧ s.minimized = false)
  gone : ¬ m.Registered dead

variable {m' : WindowManager}

/-- Changes of the states leave the table sound. -/
theorem TableSound.states (h : TableSound m) (hsame : SameTable m m')
    {g : Nat → WindowState → WindowState}
    (hstates : ∀ k, m'.state? k = (m.state? k).map (g k)) : TableSound m' := by
  refine ⟨hsame.counter ▸ h.counter, fun k s hs => ?_, fun k hk => ?_, ?_⟩
  · rw [hstates, map_eq_some_iff] at hs
    obtain ⟨s0, hs0, -⟩ := hs
    rw [hsame.counter]
    exact h.numbered k s0 hs0
  · rw [hstates, isSome_map]
    unfold Registered at hk
    rw [hsame.windows] at hk
    exact h.present k hk
  · rw [hsame.windows]
    exact h.single

theorem TableSound.registered_id (h : TableSound m) {k : Nat} (hk : m.Registered k) :
    0 < k ∧ k < m.windowIDCounter := by
  obtain ⟨s, hs⟩ := isSome_iff_exists.mp (h.present k hk)
  exact h.numbered k s hs

theorem TableSound.congr (h : TableSound m) (hsame : SameTable m m')
    (hstates : ∀ k, m'.state? k = m.state? k) : TableSound m' :=
  h.states hsame fun k => by rw [hstates]; exact map_id'.symm

theorem SameTable.registered (h : SameTable m m') (k : Nat) : m'.Registered k ↔ m.Registered k := by
  rw [Registered, h.windows, Registered]

/-- Steps that change no state and not the focus. -/
theorem FocusSound.congr (h : FocusSound m dead)
    (hsame : SameTable m m') (hfocus : m'.focusedWindowID = m.focusedWindowID)
    (hstates : ∀ k, m'.state? k = m.state? k) : FocusSound m' dead := by
  refine ⟨h.toTableSound.congr hsame hstates, fun k s hk hs => ?_, ?_, ?_⟩
  · rw [hfocus]
    exact h.flag k s hk (hstates k ▸ hs)
  · rw [hfocus, hstates, hsame.registered]
    exact h.focus
  · rw [hsame.registered]
    exact h.gone

theorem modify_same (m : WindowManager) (id : Nat) (f : WindowObject → WindowObject) :
    SameTable m (m.modify id f) := ⟨rfl, rfl⟩

namespace FocusSound

theorem modify_same (h : FocusSound m dead)
    (id : Nat) (hf : ∀ w, (f w).state = w.state) : FocusSound (m.modify id f) dead :=
  h.congr (m.modify_same id f) rfl (m.state?_modify_same id hf)

/-- `focusWindow` moves flag and number together. -/
theorem focusWindow (h : FocusSound m dead) (id : Nat) : FocusSound (m.focusWindow id).2 dead := by
  rcases m.focusWindow_spec id with hsame | hfocused
  · rw [hsame]
    exact h
  refine ⟨h.toTableSound.states hfocused.toSameTable hfocused.states, fun k s hk hs => ?_, .inr ?_,
    ?_⟩
  · rw [hfocused.states, map_eq_some_iff] at hs
    obtain ⟨s0, hs0, rfl⟩ := hs
    rw [hfocused.focus, focusEffect]
    have hflag := h.flag k s0 hk hs0
    split
    · rename_i hkid
      simp [hkid]
    rename_i hkid
    split
    · simp [Ne.symm hkid]
    rename_i hold
    -- The window had no flag: the one that had it is registered.
    have hnot : s0.focused ≠ true := fun hfocus => by
      have hk' := hflag.mp hfocus
      rcases h.focus with hzero | hreg
      · exact absurd (hk'.symm.trans hzero) (h.numbered k s0 hs0).1.ne'
      · exact hold ⟨hk'.symm, hk' ▸ hreg.1⟩
    exact ⟨fun hfocus => absurd hfocus hnot, fun hkid' => absurd hkid'.symm hkid⟩
  · obtain ⟨s, hs, hclosed⟩ := hfocused.visible
    rw [hfocused.focus, hfocused.toSameTable.registered]
    refine ⟨hfocused.registered, { s with focused := true, minimized := false }, ?_, hclosed, rfl⟩
    rw [hfocused.states, hs, map_some, focusEffect, if_pos rfl]
  · rw [hfocused.toSameTable.registered]
    exact h.gone

/-- When no window has the flag, the top visible one may get it. -/
theorem refocus (h : TableSound m)
    (hnone : ∀ k s, k ≠ dead → m.state? k = some s → s.focused = false)
    (hgone : ¬ m.Registered dead) : FocusSound m.refocus dead := by
  have hcleared : FocusSound { m with focusedWindowID := 0 } dead := by
    refine ⟨h.congr ⟨rfl, rfl⟩ fun _ => rfl, fun k s hk hs => ?_, .inl rfl, hgone⟩
    rw [hnone k s hk hs]
    exact ⟨fun hfalse => absurd hfalse Bool.false_ne_true,
      fun hzero => absurd hzero (h.numbered k s hs).1.ne⟩
  unfold WindowManager.refocus
  dsimp only
  split
  · exact hcleared
  · exact hcleared.focusWindow _

/-! ## The operations -/

section

variable (h : FocusSound m 0)

include h

/-- A change of one state that moves neither flag nor visibility of the window
with the focus. -/
theorem modify (id : Nat) {g : WindowState → WindowState} (hg : ∀ w, (f w).state = g w.state)
    (hflag : ∀ s, m.state? id = some s → ((g s).focused ↔ m.focusedWindowID = id))
    (hseen : m.focusedWindowID = id → ∀ s, s.closed = false → s.minimized = false →
      (g s).closed = false ∧ (g s).minimized = false) : FocusSound (m.modify id f) 0 := by
  have hstates := m.state?_modify id f hg
  refine ⟨h.toTableSound.states (m.modify_same id f) hstates, fun k s hk hs => ?_, ?_, h.gone⟩
  · rw [hstates, map_eq_some_iff] at hs
    obtain ⟨s0, hs0, rfl⟩ := hs
    split
    · rename_i hkid
      subst hkid
      exact hflag s0 hs0
    · exact h.flag k s0 hk hs0
  · refine h.focus.imp_right fun ⟨hreg, s, hs, hclosed, hmin⟩ => ⟨hreg, ?_⟩
    have hfocus : (m.modify id f).focusedWindowID = m.focusedWindowID := rfl
    rw [hfocus, hstates, hs]
    refine ⟨_, rfl, ?_⟩
    split
    · rename_i hid
      exact hseen hid s hclosed hmin
    · exact ⟨hclosed, hmin⟩

theorem flag_iff {k : Nat} {s : WindowState}
    (hs : m.state? k = some s) : s.focused ↔ m.focusedWindowID = k :=
  h.flag k s (h.numbered k s hs).1.ne' hs

theorem focused_closed
    {s : WindowState} (hs : m.state? id = some s) (hfocus : m.focusedWindowID = id) :
    s.closed = false ∧ s.minimized = false := by
  rcases h.focus with hzero | ⟨-, s', hs', hseen⟩
  · exact absurd (hfocus.symm.trans hzero) (h.numbered id s hs).1.ne'
  · rw [hfocus, hs] at hs'
    cases hs'
    exact hseen

/-- `control` on a window, if it is not the window with the focus that is
minimized or closed. -/
theorem control (id : Nat) {action : WindowControlAction}
    (haction : m.focusedWindowID = id → action ≠ .minimize ∧ action ≠ .close) :
    FocusSound (m.modify id (Ipc.control action maxX maxY maxWidth maxHeight)) 0 := by
  refine h.modify id (control_state action) (fun s hs => ?_) fun hfocus s hclosed hmin => ?_
  · have hflag := h.flag_iff hs
    cases action with
    | restore | maximize => rw [← hflag]; simp only [controlState]; split <;> rfl
    | other => exact hflag
    | minimize =>
      have hne : m.focusedWindowID ≠ id := fun hid => (haction hid).1 rfl
      simp only [controlState]
      split
      · exact hflag
      · simp [hne]
    | close =>
      have hne : m.focusedWindowID ≠ id := fun hid => (haction hid).2 rfl
      simp [controlState, hne]
  · obtain ⟨hminimize, hclose⟩ := haction hfocus
    cases action with
    | restore | maximize => simp [controlState, hclosed]
    | other => exact ⟨hclosed, hmin⟩
    | minimize => exact absurd rfl hminimize
    | close => exact absurd rfl hclose

theorem controlWindow (id : Nat) {action : WindowControlAction}
    (haction : m.focusedWindowID = id → action ≠ .close) :
    FocusSound (m.controlWindow id action maxX maxY maxWidth maxHeight).2 0 := by
  unfold WindowManager.controlWindow
  split
  · exact h
  by_cases hminimize : action = .minimize
  · subst hminimize
    dsimp only
    split
    · -- The flag goes with the control, the number with `refocus`.
      rename_i hfocus
      have hfocus : m.focusedWindowID = id := hfocus
      have hstates : ∀ k, ((m.modify id (Ipc.control .minimize maxX maxY maxWidth maxHeight)).modify
          id (enqueueWindowEvent .resized)).state? k =
          (m.state? k).map fun s => if k = id then controlState .minimize s else s := fun k => by
        rw [state?_modify_same (f := enqueueWindowEvent .resized) _ _ (fun _ => rfl),
          state?_modify _ _ _ (control_state _)]
      refine FocusSound.refocus (h.toTableSound.states ⟨rfl, rfl⟩ hstates) (fun k s hk hs => ?_)
        h.gone
      rw [hstates, map_eq_some_iff] at hs
      obtain ⟨s0, hs0, rfl⟩ := hs
      split_ifs with hkid
      · subst hkid
        simp [controlState, (h.focused_closed hs0 hfocus).1]
      have hflag := h.flag k s0 hk hs0
      rw [hfocus] at hflag
      exact Bool.eq_false_iff.mpr fun hfocused => hkid (hflag.mp hfocused).symm
    · rename_i hfocus
      exact (h.control id fun hid => absurd hid hfocus).modify_same id fun _ => rfl
  · have hneither := fun hid => And.intro hminimize (haction hid)
    cases action with
    | minimize => exact absurd rfl hminimize
    | close | restore | maximize => exact (h.control id hneither).modify_same id fun _ => rfl
    | other => exact h.control id hneither

end

end FocusSound

theorem controlWindow_unregistered (hreg : ¬ m.Registered id) (action : WindowControlAction) :
    m.controlWindow id action maxX maxY maxWidth maxHeight = (false, m) := by
  have hnone : m.lookupWindow id = none := by
    unfold lookupWindow
    split
    · contradiction
    · rfl
  unfold WindowManager.controlWindow
  rw [hnone]

/-- A window that is forgotten leaves its slot. -/
theorem forgetWindow_slots (h : TableSound m) (id : Nat) : ∃ windows, m.forgetWindow id =
        (if m.focusedWindowID = id then { m with windows := windows }.refocus
        else { m with windows := windows }) ∧
      ∀ j k, windows j = some k ↔ m.windows j = some k ∧ k ≠ id := by
  unfold WindowManager.forgetWindow
  split
  · rename_i hfind
    refine ⟨m.windows, rfl, fun j k => ⟨fun hk => ⟨hk, ?_⟩, And.left⟩⟩
    simpa [hk] using List.find?_eq_none.mp hfind j (List.mem_finRange j)
  rename_i i hfind
  have hi : m.windows i = some id := by simpa using List.find?_some hfind
  refine ⟨update m.windows i none, rfl, fun j k => ?_⟩
  by_cases hj : j = i
  · subst hj
    rw [hi]
    simp [eq_comm]
  rw [update_of_ne hj]
  refine ⟨fun hk => ⟨hk, ?_⟩, And.left⟩
  rintro rfl
  exact hj (h.single j i k hk hi)

/-- The window leaves the table, and the focus with it. -/
theorem FocusSound.forgetWindow (h : FocusSound m 0) (id : Nat) :
    FocusSound (m.forgetWindow id) id := by
  obtain ⟨windows, hm, hslots⟩ := forgetWindow_slots h.toTableSound id
  have htable : TableSound { m with windows := windows } :=
    ⟨h.counter, h.numbered, fun k ⟨j, hj⟩ => h.present k ⟨j, ((hslots j k).mp hj).1⟩,
      fun i j k hi hj => h.single i j k ((hslots i k).mp hi).1 ((hslots j k).mp hj).1⟩
  have hgone : ¬ { m with windows := windows }.Registered id :=
    fun ⟨j, hj⟩ => ((hslots j id).mp hj).2 rfl
  rw [hm]
  split_ifs with hid
  · refine FocusSound.refocus htable (fun k s hk hs => ?_) hgone
    exact Bool.eq_false_iff.mpr fun hfocused => hk ((h.flag_iff hs).mp hfocused ▸ hid)
  · exact ⟨htable, fun k s _ hs => h.flag_iff hs, h.focus.imp_right
      fun ⟨⟨j, hj⟩, hs⟩ => ⟨⟨j, (hslots j _).mpr ⟨hj, hid⟩⟩, hs⟩, hgone⟩

/-- The object of the window that was forgotten goes; no other window is touched. -/
theorem FocusSound.delete (h : FocusSound m id) :
    FocusSound { m with objects := update m.objects id none } 0 := by
  have hstates : ∀ k, { m with objects := update m.objects id none }.state? k =
      if k = id then none else m.state? k := fun k => by
    by_cases hk : k = id <;> simp [state?, hk]
  have hsome : ∀ k s, { m with objects := update m.objects id none }.state? k = some s →
      k ≠ id ∧ m.state? k = some s := fun k s hs => by
    rw [hstates] at hs
    split at hs
    · cases hs
    · exact ⟨by assumption, hs⟩
  have hkept : ∀ k, m.Registered k →
      { m with objects := update m.objects id none }.state? k = m.state? k := fun k hk => by
    rw [hstates, if_neg]
    rintro rfl
    exact h.gone hk
  refine ⟨⟨h.counter, fun k s hs => h.numbered k s (hsome k s hs).2, fun k hk => ?_, h.single⟩,
    fun k s _ hs => h.flag k s (hsome k s hs).1 (hsome k s hs).2, ?_,
    fun hzero => absurd (h.registered_id hzero).1 (Nat.lt_irrefl 0)⟩
  · rw [hkept k hk]
    exact h.present k hk
  · refine h.focus.imp_right fun ⟨hreg, hs⟩ => ⟨hreg, ?_⟩
    rw [hkept _ hreg]
    exact hs

theorem FocusSound.release (h : FocusSound m 0) (id : Nat) : FocusSound (m.release id) 0 := by
  unfold WindowManager.release
  split
  · exact h
  split
  · exact h
  have hcounted : FocusSound (m.modify id fun w => { w with refCount := w.refCount - 1 }) 0 :=
    h.modify_same id fun _ => rfl
  split
  · exact (hcounted.forgetWindow id).delete
  · exact hcounted

/-- A window is registered in a free slot, if there is one. -/
theorem registerWindow_slots (m : WindowManager) (id : Nat) : m.registerWindow id = m ∨
      ∃ i, m.registerWindow id = { m with windows := update m.windows i (some id) } ∧
        ∀ j k, update m.windows i (some id) j = some k ↔ j = i ∧ k = id ∨ m.windows j = some k := by
  unfold registerWindow
  split
  · exact .inl rfl
  rename_i i hfind
  have hfree : m.windows i = none := by simpa using List.find?_some hfind
  refine .inr ⟨i, rfl, fun j k => ?_⟩
  by_cases hj : j = i
  · subst hj
    simp [hfree, eq_comm]
  · simp [hj]

section

variable (h : FocusSound m 0)

include h

namespace FocusSound

theorem registerWindow (hid : ¬ m.Registered id) (hexists : (m.state? id).isSome) :
    FocusSound (m.registerWindow id) 0 := by
  obtain ⟨s, hs⟩ := isSome_iff_exists.mp hexists
  rcases m.registerWindow_slots id with hfull | ⟨i, hm, hslots⟩
  · rw [hfull]
    exact h
  rw [hm]
  refine ⟨⟨h.counter, h.numbered, ?_, fun j j' k hj hj' => ?_⟩, h.flag,
    h.focus.imp_right fun ⟨⟨j, hj⟩, hs⟩ => ⟨⟨j, (hslots j _).mpr (.inr hj)⟩, hs⟩, ?_⟩
  · rintro k ⟨j, hj⟩
    rcases (hslots j k).mp hj with ⟨-, rfl⟩ | hj
    · exact hexists
    · exact h.present k ⟨j, hj⟩
  · rcases (hslots j k).mp hj with ⟨rfl, rfl⟩ | hold <;>
      rcases (hslots j' k).mp hj' with ⟨rfl, hk⟩ | hold'
    · rfl
    · exact absurd ⟨j', hold'⟩ hid
    · exact absurd ⟨j, hk ▸ hold⟩ hid
    · exact h.single j j' k hold hold'
  · rintro ⟨j, hj⟩
    rcases (hslots j 0).mp hj with ⟨-, rfl⟩ | hj
    · exact absurd (h.numbered 0 s hs).1 (Nat.lt_irrefl 0)
    · exact h.gone ⟨j, hj⟩

/-- A new window has no flag, and its id is new. -/
theorem allocateWindow (hcounter : m.windowIDCounter + 1 < 2 ^ 64) (ownerPID : Nat)
    (flags : BitVec 32) (width height : Int) :
    FocusSound (m.allocateWindow ownerPID flags width height) 0 := by
  have hnext : (m.allocateWindow ownerPID flags width height).windowIDCounter =
      m.windowIDCounter + 1 := Nat.mod_eq_of_lt hcounter
  have hnew : (m.allocateWindow ownerPID flags width height).state? m.windowIDCounter =
      some ⟨false, false, false, false⟩ := by
    simp [state?, WindowManager.allocateWindow, setZOrder, setPosition, WindowObject.new]
  have hold : ∀ k, k ≠ m.windowIDCounter →
      (m.allocateWindow ownerPID flags width height).state? k = m.state? k := by
    intro k hk
    simp [state?, WindowManager.allocateWindow, update_of_ne hk]
  have hbelow : ∀ k, m.Registered k → k ≠ m.windowIDCounter := fun k hk =>
    (h.registered_id hk).2.ne
  refine ⟨⟨hnext ▸ Nat.succ_pos _, fun k s hs => ?_, fun k hk => ?_, h.single⟩,
    fun k s hk hs => ?_, ?_, h.gone⟩
  · rw [hnext]
    by_cases hk : k = m.windowIDCounter
    · rw [hk]
      exact ⟨h.counter, Nat.lt_succ_self _⟩
    · rw [hold k hk] at hs
      exact ⟨(h.numbered k s hs).1, (h.numbered k s hs).2.trans (Nat.lt_succ_self _)⟩
  · rw [hold k (hbelow k hk)]
    exact h.present k hk
  · by_cases hkc : k = m.windowIDCounter
    · rw [hkc, hnew] at hs
      cases hs
      refine ⟨(nomatch ·), fun hfocus => ?_⟩
      have hfocus : m.focusedWindowID = m.windowIDCounter := hfocus.trans hkc
      rcases h.focus with hzero | ⟨hreg, -⟩
      · exact absurd (hzero.symm.trans hfocus) h.counter.ne
      · exact absurd hfocus (hbelow _ hreg)
    · rw [hold k hkc] at hs
      exact h.flag k s hk hs
  · refine h.focus.imp_right fun ⟨hreg, hs⟩ => ⟨hreg, ?_⟩
    change ∃ s, state? _ m.focusedWindowID = some s ∧ _
    rw [hold _ (hbelow _ hreg)]
    exact hs

theorem create (hcounter : m.windowIDCounter + 1 < 2 ^ 64) (ownerPID : Nat) (flags : BitVec 32)
    (width height : Int) (handleAllocated : Bool) :
    FocusSound (m.compositorCreateWindow ownerPID flags width height handleAllocated) 0 := by
  have hallocated := h.allocateWindow hcounter ownerPID flags width height
  have hcreated : FocusSound ((m.allocateWindow ownerPID flags width height).registerWindow
      m.windowIDCounter) 0 := by
    refine hallocated.registerWindow (fun hreg => ?_) ?_
    · exact absurd (h.registered_id hreg).2 (Nat.lt_irrefl _)
    · simp [state?, WindowManager.allocateWindow]
  unfold compositorCreateWindow WindowManager.createWindow
  by_cases hsize : width ≤ 0 ∨ height ≤ 0
  · rw [if_pos hsize]
    exact h
  rw [if_neg hsize]
  dsimp only
  split
  · exact hcreated.focusWindow _
  · exact hcreated.release _

theorem postTo (id : Nat) (payload : Buffer) : FocusSound (m.postTo id payload) 0 :=
  h.modify_same id fun _ => rfl

theorem postKeyEvent (payload : Buffer) : FocusSound (m.postKeyEvent payload) 0 := by
  unfold WindowManager.postKeyEvent
  dsimp only
  split
  · exact h.postTo _ _
  split
  · exact h
  refine FocusSound.postTo ?_ _ _
  split
  · exact h.focusWindow _
  · exact h

theorem changeWindow (id : Nat)
    (change : WindowObject → WindowObject) (hchange : ∀ w, (change w).state = w.state)
    (action : WindowEventAction) : FocusSound (m.changeWindow id change action).2 0 := by
  unfold WindowManager.changeWindow
  split
  · exact h
  · split
    · exact h
    · exact h.modify_same id hchange

theorem postEventToWindow (id : Nat) (payload : Buffer) : FocusSound
    (m.postEventToWindow id payload) 0 := by
  unfold WindowManager.postEventToWindow
  split
  · exact h
  · split
    · exact h
    · exact h.postTo id payload

end FocusSound

end

end WindowManager

/-! ## Every run -/

/-- The window with the focus is not closed, and the ids do not wrap around. -/
def WindowOp.Sound (m : WindowManager) : WindowOp → Prop
  | .create .. => m.windowIDCounter + 1 < 2 ^ 64
  | .control id .close _ _ _ _ => m.focusedWindowID ≠ id ∨ ¬ m.Registered id
  | _ => True

/-- The states that operations with `ok` lead to. -/
inductive Windowed (ok : WindowManager → WindowOp → Prop) : WindowManager → Prop
  | new : Windowed ok .new
  | step {m : WindowManager} (hm : Windowed ok m) (op : WindowOp) (hop : ok m op) :
      Windowed ok (windowStep m op)

open WindowManager

theorem focusSound_new : FocusSound .new 0 where
  counter := Nat.one_pos
  numbered _ _ h := nomatch h
  present _ h := nomatch h
  single _ _ _ h := nomatch h
  flag _ _ _ h := nomatch h
  focus := .inl rfl
  gone h := nomatch h

theorem WindowManager.FocusSound.step {m : WindowManager} (h : FocusSound m 0) {op : WindowOp}
    (hop : op.Sound m) : FocusSound (windowStep m op) 0 := by
  cases op with
  | create ownerPID flags width height handleAllocated =>
    exact h.create hop ownerPID flags width height handleAllocated
  | focus id => exact h.focusWindow id
  | control id action maxX maxY maxWidth maxHeight =>
    rw [windowStep]
    by_cases hreg : m.Registered id
    · refine h.controlWindow id fun hfocus hclose => ?_
      subst hclose
      exact hop.elim (fun hne => hne hfocus) fun hnot => hnot hreg
    · rw [controlWindow_unregistered hreg]
      exact h
  | move id x y => exact h.changeWindow id (setPosition x y) (fun _ => rfl) .moved
  | resize id width height => exact h.changeWindow id (setSize width height) (fun _ => rfl) .resized
  | retain id => exact h.modify_same id fun _ => rfl
  | release id => exact h.release id
  | postKey payload => exact h.postKeyEvent payload
  | postToWindow id payload => exact h.postEventToWindow id payload

theorem Windowed.focusSound {m : WindowManager} (hm : Windowed (fun m op => op.Sound m) m) :
    FocusSound m 0 := by
  induction hm with
  | new => exact focusSound_new
  | step _ op hop ih => exact ih.step hop

/-- What is promised of the focus: a window carries the flag if and only if
`focusedWindowID` is its id, and that is zero or the id of a registered window
that is neither closed nor minimized. -/
def FocusAgrees (m : WindowManager) : Prop :=
  (∀ k w, m.objects k = some w → (w.state.focused = true ↔ m.focusedWindowID = k)) ∧
    (m.focusedWindowID = 0 ∨ (m.Registered m.focusedWindowID ∧
      ∃ w, m.objects m.focusedWindowID = some w ∧ w.state.closed = false ∧
        w.state.minimized = false))

/-- The focus is where it says it is, in every state that operations lead to
which do not close the window with the focus; at most one window has it. -/
theorem focus_agrees {m : WindowManager} (hm : Windowed (fun m op => op.Sound m) m) :
    FocusAgrees m ∧ ∀ k k' w w', m.objects k = some w → m.objects k' = some w' →
      w.state.focused = true → w'.state.focused = true → k = k' := by
  have h := hm.focusSound
  have hflag : ∀ k w, m.objects k = some w → (w.state.focused = true ↔ m.focusedWindowID = k) := by
    intro k w hw
    exact h.flag_iff (s := w.state) (by rw [state?, hw]; rfl)
  refine ⟨⟨hflag, ?_⟩, fun k k' w w' hw hw' hfocus hfocus' =>
    ((hflag k w hw).mp hfocus).symm.trans ((hflag k' w' hw').mp hfocus')⟩
  rcases h.focus with hzero | ⟨hreg, s, hs, hseen⟩
  · exact .inl hzero
  · obtain ⟨w, hw, rfl⟩ := map_eq_some_iff.mp hs
    exact .inr ⟨hreg, w, hw, hseen⟩

/-- Of three windows the one with the focus is minimized, and another one is released. -/
def sampleWindows : WindowManager :=
  [.create 1 0 640 480 true, .create 2 0 320 200 true, .create 2 0 100 100 true, .focus 1,
    .control 1 .minimize 0 0 0 0, .release 3].foldl windowStep .new

theorem focus_agrees_sample :
    FocusAgrees sampleWindows ∧ sampleWindows.focusedWindowID = 2 ∧
      (sampleWindows.state? 1).map (·.minimized) = some true ∧ sampleWindows.state? 3 = none := by
  have hran : Windowed (fun m op => op.Sound m) sampleWindows := by
    rw [sampleWindows]
    simp only [List.foldl_cons, List.foldl_nil]
    refine .step (.step (.step (.step (.step (.step .new _ ?_) _ ?_) _ ?_) _ trivial) _ trivial)
      _ trivial
    all_goals
      dsimp only [WindowOp.Sound]
      decide +kernel
  exact ⟨(focus_agrees hran).1, by decide +kernel, by decide +kernel, by decide +kernel⟩

def sampleWindow : WindowManager := windowStep .new (.create 1 0 640 480 true)

/-- Closing the only window leaves its id in `focusedWindowID`. -/
theorem close_keeps_focus : ¬ ∀ m, Windowed (fun _ _ => True) m → FocusAgrees m := by
  intro h
  have hcreated : Windowed (fun _ _ => True) sampleWindow := .step .new _ trivial
  have hclosed := hcreated.step (.control 1 .close 0 0 0 0) trivial
  rcases (h _ hclosed).2 with hzero | ⟨-, w, hw, hopen, -⟩
  · revert hzero
    decide +kernel
  have hstate : ((windowStep sampleWindow (.control 1 .close 0 0 0 0)).state? 1).map (·.closed) =
      some true := by decide +kernel
  have hfocus : (windowStep sampleWindow (.control 1 .close 0 0 0 0)).focusedWindowID = 1 := by
    decide +kernel
  rw [hfocus] at hw
  rw [state?, hw] at hstate
  exact absurd (hopen.symm.trans (some.inj hstate)) Bool.false_ne_true

end InstantOS.Ipc
