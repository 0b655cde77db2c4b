import InstantOS.Ipc.QueueRun
import Mathlib.Data.List.FinRange

/-!
# Windows and the focus

The windows of `IPCManager` in `ipc/ipc.cpp`.  Which window has the focus is
stored twice, as a flag of the window and as the number `focusedWindowID`, and
the operations change the two one after the other.

A window object is known by its id, which no other object has; `windows` are
the registered ones.  A window that found the table full exists, and can be
released, without being registered.
-/

namespace InstantOS.Ipc

open Function

def maxWindows : Nat := 64

/-- The bits of `WindowState`. -/
structure WindowState where
  focused : Bool
  minimized : Bool
  maximized : Bool
  closed : Bool
deriving DecidableEq, Repr

inductive WindowControlAction
  | restore | minimize | maximize | close
  /-- A number that is none of the enumerators. -/
  | other
deriving DecidableEq, Repr

inductive WindowEventAction
  | focusGained | focusLost | closeRequested | resized | moved
deriving DecidableEq, Repr

def WindowEventAction.code : WindowEventAction → Nat
  | focusGained => 1 | focusLost => 2 | closeRequested => 3 | resized => 4 | moved => 5

structure WindowObject where
  id : Nat
  ownerPID : Nat
  flags : BitVec 32
  refCount : Nat
  state : WindowState
  zOrder : BitVec 32
  x : Int
  y : Int
  width : Int
  height : Int
  restoreX : Int
  restoreY : Int
  restoreWidth : Int
  restoreHeight : Int
  queue : MessageQueueObject

/-- The constructor, with a queue of its own. -/
def WindowObject.new (id ownerPID : Nat) (flags : BitVec 32) (width height : Int) : WindowObject :=
  { id := id, ownerPID := ownerPID, flags := flags, refCount := 1
    state := ⟨false, false, false, false⟩, zOrder := 0, x := 0, y := 0
    width := width, height := height, restoreX := 0, restoreY := 0
    restoreWidth := width, restoreHeight := height, queue := .new }

/-! ## Events -/

/-- `sizeof(Event)`: eight bytes and a union of 48. -/
def eventSize : Nat := 56

/-- `n` bytes of a number, the lowest first. -/
def littleEndian (n value : Nat) : List Byte :=
  (List.range n).map fun i => BitVec.ofNat 8 (value >>> (8 * i))

/-- An `int32_t`. -/
def littleEndian32 (value : Int) : List Byte := littleEndian 4 (value % 2 ^ 32).toNat

/-- The `Event` of a window: `EventType::Window`, the action, the id and the
geometry. -/
def windowEvent (w : WindowObject) (action : WindowEventAction) : Buffer := fun i =>
  (littleEndian 2 3 ++ littleEndian 6 0 ++ littleEndian 2 action.code ++ littleEndian 2 0 ++
    littleEndian 4 w.id ++ littleEndian32 w.x ++ littleEndian32 w.y ++
    littleEndian32 w.width ++ littleEndian32 w.height).getD i 0

/-- The result of `enqueue` is ignored by every caller. -/
def enqueueWindowEvent (action : WindowEventAction) (w : WindowObject) : WindowObject :=
  { w with queue := (enqueue w.queue (eventHeader eventSize) (some (windowEvent w action))).2 }

/-! ## One window -/

def setFocused (focused : Bool) (w : WindowObject) : WindowObject :=
  { w with state := { w.state with focused := focused } }

def unminimize (w : WindowObject) : WindowObject :=
  { w with state := { w.state with minimized := false } }

def setZOrder (order : BitVec 32) (w : WindowObject) : WindowObject := { w with zOrder := order }

def setPosition (x y : Int) (w : WindowObject) : WindowObject := { w with x := x, y := y }

def setSize (width height : Int) (w : WindowObject) : WindowObject :=
  { w with
    width := if width > 1 then width else 1
    height := if height > 1 then height else 1 }

/-- `WindowObject::control`. -/
def control (action : WindowControlAction) (maxX maxY maxWidth maxHeight : Int)
    (w : WindowObject) : WindowObject :=
  match action with
  | .restore =>
    if w.state.closed then w
    else
      let w := unminimize w
      if w.state.maximized then
        { w with
          state := { w.state with maximized := false }
          x := w.restoreX
          y := w.restoreY
          width := w.restoreWidth
          height := w.restoreHeight }
      else w
  | .minimize =>
    if w.state.closed then w
    else { w with state := { w.state with minimized := true, focused := false } }
  | .maximize =>
    if w.state.closed then w
    else
      let w :=
        if w.state.maximized then w
        else
          { w with
            restoreX := w.x
            restoreY := w.y
            restoreWidth := w.width
            restoreHeight := w.height }
      { w with
        state := { w.state with minimized := false, maximized := true }
        x := maxX
        y := maxY
        width := if maxWidth > 1 then maxWidth else 1
        height := if maxHeight > 1 then maxHeight else 1 }
  | .close =>
    { w with state := { w.state with closed := true, focused := false, minimized := false } }
  | .other => w

/-! ## The manager -/

structure WindowManager where
  objects : Nat → Option WindowObject
  windows : Fin maxWindows → Option Nat
  windowIDCounter : Nat
  focusedWindowID : Nat
  nextWindowZOrder : BitVec 32

def WindowManager.new : WindowManager :=
  { objects := fun _ => none, windows := fun _ => none, windowIDCounter := 1
    focusedWindowID := 0, nextWindowZOrder := 1 }

namespace WindowManager

variable (m : WindowManager) (id : Nat)

/-- A method call on an object. -/
def modify (f : WindowObject → WindowObject) : WindowManager :=
  { m with objects := update m.objects id ((m.objects id).map f) }

def Registered : Prop := ∃ i, m.windows i = some id
deriving Decidable

def lookupWindow : Option WindowObject :=
  if m.Registered id then m.objects id else none

/-- The visible window with the greatest z-order, the first of several. -/
def topVisibleWindow : Option WindowObject :=
  (List.finRange maxWindows).foldl (fun best i =>
      match (m.windows i).bind m.objects with
      | none => best
      | some window =>
        if window.state.closed || window.state.minimized then best
        else
          match best with
          | none => some window
          | some top => if top.zOrder < window.zOrder then some window else best)
    none

/-- The window that has the focus loses it, unless it is `id`. -/
def loseFocus : WindowManager :=
  if (m.lookupWindow m.focusedWindowID).isSome ∧ m.focusedWindowID ≠ id then
    m.modify m.focusedWindowID fun w => enqueueWindowEvent .focusLost (setFocused false w)
  else m

/-- The window `id` is shown, gets the focus and comes to the top. -/
def gainFocus : WindowManager :=
  let shown := { m.modify id unminimize with focusedWindowID := id }
  { shown.modify id fun w =>
      enqueueWindowEvent .focusGained (setZOrder m.nextWindowZOrder (setFocused true w))
    with nextWindowZOrder := m.nextWindowZOrder + 1 }

def focusWindow : Bool × WindowManager :=
  match m.lookupWindow id with
  | none => (false, m)
  | some target =>
    if target.state.closed then (false, m) else (true, (m.loseFocus id).gainFocus id)

/-- The focus goes to the top visible window, if there is one. -/
def refocus : WindowManager :=
  let m := { m with focusedWindowID := 0 }
  match m.topVisibleWindow with
  | none => m
  | some next => (m.focusWindow next.id).2

def forgetWindow : WindowManager :=
  let forgotten :=
    match (List.finRange maxWindows).find? fun i => m.windows i = some id with
    | none => m
    | some i => { m with windows := update m.windows i none }
  if forgotten.focusedWindowID = id then forgotten.refocus else forgotten

def retain : WindowManager :=
  m.modify id fun w => { w with refCount := w.refCount + 1 }

/-- `release`: the last reference forgets the window and deletes it. -/
def release : WindowManager :=
  match m.objects id with
  | none => m
  | some window =>
    if window.refCount = 0 then m
    else
      let m := m.modify id fun w => { w with refCount := w.refCount - 1 }
      if window.refCount = 1 then
        let m := m.forgetWindow id
        { m with objects := update m.objects id none }
      else m

/-- A full table drops the registration. -/
def registerWindow : WindowManager :=
  match (List.finRange maxWindows).find? fun i => m.windows i = none with
  | none => m
  | some i => { m with windows := update m.windows i (some id) }

/-- The new object of `createWindow`, not yet registered.  Its place steps down
the screen with its id. -/
def allocateWindow (ownerPID : Nat) (flags : BitVec 32) (width height : Int) : WindowManager :=
  let id := m.windowIDCounter
  -- `id - 1` in 64 bits
  let offset : Int := ((id + 7) % 8 : Nat) * 28
  let window := setPosition (48 + offset) (48 + offset)
    (WindowObject.new id ownerPID flags width height)
  { m with
    objects := update m.objects id (some (setZOrder m.nextWindowZOrder window))
    windowIDCounter := (id + 1) % 2 ^ 64
    nextWindowZOrder := m.nextWindowZOrder + 1 }

def createWindow (ownerPID : Nat) (flags : BitVec 32) (width height : Int) :
    Option (Nat × WindowManager) :=
  if width ≤ 0 ∨ height ≤ 0 then none
  else
    some (m.windowIDCounter,
      (m.allocateWindow ownerPID flags width height).registerWindow m.windowIDCounter)

/-- `sys_compositor_create_window`: without a handle the window is released
again. -/
def compositorCreateWindow (ownerPID : Nat) (flags : BitVec 32)
    (width height : Int) (handleAllocated : Bool) : WindowManager :=
  match m.createWindow ownerPID flags width height with
  | none => m
  | some (id, m) => if handleAllocated then (m.focusWindow id).2 else m.release id

/-- `moveWindow` and `resizeWindow`. -/
def changeWindow (change : WindowObject → WindowObject)
    (action : WindowEventAction) : Bool × WindowManager :=
  match m.lookupWindow id with
  | none => (false, m)
  | some window =>
    if window.state.closed then (false, m)
    else (true, m.modify id fun w => enqueueWindowEvent action (change w))

def moveWindow (x y : Int) : Bool × WindowManager :=
  m.changeWindow id (setPosition x y) .moved

def resizeWindow (width height : Int) : Bool × WindowManager :=
  m.changeWindow id (setSize width height) .resized

def controlWindow (action : WindowControlAction)
    (maxX maxY maxWidth maxHeight : Int) : Bool × WindowManager :=
  match m.lookupWindow id with
  | none => (false, m)
  | some _ =>
    let m := m.modify id (control action maxX maxY maxWidth maxHeight)
    match action with
    | .close => (true, m.modify id (enqueueWindowEvent .closeRequested))
    | .minimize =>
      let m := m.modify id (enqueueWindowEvent .resized)
      (true, if m.focusedWindowID = id then m.refocus else m)
    | .restore => (true, m.modify id (enqueueWindowEvent .resized))
    | .maximize => (true, m.modify id (enqueueWindowEvent .resized))
    | .other => (true, m)

/-- An event for a window, whoever made it. -/
def postTo (payload : Buffer) : WindowManager :=
  m.modify id fun w =>
    { w with queue := (enqueue w.queue (eventHeader eventSize) (some payload)).2 }

/-- `postEventToFocusedWindow` for a key event: if the window of
`focusedWindowID` cannot be seen, the top visible one gets the focus first. -/
def postKeyEvent (payload : Buffer) : WindowManager :=
  let seen (w : WindowObject) : Bool := !(w.state.closed || w.state.minimized)
  match (m.lookupWindow m.focusedWindowID).filter seen with
  | some focused => m.postTo focused.id payload
  | none =>
    match m.topVisibleWindow with
    | none => m
    | some top =>
      let m := if m.focusedWindowID ≠ top.id then (m.focusWindow top.id).2 else m
      m.postTo top.id payload

/-- `postEventToWindow`, the pointer events of the compositor. -/
def postEventToWindow (payload : Buffer) : WindowManager :=
  match m.lookupWindow id with
  | none => m
  | some window => if window.state.closed then m else m.postTo id payload

end WindowManager

inductive WindowOp
  | create (ownerPID : Nat) (flags : BitVec 32) (width height : Int) (handleAllocated : Bool)
  | focus (id : Nat)
  | control (id : Nat) (action : WindowControlAction) (maxX maxY maxWidth maxHeight : Int)
  | move (id : Nat) (x y : Int)
  | resize (id : Nat) (width height : Int)
  | retain (id : Nat)
  | release (id : Nat)
  | postKey (payload : Buffer)
  | postToWindow (id : Nat) (payload : Buffer)

def windowStep (m : WindowManager) : WindowOp → WindowManager
  | .create ownerPID flags width height handleAllocated =>
    m.compositorCreateWindow ownerPID flags width height handleAllocated
  | .focus id => (m.focusWindow id).2
  | .control id action maxX maxY maxWidth maxHeight =>
    (m.controlWindow id action maxX maxY maxWidth maxHeight).2
  | .move id x y => (m.moveWindow id x y).2
  | .resize id width height => (m.resizeWindow id width height).2
  | .retain id => m.retain id
  | .release id => m.release id
  | .postKey payload => m.postKeyEvent payload
  | .postToWindow id payload => m.postEventToWindow id payload

end InstantOS.Ipc
