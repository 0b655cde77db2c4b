import Mathlib.Data.Fintype.Basic

/-!
# The handle table

`HandleTable` of `cpu/process/handles.cpp`.  A table has `MaxHandles` slots; a
handle is a 64-bit word with the type of its entry in the top sixteen bits and
the slot in the low thirty-two.  `decodeHandle` looks at nothing else, so the
sixteen bits between are free and every slot has many names.

The tables of all processes are one `World`, because `cloneFrom` reads one
table while it writes another and the two may be the same object.  The
functions `retain` and `release` of an entry belong to the object's own
module; what the table does with them is recorded as a list of calls.
-/

namespace InstantOS.Handles

/-- `enum class HandleType`. -/
inductive HandleType
  | none | file | process | thread | window | surface | eventQueue | service
  | timer | sharedMemory | gpuContext | font | pipe | socket
deriving DecidableEq, Repr

namespace HandleType

/-- The value of the enumerator. -/
def code : HandleType → Nat
  | none => 0 | file => 1 | process => 2 | thread => 3 | window => 4
  | surface => 5 | eventQueue => 6 | service => 7 | timer => 8
  | sharedMemory => 9 | gpuContext => 10 | font => 11 | pipe => 12 | socket => 13

/-- `static_cast<HandleType>`, for the values that are enumerators. -/
def ofCode : Nat → Option HandleType
  | 0 => some none | 1 => some file | 2 => some process | 3 => some thread
  | 4 => some window | 5 => some surface | 6 => some eventQueue | 7 => some service
  | 8 => some timer | 9 => some sharedMemory | 10 => some gpuContext | 11 => some font
  | 12 => some pipe | 13 => some socket | _ => Option.none

@[simp] theorem ofCode_code (type : HandleType) : ofCode type.code = some type := by
  cases type <;> rfl

theorem code_lt (type : HandleType) : type.code < 14 := by
  cases type <;> decide

end HandleType

def maxHandles : Nat := 1024
def firstAllocHandle : Nat := 3
def typeShift : Nat := 48
def slotMask : BitVec 64 := 0xFFFFFFFF
/-- `HandleRightDuplicate`, bit 6 of the rights. -/
def handleRightDuplicate : BitVec 32 := 0x40

abbrev Handle := BitVec 64
abbrev Slot := Fin maxHandles

/-- `static_cast<uint64_t>(-1)`. -/
def invalidHandle : Handle := 0xFFFFFFFFFFFFFFFF

/-- `struct HandleEntry`; a null pointer is `none`. -/
structure HandleEntry (Obj Fn : Type) where
  type : HandleType
  rights : BitVec 32
  object : Option Obj
  retain : Option Fn
  release : Option Fn
  closeOnExec : Bool
deriving DecidableEq

/-- What `clearEntry` leaves in a slot. -/
def HandleEntry.cleared {Obj Fn : Type} : HandleEntry Obj Fn :=
  { type := .none, rights := 0, object := none, retain := none, release := none
    closeOnExec := false }

/-- The slots `0`, `1`, `2` are for files only. -/
def minSlot (type : HandleType) : Nat :=
  if type = .file then 0 else firstAllocHandle

def encodeHandle (type : HandleType) (slot : Slot) : Handle :=
  if type = .none then invalidHandle
  else if slot.val < minSlot type then invalidHandle
  else (BitVec.ofNat 64 type.code <<< typeShift) ||| BitVec.ofNat 64 slot.val

def decodeHandle (handle : Handle) : Option (HandleType × Slot) :=
  let rawType := (handle >>> typeShift).toNat
  let rawSlot := (handle &&& slotMask).toNat
  match HandleType.ofCode rawType with
  | none => none
  | some type =>
    if type = .none then none
    else if h : rawSlot < maxHandles then
      if rawSlot < minSlot type then none else some (type, ⟨rawSlot, h⟩)
    else none

/-- A call the tables make, or a reference a caller hands over to them. -/
inductive Event (Obj Fn : Type)
  | handOver (object : Obj)
  | retain (fn : Fn) (object : Option Obj)
  | release (fn : Fn) (object : Option Obj)
deriving DecidableEq

/-- The handle tables and the calls made so far, the latest first. -/
structure World (T Obj Fn : Type) where
  entries : T → Slot → HandleEntry Obj Fn
  calls : List (Event Obj Fn)

section

variable {T Obj Fn : Type} [DecidableEq T]

-- the world, the table, and the handle and the entry a method is called with
variable (w : World T Obj Fn) (t : T) (handle : Handle) (entry : HandleEntry Obj Fn)

/-- Tables as the constructor leaves them. -/
def World.fresh : World T Obj Fn := { entries := fun _ _ => .cleared, calls := [] }

def World.put (slot : Slot) (entry : HandleEntry Obj Fn) : World T Obj Fn :=
  { w with entries := fun t' slot' =>
      if t' = t ∧ slot' = slot then entry else w.entries t' slot' }

def World.note (event : Event Obj Fn) : World T Obj Fn :=
  { w with calls := event :: w.calls }

def clearEntry (slot : Slot) : World T Obj Fn :=
  w.put t slot .cleared

def releaseEntry : World T Obj Fn :=
  match entry.release, entry.object with
  | some fn, some object => w.note (.release fn (some object))
  | _, _ => w

/-- `if (entry->retain) entry->retain(entry->object)`. -/
def retainEntry : World T Obj Fn :=
  match entry.retain with
  | some fn => w.note (.retain fn entry.object)
  | none => w

def close : Bool × World T Obj Fn :=
  match decodeHandle handle with
  | none => (false, w)
  | some (type, slot) =>
    let entry := w.entries t slot
    if entry.type = .none ∨ entry.type ≠ type then (false, w)
    else (true, clearEntry (releaseEntry w entry) t slot)

def closeExpecting (expected : HandleType) : Bool × World T Obj Fn :=
  match decodeHandle handle with
  | none => (false, w)
  | some (type, slot) =>
    if type ≠ expected ∨ (w.entries t slot).type ≠ expected then (false, w)
    else close w t handle

/-- The loop of `closeAll`, `closeAllFiles` and `closeOnExecHandles`: every
entry that `chosen` accepts is closed under the name `encodeHandle` gives it. -/
def closeWhere (chosen : HandleEntry Obj Fn → Bool) (w : World T Obj Fn) (t : T) : World T Obj Fn :=
  (List.finRange maxHandles).foldl (fun w slot =>
      let entry := w.entries t slot
      if chosen entry then (close w t (encodeHandle entry.type slot)).2 else w) w

def closeAll : World T Obj Fn :=
  closeWhere (fun entry => entry.type ≠ .none) w t

def closeAllFiles : World T Obj Fn :=
  closeWhere (fun entry => entry.type = .file) w t

def closeOnExecHandles : World T Obj Fn :=
  closeWhere (fun entry => entry.type ≠ .none && entry.closeOnExec) w t

def allocateAt : Handle × World T Obj Fn :=
  match decodeHandle handle with
  | none => (invalidHandle, w)
  | some (handleType, slot) =>
    if handleType ≠ entry.type ∨ entry.type = .none ∨ entry.object = none then
      (invalidHandle, w)
    else
      -- The result of `close` is ignored, so is a refusal.
      let w' := if (w.entries t slot).type ≠ .none then (close w t handle).2 else w
      (handle, w'.put t slot entry)

def allocate : Handle × World T Obj Fn :=
  if entry.type = .none ∨ entry.object = none then (invalidHandle, w)
  else
    match (List.finRange maxHandles).find? (fun slot =>
        decide (firstAllocHandle ≤ slot.val) && decide ((w.entries t slot).type = .none)) with
    | some slot => allocateAt w t (encodeHandle entry.type slot) entry
    | none => (invalidHandle, w)

/-- `get`: the slot of a handle that names an open entry of its own type. -/
def get : Option Slot :=
  match decodeHandle handle with
  | none => none
  | some (type, slot) =>
    let entry := w.entries t slot
    if entry.type = .none ∨ entry.type ≠ type then none else some slot

/-- `getObject`: the object behind a handle of the expected type whose entry has all the
rights asked for. -/
def getObject (expected : HandleType) (requiredRights : BitVec 32) : Option Obj :=
  match get w t handle with
  | none => none
  | some slot =>
    let entry := w.entries t slot
    if entry.type ≠ expected then none
    else if entry.rights &&& requiredRights ≠ requiredRights then none
    else entry.object

def canDuplicate : Bool :=
  entry.rights &&& handleRightDuplicate ≠ 0

def duplicate : Handle × World T Obj Fn :=
  match get w t handle with
  | none => (invalidHandle, w)
  | some slot =>
    let entry := w.entries t slot
    if canDuplicate entry then
      let (newHandle, w') := allocate (retainEntry w entry) t { entry with closeOnExec := false }
      if newHandle = invalidHandle then
        match entry.release with
        | some fn => (newHandle, w'.note (.release fn entry.object))
        | none => (newHandle, w')
      else (newHandle, w')
    else (invalidHandle, w)

def duplicateExpecting (expected : HandleType) : Handle × World T Obj Fn :=
  match get w t handle with
  | none => (invalidHandle, w)
  | some slot =>
    if (w.entries t slot).type ≠ expected then (invalidHandle, w) else duplicate w t handle

/-- `duplicateTo`.  `entry` is a pointer into the table, so what is copied is
read from the old slot after the new one was closed. -/
def duplicateTo (oldHandle newHandle : Handle) : Bool × World T Obj Fn :=
  match get w t oldHandle with
  | none => (false, w)
  | some slot =>
    let entry := w.entries t slot
    if ¬ canDuplicate entry then (false, w)
    else if oldHandle = newHandle then (true, w)
    else
      match decodeHandle newHandle with
      | none => (false, w)
      | some (newType, newSlot) =>
        if newType ≠ entry.type then (false, w)
        else
          let w₁ := retainEntry w entry
          let w₂ := if (w₁.entries t newSlot).type ≠ .none then (close w₁ t newHandle).2 else w₁
          (true, w₂.put t newSlot { w₂.entries t slot with closeOnExec := false })

def duplicateToExpecting (oldHandle newHandle : Handle)
    (expected : HandleType) : Bool × World T Obj Fn :=
  match get w t oldHandle with
  | none => (false, w)
  | some slot =>
    if (w.entries t slot).type ≠ expected then (false, w)
    else
      match decodeHandle newHandle with
      | none => (false, w)
      | some (newType, newSlot) =>
        if newType ≠ expected then (false, w)
        else if (w.entries t newSlot).type ≠ .none ∧ (w.entries t newSlot).type ≠ expected then
          (false, w)
        else duplicateTo w t oldHandle newHandle

/-- The tests of `cloneFrom` that let an entry be copied. -/
def cloneable (skipCloseOnExec filesOnly : Bool) (src : HandleEntry Obj Fn) : Bool :=
  decide (src.type ≠ .none) && src.object.isSome && !(skipCloseOnExec && src.closeOnExec) &&
    !(filesOnly && decide (src.type ≠ .file) && decide (src.type ≠ .pipe) &&
      decide (src.type ≠ .socket))

/-- One turn of the loop of `cloneFrom`.  `src` is a reference into the source
table, read again after the slot of the destination was cleared. -/
def cloneSlot (skipCloseOnExec filesOnly : Bool) (source dest : T) (w : World T Obj Fn)
    (slot : Slot) : World T Obj Fn :=
  let src := w.entries source slot
  if cloneable skipCloseOnExec filesOnly src then
    let w₁ := retainEntry w src
    let old := w₁.entries dest slot
    let w₂ := if old.type ≠ .none then clearEntry (releaseEntry w₁ old) dest slot else w₁
    w₂.put dest slot (w₂.entries source slot)
  else w

def cloneFrom (dest source : T) (skipCloseOnExec filesOnly : Bool) : World T Obj Fn :=
  (List.finRange maxHandles).foldl (cloneSlot skipCloseOnExec filesOnly source dest) w

end

end InstantOS.Handles
