import InstantOS.Base.Window

/-!
# Message queues

`MessageQueueObject` of `ipc/ipc.cpp`: a ring of `MaxMessages` slots, each a
header and a payload of `MaxPayloadSize` bytes.  A slot is reused without being
cleared: `enqueue` writes the header and the first `size` bytes of the payload
and leaves the bytes behind them as they were.

`views` reads a queue as the list of the messages a receiver would be handed,
with zeros behind the payload.  In these terms the queue is a FIFO list:
`enqueue` appends and `dequeue` takes the first, and the stale bytes of a slot
are in none of them.
-/

namespace InstantOS.Ipc

open InstantOS.Base

abbrev Byte := BitVec 8

/-- An array of bytes; the bytes behind its length are never looked at. -/
abbrev Buffer := Nat → Byte

def zeros : Buffer := fun _ => 0

/-- `memcpy(dst, src, n)`. -/
def memcpy (dst src : Buffer) (n : Nat) : Buffer := fun i => if i < n then src i else dst i

@[simp] theorem memcpy_zero (dst src : Buffer) : memcpy dst src 0 = dst := rfl

/-- Copying the same bytes again from where they were copied to. -/
theorem memcpy_memcpy (dst mid src : Buffer) (n : Nat) :
    memcpy dst (memcpy mid src n) n = memcpy dst src n := by
  funext i
  simp only [memcpy]
  split <;> simp_all

def maxMessages : Nat := 64
def maxPayloadSize : Nat := 256

/-- `struct IPCMessageHeader`. -/
structure IPCMessageHeader where
  id : BitVec 64
  senderPID : BitVec 32
  flags : BitVec 16
  reserved : BitVec 16
  size : Nat
deriving DecidableEq

/-- `struct IPCMessage`, the message as user space has it. -/
structure IPCMessage where
  id : BitVec 64
  senderPID : BitVec 32
  flags : BitVec 16
  reserved : BitVec 16
  size : Nat
  data : Buffer

/-- `MessageQueueObject::Message`. -/
structure Message where
  header : IPCMessageHeader
  payload : Buffer

/-- The message `sys_queue_receive` builds for user space: `reserved` is zero,
and so is what is behind the first `size` bytes. -/
def userMessage (header : IPCMessageHeader) (payload : Buffer) : IPCMessage :=
  { id := header.id
    senderPID := header.senderPID
    flags := header.flags
    reserved := 0
    size := header.size
    data := memcpy zeros payload header.size }

structure MessageQueueObject where
  messages : Nat → Message
  head : Nat
  count : Nat
  count_le : count ≤ maxMessages

/-- The constructor. -/
def MessageQueueObject.new : MessageQueueObject :=
  { messages := fun _ => ⟨⟨0, 0, 0, 0, 0⟩, zeros⟩, head := 0, count := 0
    count_le := Nat.zero_le _ }

/-- The payload of a slot after `enqueue`; a null payload is `none`. -/
def storePayload (old : Buffer) (payload : Option Buffer) (size : Nat) : Buffer :=
  match payload with
  | some data => if size > 0 then memcpy old data size else old
  | none => old

def enqueue (q : MessageQueueObject) (header : IPCMessageHeader) (payload : Option Buffer) :
    Bool × MessageQueueObject :=
  if h : q.count ≥ maxMessages ∨ header.size > maxPayloadSize then (false, q)
  else
    let slot := (q.head + q.count) % maxMessages
    let stored := storePayload (q.messages slot).payload payload header.size
    (true,
      { messages := Function.update q.messages slot ⟨header, stored⟩
        head := q.head
        count := q.count + 1
        count_le := by omega })

def dequeue (q : MessageQueueObject) : Option (Message × MessageQueueObject) :=
  if q.count = 0 then none
  else
    some (q.messages (q.head % maxMessages),
      { messages := q.messages
        head := (q.head + 1) % maxMessages
        count := q.count - 1
        count_le := (Nat.sub_le _ _).trans q.count_le })

/-- The messages in the queue as receivers will see them, the oldest first. -/
def views (q : MessageQueueObject) : List IPCMessage :=
  (window maxMessages q.messages q.head q.count).map fun m => userMessage m.header m.payload

/-- The bytes a slot held before are not seen. -/
theorem userMessage_storePayload (header : IPCMessageHeader) (old data : Buffer) :
    userMessage header (storePayload old (some data) header.size) = userMessage header data := by
  simp only [storePayload, userMessage]
  split
  · rw [memcpy_memcpy]
  · rename_i hzero
    rw [Nat.eq_zero_of_not_pos hzero, memcpy_zero, memcpy_zero]

/-- What is accepted is appended. -/
theorem enqueue_true {q : MessageQueueObject} {header : IPCMessageHeader} {data : Buffer}
    (h : (enqueue q header (some data)).1) :
    views (enqueue q header (some data)).2 = views q ++ [userMessage header data] := by
  unfold enqueue at h ⊢
  split at h
  · cases h
  rename_i hroom
  have hcount : q.count < maxMessages := by omega
  rw [dif_neg hroom]
  simp only [views, window_push q.messages q.head _ hcount, List.map_append,
    List.map_singleton, userMessage_storePayload]

/-- What is taken is the oldest message. -/
theorem dequeue_some {q q' : MessageQueueObject} {m : Message} (h : dequeue q = some (m, q')) :
    views q = userMessage m.header m.payload :: views q' := by
  unfold dequeue at h
  split at h
  · cases h
  rename_i hcount
  cases h
  obtain ⟨n, hn⟩ := Nat.exists_eq_succ_of_ne_zero hcount
  simp only [views, hn, Nat.succ_eq_add_one, window_succ, Nat.add_sub_cancel, List.map_cons]

end InstantOS.Ipc
