import InstantOS.Ipc.MessageQueue

/-!
# Traffic on one message queue

The calls of `cpu/syscall/ipc.cpp` that meet on a queue, each cut where another
thread may run: a try of the sending loop of `sys_queue_send`,
`sys_queue_request` and the event posts, a try of the receiving loop of
`sys_queue_receive`, and the copy of the received message to user space that
ends it.  A receiver holds its message between the last two.

The queue itself loses nothing.  `sys_queue_receive` does: it has taken the
message off the queue when it finds that the buffer of its caller cannot be
written.  `QueueOp.Sound` asks that the buffer can be, and `queue_exactly_once` is
what holds along every run of such steps.
-/

namespace InstantOS.Ipc

open Function

/-- What a step of a call comes to: the call goes on, sleeps and tries again,
or returns. -/
inductive Outcome
  | running
  | sleeps
  | returns (ok : Bool)
deriving DecidableEq, Repr

/-- The header of `sys_queue_send`. -/
def sendHeader (senderPID : BitVec 32) (message : IPCMessage) : IPCMessageHeader :=
  { id := message.id, senderPID := senderPID, flags := message.flags, reserved := 0
    size := message.size }

/-- The header of `sys_queue_request`: its own number and `IPCMessageFlagRequest`. -/
def requestHeader (senderPID : BitVec 32) (requestID : BitVec 64) (request : IPCMessage) :
    IPCMessageHeader :=
  { id := requestID, senderPID := senderPID, flags := request.flags ||| 1, reserved := 0
    size := request.size }

/-- The header of posted events: `IPCMessageFlagEvent`. -/
def eventHeader (size : Nat) : IPCMessageHeader :=
  { id := 0, senderPID := 0, flags := 2, reserved := 0, size := size }

/-- The queue and its users.  `writable` tells which addresses of a thread's
memory take an `IPCMessage`; `holding` is the message a receiver has taken off
the queue, with the address it is to go to.  `sent`, `taken` and `delivered`
record the successful sends, the messages taken and the successful receives,
in their order. -/
structure Traffic (Tid : Type) where
  queue : MessageQueueObject
  writable : Tid → BitVec 64 → Bool
  holding : Tid → Option (IPCMessage × BitVec 64)
  sent : List IPCMessage
  taken : List (Tid × IPCMessage)
  delivered : List (Tid × IPCMessage)

/-- A new queue. -/
def Traffic.fresh {Tid : Type} : Traffic Tid :=
  { queue := .new, writable := fun _ _ => false, holding := fun _ => none
    sent := [], taken := [], delivered := [] }

inductive QueueOp (Tid : Type)
  /-- `sys_queue_send`; `none` is a message that could not be read. -/
  | send (senderPID : BitVec 32) (message : Option IPCMessage) (wait : Bool)
  /-- The sending part of `sys_queue_request`. -/
  | request (senderPID : BitVec 32) (requestID : BitVec 64) (message : Option IPCMessage)
  /-- An event posted by the kernel. -/
  | post (size : Nat) (payload : Buffer)
  /-- A try of `sys_queue_receive`. -/
  | receive (tid : Tid) (messagePtr : BitVec 64) (wait : Bool)
  /-- The copy to user space at its end. -/
  | copyOut (tid : Tid)
  /-- The memory of a thread changes. -/
  | remap (writable : Tid → BitVec 64 → Bool)

section

variable {Tid : Type} [DecidableEq Tid] (w : Traffic Tid) (tid : Tid)

/-- One try of a sending loop. -/
def trySend (header : IPCMessageHeader) (payload : Buffer) (wait : Bool) : Outcome × Traffic Tid :=
  let result := enqueue w.queue header (some payload)
  if result.1 then
    (.returns true,
      { w with queue := result.2, sent := w.sent ++ [userMessage header payload] })
  else if wait then (.sleeps, w) else (.returns false, w)

/-- The checks before the loop. -/
def checkedSend (message : Option IPCMessage)
    (header : IPCMessage → IPCMessageHeader) (wait : Bool) : Outcome × Traffic Tid :=
  match message with
  | none => (.returns false, w)
  | some message =>
    if message.size > maxPayloadSize then (.returns false, w)
    else trySend w (header message) message.data wait

def tryReceive (messagePtr : BitVec 64) (wait : Bool) : Outcome × Traffic Tid :=
  match w.holding tid with
  | some _ => (.running, w)
  | none =>
    match dequeue w.queue with
    | none => if wait then (.sleeps, w) else (.returns false, w)
    | some (m, q) =>
      let message := userMessage m.header m.payload
      (.running,
        { w with
          queue := q
          holding := update w.holding tid (some (message, messagePtr))
          taken := w.taken ++ [(tid, message)] })

def finishReceive : Outcome × Traffic Tid :=
  match w.holding tid with
  | none => (.running, w)
  | some (message, messagePtr) =>
    if w.writable tid messagePtr then
      (.returns true,
        { w with
          holding := update w.holding tid none
          delivered := w.delivered ++ [(tid, message)] })
    else (.returns false, { w with holding := update w.holding tid none })

def queueStep : QueueOp Tid → Outcome × Traffic Tid
  | .send senderPID message wait => checkedSend w message (sendHeader senderPID) wait
  | .request senderPID requestID message =>
    checkedSend w message (requestHeader senderPID requestID) true
  | .post size payload => trySend w (eventHeader size) payload false
  | .receive tid messagePtr wait => tryReceive w tid messagePtr wait
  | .copyOut tid => finishReceive w tid
  | .remap writable => (.running, { w with writable := writable })

/-- A receiver that has its message can write it to its caller's buffer. -/
def QueueOp.Sound : QueueOp Tid → Prop
  | .copyOut tid => ∀ held, w.holding tid = some held → w.writable tid held.2 = true
  | _ => True

/-- The states that steps with `ok` lead to. -/
inductive Trafficked (ok : Traffic Tid → QueueOp Tid → Prop) : Traffic Tid → Prop
  | fresh : Trafficked ok .fresh
  | step {w : Traffic Tid} (hw : Trafficked ok w) (op : QueueOp Tid) (hop : ok w op) :
      Trafficked ok (queueStep w op).2

/-- The messages of one thread in a record. -/
def mine (record : List (Tid × IPCMessage)) : List IPCMessage :=
  (record.filter fun entry => entry.1 = tid).map Prod.snd

theorem mine_append (record : List (Tid × IPCMessage)) (entry : Tid × IPCMessage) :
    mine tid (record ++ [entry]) = mine tid record ++ if entry.1 = tid then [entry.2] else [] := by
  by_cases h : entry.1 = tid <;> simp [mine, h]

/-- The books of the queue: what was sent was taken in that order or waits, and
what a thread took was delivered to it in that order, but for the message it
holds. -/
structure Accounted (w : Traffic Tid) : Prop where
  fifo : w.sent = w.taken.map Prod.snd ++ views w.queue
  once : ∀ tid, mine tid w.taken = mine tid w.delivered ++ ((w.holding tid).map Prod.fst).toList

/-! ## One step -/

theorem trySend_spec (header : IPCMessageHeader) (payload : Buffer)
    (wait : Bool) (hw : Accounted w) : Accounted (trySend w header payload wait).2 ∧
      ((trySend w header payload wait).1 = .returns false →
        (trySend w header payload wait).2 = w) := by
  unfold trySend
  cases hsent : (enqueue w.queue header (some payload)).1 with
  | true =>
    simp only [hsent, if_true]
    refine ⟨⟨?_, hw.once⟩, fun h => by cases h⟩
    rw [enqueue_true hsent, hw.fifo, List.append_assoc]
  | false =>
    simp only [hsent, Bool.false_eq_true, if_false]
    split <;> exact ⟨hw, fun _ => rfl⟩

theorem checkedSend_spec (message : Option IPCMessage)
    (header : IPCMessage → IPCMessageHeader) (wait : Bool) (hw : Accounted w) :
    Accounted (checkedSend w message header wait).2 ∧
      ((checkedSend w message header wait).1 = .returns false →
        (checkedSend w message header wait).2 = w) := by
  unfold checkedSend
  split
  · exact ⟨hw, fun _ => rfl⟩
  · split
    · exact ⟨hw, fun _ => rfl⟩
    · exact trySend_spec w _ _ wait hw

theorem tryReceive_spec (messagePtr : BitVec 64) (wait : Bool) (hw : Accounted w) :
    Accounted (tryReceive w tid messagePtr wait).2 ∧
      ((tryReceive w tid messagePtr wait).1 = .returns false →
        (tryReceive w tid messagePtr wait).2 = w) := by
  unfold tryReceive
  split
  · exact ⟨hw, fun _ => rfl⟩
  rename_i hfree
  split
  · split <;> exact ⟨hw, fun _ => rfl⟩
  rename_i m q hdequeue
  refine ⟨⟨?_, fun tid' => ?_⟩, fun h => by cases h⟩
  · rw [hw.fifo, dequeue_some hdequeue]
    simp
  · have honce := hw.once tid'
    rw [mine_append, honce]
    by_cases htid : tid = tid'
    · subst htid
      simp [hfree]
    · simp [htid, update_of_ne (Ne.symm htid)]

theorem finishReceive_spec (hw : Accounted w) (hsound : (QueueOp.copyOut tid).Sound w) :
    Accounted (finishReceive w tid).2 ∧ (finishReceive w tid).1 ≠ .returns false := by
  unfold finishReceive
  split
  · exact ⟨hw, by simp⟩
  rename_i message messagePtr hheld
  rw [if_pos (hsound _ hheld)]
  refine ⟨⟨hw.fifo, fun tid' => ?_⟩, by simp⟩
  have honce := hw.once tid'
  rw [mine_append, honce]
  by_cases htid : tid = tid'
  · subst htid
    simp [hheld]
  · simp [htid, update_of_ne (Ne.symm htid)]

theorem queueStep_spec (op : QueueOp Tid) (hw : Accounted w) (hop : op.Sound w) :
    Accounted (queueStep w op).2 ∧
      ((queueStep w op).1 = .returns false → (queueStep w op).2 = w) := by
  cases op with
  | send senderPID message wait => exact checkedSend_spec w message _ wait hw
  | request senderPID requestID message => exact checkedSend_spec w message _ true hw
  | post size payload => exact trySend_spec w _ payload false hw
  | receive tid messagePtr wait => exact tryReceive_spec w tid messagePtr wait hw
  | copyOut tid =>
    obtain ⟨haccounted, hreturns⟩ := finishReceive_spec w tid hw hop
    exact ⟨haccounted, fun h => absurd h hreturns⟩
  | remap writable => exact ⟨⟨hw.fifo, hw.once⟩, fun h => by cases h⟩

/-! ## Every run -/

theorem Trafficked.accounted {w : Traffic Tid}
    (hw : Trafficked (fun w op => op.Sound w) w) : Accounted w := by
  induction hw with
  | fresh => exact ⟨rfl, fun _ => rfl⟩
  | step _ op hop ih => exact (queueStep_spec _ op ih hop).1

/-- Exactly once, in order and intact.  In every state that sound steps lead
to, the messages sent are those taken, in the order of the sends, followed by
those in the queue; those a thread took are those delivered to it, but for one
that it holds; and a step with which a call fails changes nothing. -/
theorem queue_exactly_once {w : Traffic Tid} (hw : Trafficked (fun w op => op.Sound w) w) :
    w.sent = w.taken.map Prod.snd ++ views w.queue ∧ (∀ tid, mine tid w.taken =
        mine tid w.delivered ++ ((w.holding tid).map Prod.fst).toList) ∧
      ∀ op : QueueOp Tid, op.Sound w → (queueStep w op).1 = .returns false →
        (queueStep w op).2 = w := by
  have h := hw.accounted
  exact ⟨h.fifo, h.once, fun op hop => (queueStep_spec w op h hop).2⟩

end

def sampleMessage (byte : Byte) : IPCMessage :=
  { id := 7, senderPID := 0, flags := 0, reserved := 0, size := 2, data := fun _ => byte }

/-- Three messages to a queue with two receivers, whose memory takes messages at every address.
The first one has its message, the second one holds one. -/
def sampleTraffic : Traffic Bool :=
  [.remap fun _ _ => true, .send 1 (some (sampleMessage 1)) false,
    .send 2 (some (sampleMessage 2)) false, .receive false 0 false,
    .send 1 (some (sampleMessage 3)) false, .copyOut false, .receive true 64 false].foldl
      (fun w op => (queueStep w op).2) .fresh

theorem queue_exactly_once_sample :
    sampleTraffic.taken.map (fun m => (m.1, m.2.data 1)) = [(false, 1), (true, 2)] ∧
      sampleTraffic.delivered.map (fun m => (m.1, m.2.data 1)) = [(false, 1)] ∧
      sampleTraffic.sent = sampleTraffic.taken.map Prod.snd ++ views sampleTraffic.queue ∧
      ∀ tid, mine tid sampleTraffic.taken =
        mine tid sampleTraffic.delivered ++ ((sampleTraffic.holding tid).map Prod.fst).toList := by
  have hran : Trafficked (fun w op => op.Sound w) sampleTraffic :=
    ((((((Trafficked.fresh.step (.remap _) trivial).step (.send ..) trivial).step (.send ..)
      trivial).step (.receive ..) trivial).step (.send ..) trivial).step (.copyOut false)
      fun _ _ => rfl).step (.receive ..) trivial
  have hall := queue_exactly_once hran
  exact ⟨by decide +kernel, by decide +kernel, hall.1, hall.2.1⟩

/-- A receive with a buffer that cannot be written returns an error and the
message is gone: taken by the receiver, delivered to nobody, held by nobody. -/
theorem failed_receive_loses_message :
    ¬ ∀ w : Traffic Unit, Trafficked (fun _ _ => True) w → ∀ tid, mine tid w.taken =
      mine tid w.delivered ++ ((w.holding tid).map Prod.fst).toList := by
  intro h
  have hstart : Trafficked (fun (_ : Traffic Unit) _ => True) .fresh := .fresh
  have hsent := hstart.step (.send 1 (some (sampleMessage 1)) false) trivial
  have htaken := hsent.step (.receive () 0 false) trivial
  have hfailed := htaken.step (.copyOut ()) trivial
  have hlength := congrArg List.length (h _ hfailed ())
  revert hlength
  decide +kernel

end InstantOS.Ipc
