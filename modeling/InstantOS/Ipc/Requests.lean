import InstantOS.Ipc.QueueRun
import Mathlib.Data.List.FinRange

/-!
# Requests and replies

`sys_queue_request` and `sys_queue_reply` with the pending table of
`IPCManager`.  A client takes a number and a slot of the table, sends its
message with the number and sleeps until its slot is completed; a reply names
the number.  The steps are cut where a call may sleep.

The table is keyed by the number alone, and a slot that is completed can be
completed again: a second reply, or one through another queue, overwrites the
first while the client has not run.  `ExchangeOp.Sound` asks of a reply that the
request is not answered yet and was made on the queue of the reply;
`reply_agreement` is what holds along every run of such steps.
-/

namespace InstantOS.Ipc

open Function List

def maxPendingRequests : Nat := 64

/-- `IPCManager::PendingRequest`. -/
structure PendingRequest where
  used : Bool
  id : Nat
  ownerPID : Nat
  completed : Bool
  responseSize : Nat
  response : Buffer

/-- The response as a list. -/
def PendingRequest.answer (r : PendingRequest) : List Byte :=
  (List.range r.responseSize).map r.response

/-- What a reply writes into the slot. -/
def PendingRequest.complete (r : PendingRequest) (data : Buffer) (size : Nat) : PendingRequest :=
  { r with
    completed := true
    responseSize := size
    response := if size > 0 then memcpy r.response data size else r.response }

abbrev RequestTable := Fin maxPendingRequests → PendingRequest

/-- `beginRequest`; `none` is `false`. -/
def beginRequest (table : RequestTable) (requestID ownerPID : Nat) : Option RequestTable :=
  if requestID = 0 then none
  else
    match (List.finRange maxPendingRequests).find? fun i => !(table i).used with
    | none => none
    | some i =>
      some (update table i
        { used := true, id := requestID, ownerPID := ownerPID, completed := false
          responseSize := 0, response := zeros })

/-- `completeRequest`: the first used slot with the number. -/
def completeRequest (table : RequestTable) (requestID : Nat) (data : Buffer) (size : Nat) :
    Option RequestTable :=
  if requestID = 0 ∨ size > maxPayloadSize then none
  else
    match (List.finRange maxPendingRequests).find? fun i =>
        (table i).used && (table i).id = requestID with
    | none => none
    | some i => some (update table i ((table i).complete data size))

/-- The slot `waitForRequest` looks at. -/
def findRequest (table : RequestTable) (requestID ownerPID : Nat) :
    Option (Fin maxPendingRequests) :=
  (List.finRange maxPendingRequests).find? fun i =>
    (table i).used && (table i).id = requestID && (table i).ownerPID = ownerPID

/-- The part of `cleanupProcess` that is about requests. -/
def cleanupRequests (table : RequestTable) (pid : Nat) : RequestTable := fun i =>
  if (table i).used ∧ (table i).ownerPID = pid then { table i with used := false } else table i

/-- Where a client is: in no request, trying to send its message, or waiting
for the reply. -/
inductive Client (Q : Type)
  | outside
  | submitting (queue : Q) (id : Nat) (request : IPCMessage)
  | waiting (queue : Q) (id : Nat)

/-- The request a client is in. -/
def Client.call {Q : Type} : Client Q → Option (Q × Nat)
  | .outside => none
  | .submitting queue id _ => some (queue, id)
  | .waiting queue id => some (queue, id)

/-- A reply that `completeRequest` accepted. -/
structure Reply (Q : Type) where
  queue : Q
  id : Nat
  data : List Byte
deriving DecidableEq

/-- A response that `sys_queue_request` returned to its caller. -/
structure Response (Q : Type) where
  pid : Nat
  queue : Q
  id : Nat
  data : List Byte
deriving DecidableEq

/-- The pending table, the queues and the clients; `accepted` and `returned`
record the replies that were accepted and the responses that were returned. -/
structure Exchange (Q : Type) where
  requests : RequestTable
  requestCounter : Nat
  queues : Q → MessageQueueObject
  clients : Nat → Client Q
  accepted : List (Reply Q)
  returned : List (Response Q)

/-- `IPCManager` after its constructor. -/
def Exchange.fresh {Q : Type} : Exchange Q :=
  { requests := fun _ => ⟨false, 0, 0, false, 0, zeros⟩, requestCounter := 1
    queues := fun _ => .new, clients := fun _ => .outside, accepted := [], returned := [] }

inductive ExchangeOp (Q : Type)
  /-- `sys_queue_request` up to its first try to send; `none` is a message that
  could not be read. -/
  | request (pid : Nat) (queue : Q) (message : Option IPCMessage)
  /-- A try to send the message. -/
  | submit (pid : Nat)
  /-- A turn of `waitForRequest`, and the return to the caller with a buffer of
  `capacity` bytes. -/
  | await (pid : Nat) (capacity : Nat) (writable : Bool)
  /-- `sys_queue_reply` through a handle of `queue`; `none` is data that could
  not be read. -/
  | reply (queue : Q) (id : Nat) (data : Option Buffer) (size : Nat)
  /-- The process is torn down. -/
  | exit (pid : Nat)
  /-- Other calls send and receive. -/
  | traffic (queues : Q → MessageQueueObject)

section

variable {Q : Type}

def startRequest (w : Exchange Q) (pid : Nat) (queue : Q) (message : Option IPCMessage) :
    Outcome × Exchange Q :=
  match w.clients pid, message with
  | .outside, some message =>
    if message.size > maxPayloadSize then (.returns false, w)
    else
      let id := w.requestCounter
      let w := { w with requestCounter := (w.requestCounter + 1) % 2 ^ 64 }
      match beginRequest w.requests id pid with
      | none => (.returns false, w)
      | some table =>
        (.running,
          { w with
            requests := table
            clients := update w.clients pid (.submitting queue id message) })
  | .outside, none => (.returns false, w)
  | _, _ => (.running, w)

def submitRequest [DecidableEq Q] (w : Exchange Q) (pid : Nat) : Outcome × Exchange Q :=
  match w.clients pid with
  | .submitting queue id message =>
    let header := requestHeader (BitVec.ofNat 32 pid) (BitVec.ofNat 64 id) message
    let result := enqueue (w.queues queue) header (some message.data)
    if result.1 then
      (.running,
        { w with
          queues := update w.queues queue result.2
          clients := update w.clients pid (.waiting queue id) })
    else (.sleeps, w)
  | _ => (.running, w)

def awaitReply (w : Exchange Q) (pid capacity : Nat) (writable : Bool) : Outcome × Exchange Q :=
  match w.clients pid with
  | .waiting queue id =>
    match findRequest w.requests id pid with
    | none =>
      (.returns false, { w with clients := update w.clients pid .outside })
    | some i =>
      let slot := w.requests i
      if slot.completed then
        let w' := { w with
          requests := update w.requests i { slot with used := false }
          clients := update w.clients pid .outside }
        if slot.responseSize ≤ capacity ∧ writable then
          (.returns true,
            { w' with returned := w.returned ++ [⟨pid, queue, id, slot.answer⟩] })
        else (.returns false, w')
      else (.sleeps, w)
  | _ => (.running, w)

def replyTo (w : Exchange Q) (queue : Q) (id : Nat) (data : Option Buffer) (size : Nat) :
    Outcome × Exchange Q :=
  if size > maxPayloadSize then (.returns false, w)
  else
    -- Nothing is read for an empty reply, so it cannot fail there.
    match (if size = 0 then some zeros else data) with
    | none => (.returns false, w)
    | some data =>
      match completeRequest w.requests id data size with
      | none => (.returns false, w)
      | some table =>
        (.returns true,
          { w with
            requests := table
            accepted := w.accepted ++ [⟨queue, id, (List.range size).map data⟩] })

def exchangeStep [DecidableEq Q] (w : Exchange Q) : ExchangeOp Q → Outcome × Exchange Q
  | .request pid queue message => startRequest w pid queue message
  | .submit pid => submitRequest w pid
  | .await pid capacity writable => awaitReply w pid capacity writable
  | .reply queue id data size => replyTo w queue id data size
  | .exit pid =>
    (.running,
      { w with
        requests := cleanupRequests w.requests pid
        clients := update w.clients pid .outside })
  | .traffic queues => (.running, { w with queues := queues })

/-- The steps that keep to one reply for a request: the numbers do not wrap
around, and a reply meets a request that is not answered and was made on the
queue of the reply. -/
def ExchangeOp.Sound (w : Exchange Q) : ExchangeOp Q → Prop
  | .request _ _ _ => w.requestCounter + 1 < 2 ^ 64
  | .reply queue id _ _ => ∀ i, (w.requests i).used = true → (w.requests i).id = id →
      (w.requests i).completed = false ∧ (w.clients (w.requests i).ownerPID).call = some (queue, id)
  | _ => True

/-- The states that steps with `ok` lead to. -/
inductive Exchanged [DecidableEq Q] (ok : Exchange Q → ExchangeOp Q → Prop) : Exchange Q → Prop
  | fresh : Exchanged ok .fresh
  | step {w : Exchange Q} (hw : Exchanged ok w) (op : ExchangeOp Q) (hop : ok w op) :
      Exchanged ok (exchangeStep w op).2

/-- The accepted replies with a number. -/
def repliesTo (w : Exchange Q) (id : Nat) : List (Reply Q) :=
  w.accepted.filter fun r => r.id = id

/-! ## The table -/

variable {table : RequestTable} {w : Exchange Q}

theorem beginRequest_some {table' : RequestTable} {id pid : Nat}
    (h : beginRequest table id pid = some table') :
    id ≠ 0 ∧ ∃ i, (table i).used = false ∧ table' = update table i
      { used := true, id := id, ownerPID := pid, completed := false
        responseSize := 0, response := zeros } := by
  unfold beginRequest at h
  split at h
  · cases h
  rename_i hid
  split at h
  · cases h
  · rename_i i hfind
    cases h
    exact ⟨hid, i, by simpa using find?_some hfind, rfl⟩

theorem completeRequest_some {table' : RequestTable} {id size : Nat} {data : Buffer}
    (h : completeRequest table id data size = some table') :
    ∃ i, (table i).used ∧ (table i).id = id ∧
      table' = update table i ((table i).complete data size) := by
  unfold completeRequest at h
  split at h
  · cases h
  split at h
  · cases h
  rename_i i hfind
  cases h
  have hfound := find?_some hfind
  simp only [Bool.and_eq_true, decide_eq_true_eq] at hfound
  exact ⟨i, hfound.1, hfound.2, rfl⟩

/-- A number that no used slot has cannot be replied to. -/
theorem completeRequest_none {id : Nat}
    (h : ∀ i, (table i).used → (table i).id ≠ id) (data : Buffer) (size : Nat) :
    completeRequest table id data size = none := by
  cases hresult : completeRequest table id data size with
  | none => rfl
  | some table' =>
    obtain ⟨i, hused, hid, -⟩ := completeRequest_some hresult
    exact absurd hid (h i hused)

theorem findRequest_some {id pid : Nat} {i : Fin maxPendingRequests}
    (h : findRequest table id pid = some i) :
    (table i).used ∧ (table i).id = id ∧ (table i).ownerPID = pid := by
  have hfound := find?_some h
  simp only [Bool.and_eq_true, decide_eq_true_eq] at hfound
  exact ⟨hfound.1.1, hfound.1.2, hfound.2⟩

theorem findRequest_none {id pid : Nat}
    (h : findRequest table id pid = none) (i : Fin maxPendingRequests) :
    ¬ ((table i).used ∧ (table i).id = id ∧ (table i).ownerPID = pid) := by
  have hall := find?_eq_none.mp h i (mem_finRange i)
  simpa using hall

/-- The answer of a slot that was just completed is the data of the reply. -/
theorem answer_complete (slot : PendingRequest) (data : Buffer) (size : Nat) :
    (slot.complete data size).answer = (List.range size).map data := by
  refine map_congr_left fun i hi => ?_
  have hlt : i < size := mem_range.mp hi
  have hpos : size > 0 := by omega
  simp [PendingRequest.complete, hpos, memcpy, hlt]

/-- A completed slot is used, numbered and owned as before. -/
theorem complete_fields (table : RequestTable) (i : Fin maxPendingRequests) (data : Buffer)
    (size : Nat) (k : Fin maxPendingRequests) :
    (update table i ((table i).complete data size) k).used = (table k).used ∧
      (update table i ((table i).complete data size) k).id = (table k).id ∧
      (update table i ((table i).complete data size) k).ownerPID = (table k).ownerPID := by
  by_cases h : k = i
  · subst h
    rw [update_self]
    exact ⟨rfl, rfl, rfl⟩
  · rw [update_of_ne h]
    exact ⟨rfl, rfl, rfl⟩

/-! ## The invariant -/

/-- A used slot: its owner is in the request of that number, and the accepted
replies with the number are none before the slot is completed, and the one in
the slot afterwards, made through the queue of the request. -/
structure SlotSound (w : Exchange Q) (s : PendingRequest) : Prop where
  numbered : s.id < w.requestCounter
  replies : ∃ q, (w.clients s.ownerPID).call = some (q, s.id) ∧
    repliesTo w s.id = if s.completed then [⟨q, s.id, s.answer⟩] else []

theorem SlotSound.transfer {w' : Exchange Q} {s : PendingRequest} (h : SlotSound w s)
    (hcounter : w.requestCounter ≤ w'.requestCounter)
    (hcall : (w'.clients s.ownerPID).call = (w.clients s.ownerPID).call)
    (hreplies : repliesTo w' s.id = repliesTo w s.id) : SlotSound w' s :=
  ⟨h.numbered.trans_le hcounter, by rw [hcall, hreplies]; exact h.replies⟩

/-- Table, clients and records agree. -/
structure Consistent (w : Exchange Q) : Prop where
  sound : ∀ i, (w.requests i).used = true → SlotSound w (w.requests i)
  unique : ∀ i j, (w.requests i).used = true → (w.requests j).used = true →
    (w.requests i).id = (w.requests j).id → i = j
  /-- A client in a request has a slot. -/
  slot : ∀ pid q id, (w.clients pid).call = some (q, id) →
    ∃ i, (w.requests i).used = true ∧ (w.requests i).id = id ∧ (w.requests i).ownerPID = pid
  recent : ∀ r ∈ w.accepted, r.id < w.requestCounter
  closed : ∀ r ∈ w.returned, r.id < w.requestCounter ∧
    (∀ i, (w.requests i).used = true → (w.requests i).id ≠ r.id) ∧
    repliesTo w r.id = [⟨r.queue, r.id, r.data⟩]

theorem consistent_fresh : Consistent (.fresh : Exchange Q) where
  sound _ h := by cases h
  unique _ _ h := by cases h
  slot _ _ _ h := by cases h
  recent _ h := by cases h
  closed _ h := by cases h

/-- Steps that only move a client inside its request, or only raise the
counter. -/
theorem Consistent.congr (h : Consistent w) {counter : Nat} {queues : Q → MessageQueueObject}
    {clients : Nat → Client Q} (hcounter : w.requestCounter ≤ counter)
    (hcalls : ∀ pid, (clients pid).call = (w.clients pid).call) :
    Consistent { w with requestCounter := counter, queues, clients } :=
  { h with
    sound := fun i hused => (h.sound i hused).transfer hcounter (hcalls _) rfl
    slot := fun pid q id hcall => h.slot pid q id ((hcalls pid).symm.trans hcall)
    recent := fun r hr => (h.recent r hr).trans_le hcounter
    closed := fun r hr => by
      obtain ⟨hid, hrest⟩ := h.closed r hr
      exact ⟨hid.trans_le hcounter, hrest⟩ }

theorem call_update {clients : Nat → Client Q} {pid : Nat} {client : Client Q}
    (h : client.call = (clients pid).call) (pid' : Nat) :
    (update clients pid client pid').call = (clients pid').call := by
  rw [apply_update fun _ => Client.call, h, update_eq_self]

namespace Consistent

/-- A number that was not given out has no reply. -/
theorem fresh_number (h : Consistent w) : repliesTo w w.requestCounter = [] := by
  rw [repliesTo, filter_eq_nil_iff]
  intro r hr
  have := h.recent r hr
  simp only [decide_eq_true_eq]
  omega

/-- The slots of one client are one slot: that of its request. -/
theorem owner_eq (h : Consistent w) {pid id : Nat} {q : Q}
    (hcall : (w.clients pid).call = some (q, id)) {i j : Fin maxPendingRequests}
    (hi : (w.requests i).used) (hid : (w.requests i).id = id)
    (hj : (w.requests j).used) (howner : (w.requests j).ownerPID = pid) : j = i := by
  obtain ⟨q', hcall', -⟩ := (h.sound j hj).replies
  rw [howner, hcall] at hcall'
  cases hcall'
  exact h.unique j i hj hi hid.symm

/-! ## One step -/

theorem start (h : Consistent w) (pid : Nat) (queue : Q)
    (message : Option IPCMessage) (hcounter : w.requestCounter + 1 < 2 ^ 64) :
    Consistent (startRequest w pid queue message).2 := by
  unfold startRequest
  split
  · rename_i message houtside
    split
    · exact h
    have hnext : (w.requestCounter + 1) % 2 ^ 64 = w.requestCounter + 1 := Nat.mod_eq_of_lt hcounter
    dsimp only
    rw [hnext]
    split
    · exact h.congr (Nat.le_succ _) fun _ => rfl
    rename_i table hbegin
    obtain ⟨-, i, hunused, rfl⟩ := beginRequest_some hbegin
    -- The old slots are those of other clients.
    have hother : ∀ j, (w.requests j).used → (w.requests j).ownerPID ≠ pid := by
      intro j hused howner
      obtain ⟨q, hcall, -⟩ := (h.sound j hused).replies
      rw [howner, houtside] at hcall
      cases hcall
    refine ⟨?_, ?_, ?_, fun r hr => (h.recent r hr).trans (Nat.lt_succ_self _), ?_⟩
    · refine (forall_update_iff w.requests fun _ s => s.used → SlotSound _ s).mpr
        ⟨fun _ => ⟨Nat.lt_succ_self _, queue, ?_, h.fresh_number⟩, fun j _ hused => ?_⟩
      · dsimp only
        rw [update_self]
        rfl
      · refine (h.sound j hused).transfer (Nat.le_succ _) ?_ rfl
        dsimp only
        rw [update_of_ne (hother j hused)]
    · intro j k hj hk hjk
      dsimp only at hj hk hjk
      by_cases hji : j = i <;> by_cases hki : k = i
      · rw [hji, hki]
      · rw [hji, update_self, update_of_ne hki] at hjk
        rw [update_of_ne hki] at hk
        exact absurd hjk (h.sound k hk).numbered.ne'
      · rw [hki, update_self, update_of_ne hji] at hjk
        rw [update_of_ne hji] at hj
        exact absurd hjk (h.sound j hj).numbered.ne
      · rw [update_of_ne hji] at hj hjk
        rw [update_of_ne hki] at hk hjk
        exact h.unique j k hj hk hjk
    · intro pid' q id hcall
      dsimp only at hcall ⊢
      by_cases hpid : pid' = pid
      · subst hpid
        rw [update_self] at hcall
        cases hcall
        exact ⟨i, by rw [update_self]; exact ⟨rfl, rfl, rfl⟩⟩
      · rw [update_of_ne hpid] at hcall
        obtain ⟨j, hused, hj, howner⟩ := h.slot pid' q id hcall
        have hji : j ≠ i := by
          rintro rfl
          rw [hunused] at hused
          cases hused
        exact ⟨j, by rw [update_of_ne hji]; exact ⟨hused, hj, howner⟩⟩
    · intro r hr
      obtain ⟨hid, hslots, hone⟩ := h.closed r hr
      exact ⟨hid.trans (Nat.lt_succ_self _),
        (forall_update_iff w.requests fun _ s => s.used → s.id ≠ r.id).mpr
          ⟨fun _ => hid.ne', fun j _ => hslots j⟩, hone⟩
  · exact h
  · exact h

theorem submit [DecidableEq Q] (h : Consistent w) (pid : Nat) :
    Consistent (submitRequest w pid).2 := by
  unfold submitRequest
  split
  · rename_i queue id message hclient
    dsimp only
    split
    · exact h.congr le_rfl (call_update (by rw [hclient]; rfl))
    · exact h
  · exact h

/-- The slots of a table from which the slots of one client were removed. -/
theorem leave (h : Consistent w) {pid : Nat}
    (hkept : ∀ i, (table i).used → table i = w.requests i ∧ (w.requests i).ownerPID ≠ pid)
    (hleft : ∀ i, (w.requests i).used → (w.requests i).ownerPID ≠ pid → table i = w.requests i) :
    Consistent { w with requests := table, clients := update w.clients pid .outside } := by
  refine ⟨fun i hused => ?_, fun i j hi hj hij => ?_, fun pid' q id hcall => ?_, h.recent,
    fun r hr => ?_⟩
  · obtain ⟨hsame, howner⟩ := hkept i hused
    dsimp only at hused ⊢
    rw [hsame] at hused ⊢
    refine (h.sound i hused).transfer le_rfl ?_ rfl
    dsimp only
    rw [update_of_ne howner]
  · have hsame := (hkept i hi).1
    have hsame' := (hkept j hj).1
    dsimp only at hi hj hij
    rw [hsame] at hi hij
    rw [hsame'] at hj hij
    exact h.unique i j hi hj hij
  · dsimp only at hcall ⊢
    by_cases hpid : pid' = pid
    · rw [hpid, update_self] at hcall
      cases hcall
    · rw [update_of_ne hpid] at hcall
      obtain ⟨i, hused, hid, howner⟩ := h.slot pid' q id hcall
      exact ⟨i, by rw [hleft i hused (howner ▸ hpid)]; exact ⟨hused, hid, howner⟩⟩
  · obtain ⟨hid, hslots, hone⟩ := h.closed r hr
    refine ⟨hid, fun i hused => ?_, hone⟩
    have hsame := (hkept i hused).1
    dsimp only at hused ⊢
    rw [hsame] at hused ⊢
    exact hslots i hused

theorem exit (h : Consistent w) (pid : Nat) : Consistent { w with
      requests := cleanupRequests w.requests pid
      clients := update w.clients pid .outside } := by
  refine h.leave (fun i hused => ?_) fun i _ howner => if_neg fun hi => howner hi.2
  unfold cleanupRequests at hused ⊢
  split at hused
  · cases hused
  · rename_i hkeep
    rw [if_neg hkeep]
    exact ⟨rfl, fun howner => hkeep ⟨hused, howner⟩⟩

theorem await (h : Consistent w) (pid capacity : Nat)
    (writable : Bool) : Consistent (awaitReply w pid capacity writable).2 := by
  unfold awaitReply
  split
  · rename_i queue id hclient
    have hcall : (w.clients pid).call = some (queue, id) := by rw [hclient]; rfl
    split
    · rename_i hfind
      obtain ⟨i, hi⟩ := h.slot pid queue id hcall
      exact absurd hi (findRequest_none hfind i)
    rename_i i hfind
    obtain ⟨hused, hid, howner⟩ := findRequest_some hfind
    dsimp only
    split
    · rename_i hcompleted
      have hleft : Consistent { w with
          requests := update w.requests i { w.requests i with used := false }
          clients := update w.clients pid .outside } := by
        refine h.leave (fun j hj => ?_) fun j _ hj => update_of_ne ?_ _ _
        · by_cases hji : j = i
          · rw [hji, update_self] at hj
            cases hj
          · rw [update_of_ne hji] at hj ⊢
            exact ⟨rfl, fun howner' => hji (h.owner_eq hcall hused hid hj howner')⟩
        · rintro rfl
          exact hj howner
      split
      · refine ⟨fun j hj => (hleft.sound j hj).transfer le_rfl rfl rfl, hleft.unique, hleft.slot,
          hleft.recent, fun r hr => ?_⟩
        rcases mem_append.mp hr with hr | hr
        · exact hleft.closed r hr
        rw [mem_singleton] at hr
        subst hr
        obtain ⟨hnumbered, q, hcall', hone⟩ := h.sound i hused
        rw [howner, hcall] at hcall'
        cases hcall'
        rw [if_pos hcompleted] at hone
        refine ⟨hid ▸ hnumbered, fun j hj heq => ?_, hone⟩
        dsimp only at hj heq
        by_cases hji : j = i
        · rw [hji, update_self] at hj
          cases hj
        · rw [update_of_ne hji] at hj heq
          exact hji (h.unique j i hj hused (heq.trans hid.symm))
      · exact hleft
    · exact h
  · exact h

end Consistent

theorem repliesTo_append (w : Exchange Q) (reply : Reply Q) (table : RequestTable) (id : Nat) :
    repliesTo { w with requests := table, accepted := w.accepted ++ [reply] } id =
      repliesTo w id ++ if reply.id = id then [reply] else [] := by
  by_cases h : reply.id = id <;> simp [repliesTo, h]

theorem Consistent.reply (h : Consistent w) {queue : Q} {id : Nat}
    {data : Option Buffer} {size : Nat} (hsound : (ExchangeOp.reply queue id data size).Sound w) :
    Consistent (replyTo w queue id data size).2 := by
  unfold replyTo
  split
  · exact h
  split
  · exact h
  split
  · exact h
  rename_i table hcomplete
  obtain ⟨i, hused, rfl, rfl⟩ := completeRequest_some hcomplete
  obtain ⟨hopen, hcall⟩ := hsound i hused rfl
  obtain ⟨hnumbered, q, hcall', hnone⟩ := h.sound i hused
  rw [hopen] at hnone
  -- Other requests have other numbers, so their replies stay as they are.
  have hother : ∀ j, j ≠ i → (w.requests j).used → (w.requests i).id ≠ (w.requests j).id :=
    fun j hji hj heq => hji (h.unique j i hj hused heq.symm)
  refine ⟨?_, ?_, ?_, ?_, ?_⟩
  · refine (forall_update_iff w.requests fun _ s => s.used → SlotSound _ s).mpr
      ⟨fun _ => ⟨hnumbered, queue, ?_, ?_⟩, fun j hji hj => ?_⟩
    · exact hcall
    · change repliesTo _ (w.requests i).id = _
      rw [repliesTo_append, hnone, answer_complete, if_pos rfl]
      rfl
    · refine (h.sound j hj).transfer le_rfl rfl ?_
      rw [repliesTo_append, if_neg (hother j hji hj), append_nil]
  · simpa only [complete_fields] using h.unique
  · simpa only [complete_fields] using h.slot
  · intro r hr
    rcases mem_append.mp hr with hr | hr
    · exact h.recent r hr
    · rw [mem_singleton] at hr
      rw [hr]
      exact hnumbered
  · intro r hr
    obtain ⟨hnumber, hslots, hone⟩ := h.closed r hr
    refine ⟨hnumber, by simpa only [complete_fields] using hslots, ?_⟩
    rw [repliesTo_append, if_neg (hslots i hused), append_nil, hone]

theorem Consistent.step [DecidableEq Q] (h : Consistent w) {op : ExchangeOp Q}
    (hop : op.Sound w) : Consistent (exchangeStep w op).2 := by
  cases op with
  | request pid queue message => exact h.start pid queue message hop
  | submit pid => exact h.submit pid
  | await pid capacity writable => exact h.await pid capacity writable
  | reply queue id data size => exact h.reply hop
  | exit pid => exact h.exit pid
  | traffic queues => exact h.congr le_rfl fun _ => rfl

/-! ## Every run -/

theorem Exchanged.consistent [DecidableEq Q]
    (hw : Exchanged (fun w op => op.Sound w) w) : Consistent w := by
  induction hw with
  | fresh => exact consistent_fresh
  | step _ op hop ih => exact ih.step hop

/-- Request and reply agree.  In every state that sound steps lead to, each
response returned on a queue is the data of the one accepted reply with the
number of its request, which came through that queue; a further reply with
that number, through whatever queue, fails and changes nothing; and a client in
a request has one slot, which has its number, and the slots in use have
different numbers. -/
theorem reply_agreement [DecidableEq Q] {w : Exchange Q}
    (hw : Exchanged (fun w op => op.Sound w) w) :
    (∀ r ∈ w.returned, repliesTo w r.id = [⟨r.queue, r.id, r.data⟩] ∧
      ∀ queue data size, exchangeStep w (.reply queue r.id data size) = (.returns false, w)) ∧
    (∀ pid queue id, (w.clients pid).call = some (queue, id) →
      ∃ i, ∀ j, j = i ↔ (w.requests j).used = true ∧ (w.requests j).id = id) ∧
    (∀ i j, (w.requests i).used = true → (w.requests j).used = true →
      (w.requests i).id = (w.requests j).id → i = j) := by
  have h := hw.consistent
  refine ⟨fun r hr => ?_, fun pid queue id hcall => ?_, h.unique⟩
  · obtain ⟨-, hslots, hone⟩ := h.closed r hr
    refine ⟨hone, fun queue data size => ?_⟩
    simp only [exchangeStep, replyTo, completeRequest_none hslots]
    split
    · rfl
    · split <;> rfl
  · obtain ⟨i, hused, hid, -⟩ := h.slot pid queue id hcall
    refine ⟨i, fun j => ⟨?_, fun hj => h.unique j i hj.1 hused (hj.2.trans hid.symm)⟩⟩
    rintro rfl
    exact ⟨hused, hid⟩

end

/-! One client, two queues. -/

/-- A reply of one byte. -/
def sampleByte (b : Byte) : Buffer := fun _ => b

/-- The client sends its request on the first queue. -/
def sampleAsked : Exchange Bool :=
  let begun := (exchangeStep .fresh (.request 1 true (some (sampleMessage 1)))).2
  (exchangeStep begun (.submit 1)).2

theorem sampleAsked_exchanged {ok : Exchange Bool → ExchangeOp Bool → Prop}
    (hrequest : ok .fresh (.request 1 true (some (sampleMessage 1))))
    (hsubmit : ok (exchangeStep .fresh (.request 1 true (some (sampleMessage 1)))).2 (.submit 1)) :
    Exchanged ok sampleAsked :=
  (Exchanged.fresh.step _ hrequest).step _ hsubmit

/-- The request is answered through its queue, and the client returns. -/
def sampleAnswered : Exchange Bool :=
  let replied := (exchangeStep sampleAsked (.reply true 1 (some (sampleByte 7)) 1)).2
  (exchangeStep replied (.await 1 8 true)).2

theorem reply_agreement_sample : repliesTo sampleAnswered 1 = [⟨true, 1, [7]⟩] := by
  have hasked : Exchanged (fun w op => op.Sound w) sampleAsked :=
    sampleAsked_exchanged (show 1 + 1 < 2 ^ 64 by decide) trivial
  have hsound : (ExchangeOp.reply true 1 (some (sampleByte 7)) 1).Sound sampleAsked := by
    intro i hused _
    revert i
    decide +kernel
  have hreplied := hasked.step _ hsound
  have hanswered : Exchanged (fun w op => op.Sound w) sampleAnswered :=
    hreplied.step (.await 1 8 true) trivial
  exact ((reply_agreement hanswered).1 ⟨1, true, 1, [7]⟩ (by decide +kernel)).1

/-- A second reply, through the other queue, is accepted before the client
runs, and it is the second one that the client returns. -/
theorem second_reply_wins : ¬ ∀ w : Exchange Bool, Exchanged (fun _ _ => True) w → ∀ r ∈ w.returned,
      repliesTo w r.id = [⟨r.queue, r.id, r.data⟩] := by
  intro h
  have hasked : Exchanged (fun _ _ => True) sampleAsked := sampleAsked_exchanged trivial trivial
  have hfirst := hasked.step (.reply true 1 (some (sampleByte 7)) 1) trivial
  have hsecond := hfirst.step (.reply false 1 (some (sampleByte 8)) 1) trivial
  have hreturned := hsecond.step (.await 1 8 true) trivial
  have hall := h _ hreturned
  revert hall
  decide +kernel

end InstantOS.Ipc
