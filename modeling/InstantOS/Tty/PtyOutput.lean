import InstantOS.Tty.PtyInput

/-!
# Output through the pseudo terminal

`slaveWrite` and `masterRead`, with any number of writers at once.  A writer
gives up the processor only where it sleeps; here each turn processes one byte,
so that the interleavings of the code are among those of turns.
-/

namespace InstantOS.Tty

open Function

/-! ## The calls -/

/-- What stands for `c` on the master side. -/
def outputForm (t : KernelTermios) (c : Byte) : List Byte :=
  if flagSet t.c_oflag opost && (c = newline && flagSet t.c_oflag onlcr) then
    [carriageReturn, newline]
  else if flagSet t.c_oflag opost && (c = carriageReturn && flagSet t.c_oflag ocrnl) then [newline]
  else [c]

theorem outputProcessChar_eq (t : KernelTermios) (out : PtyRing) (c : Byte) :
    outputProcessChar t out c = ringPushAll out (outputForm t c) := by
  unfold outputProcessChar outputForm
  split_ifs
  · rfl
  · rfl
  · rfl

/-- One round of the loop of `slaveWrite`. -/
inductive Turn
  | returns (n : Nat)
  | blocks
  | writes (c : Byte) (p : PtyDevice)

def slaveWriteTurn (p : PtyDevice) (data : List Byte) (i : Nat) : Turn :=
  match data[i]? with
  | none => .returns data.length
  | some c =>
    if kPtyBufferSize ≤ p.outputRing.size then
      if !p.masterOpen then .returns i else .blocks
    else .writes c { p with outputRing := outputProcessChar p.termios p.outputRing c }

/-- What a writer returns when a signal ends its sleep. -/
def interrupted (i : Nat) : Int := if 0 < i then i else -1

/-- `masterRead`; on an empty ring it sleeps or returns without data. -/
def masterRead (p : PtyDevice) (size : Nat) : List Byte × PtyDevice :=
  let popped := ringPop size p.outputRing
  (popped.1, { p with outputRing := popped.2 })

/-! ## Runs -/

structure Writer where
  data : List Byte
  done : Nat
  result : Option Int

/-- The one fill level at which the loop goes on and the two bytes do not fit. -/
def losesNewline (t : KernelTermios) (out : PtyRing) (c : Byte) : Bool :=
  out.size + 1 = kPtyBufferSize && (outputForm t c).length = 2

/-- The device with its calls so far.  `log` has the bytes processed, each with
its writer; `yielded` is what the master has read. -/
structure Output where
  device : PtyDevice
  writers : Nat → Option Writer
  log : List (Nat × Byte)
  yielded : List Byte
  lost : Nat

namespace Output

def put (s : Output) (k : Nat) (w : Writer) : Output :=
  { s with writers := update s.writers k (some w) }

/-- Writer `k` had `c` processed, which left the device `p`. -/
def wrote (s : Output) (k : Nat) (w : Writer) (c : Byte) (p : PtyDevice) : Output where
  device := p
  writers := update s.writers k (some { w with done := w.done + 1 })
  log := s.log ++ [(k, c)]
  yielded := s.yielded
  lost := s.lost + (losesNewline s.device.termios s.device.outputRing c).toNat

def turn (s : Output) (k : Nat) (w : Writer) : Output :=
  match slaveWriteTurn s.device w.data w.done with
  | .blocks => s
  | .returns n => s.put k { w with result := some n }
  | .writes c p => s.wrote k w c p

/-- Every interleaving of calls on the device `p`. -/
inductive Reached (p : PtyDevice) : Output → Prop
  | start : Reached p ⟨p, fun _ => none, [], [], 0⟩
  | call {s : Output} (h : Reached p s) (k : Nat) (data : List Byte) (hk : s.writers k = none) :
      Reached p (s.put k ⟨data, 0, none⟩)
  | turn {s : Output} (h : Reached p s) (k : Nat) (w : Writer) (hw : s.writers k = some w)
      (hr : w.result = none) : Reached p (s.turn k w)
  | interrupt {s : Output} (h : Reached p s) (k : Nat) (w : Writer) (hw : s.writers k = some w)
      (hr : w.result = none) (hb : slaveWriteTurn s.device w.data w.done = .blocks) :
      Reached p (s.put k { w with result := some (interrupted w.done) })
  | read {s : Output} (h : Reached p s) (size : Nat) :
      Reached p { s with
        device := (masterRead s.device size).2
        yielded := s.yielded ++ (masterRead s.device size).1 }

variable {p : PtyDevice} {s : Output} {k : Nat} {w : Writer}

/-- The bytes that writer `k` has had processed. -/
def logged (s : Output) (k : Nat) : List Byte := (s.log.filter (·.1 = k)).map (·.2)

/-- The processed form of all bytes, in the order of processing. -/
def written (s : Output) (t : KernelTermios) : List Byte := s.log.flatMap fun e => outputForm t e.2

/-- What the master has read and can still read. -/
def readable (s : Output) : List Byte := s.yielded ++ s.device.outputRing.bytes

/-- A call that has not been made has written nothing; a writer counts what it has had
processed. -/
def Accounts (bytes : List Byte) : Option Writer → Prop
  | none => bytes = []
  | some w => bytes = w.data.take w.done ∧ w.done ≤ w.data.length ∧
      ∀ n, w.result = some n → n.toNat = w.done

/-- The stream as far as it can be known: its length, and all of it if nothing was lost. -/
structure Traced (p : PtyDevice) (s : Output) : Prop where
  termios : s.device.termios = p.termios
  length : s.readable.length + s.lost = p.outputRing.size + (s.written p.termios).length
  stream : s.lost = 0 → s.readable = p.outputRing.bytes ++ s.written p.termios
  accounts : ∀ k, Accounts (s.logged k) (s.writers k)

/-- What does not fit is counted as lost. -/
theorem take_outputForm {out : PtyRing} (hroom : out.size < kPtyBufferSize) (t : KernelTermios)
    (c : Byte) : ((outputForm t c).take (kPtyBufferSize - out.size)).length +
      (losesNewline t out c).toNat = (outputForm t c).length := by
  have hlen : (outputForm t c).length = 1 ∨ (outputForm t c).length = 2 := by
    unfold outputForm
    split_ifs
    · exact .inr rfl
    · exact .inl rfl
    · exact .inl rfl
  rw [List.length_take]
  cases hl : losesNewline t out c with
  | false =>
    simp only [losesNewline, Bool.and_eq_false_iff, decide_eq_false_iff_not] at hl
    simp only [Bool.toNat_false]
    omega
  | true =>
    simp only [losesNewline, Bool.and_eq_true, decide_eq_true_eq] at hl
    simp only [Bool.toNat_true]
    omega

namespace Traced

section

variable (h : Traced p s) (hw : Accounts (s.logged k) (some w))

include h hw

/-- A writer changes its own record only. -/
theorem put : Traced p (s.put k w) :=
  ⟨h.termios, h.length, h.stream,
    (forall_update_iff s.writers fun k' o => Accounts (s.logged k') o).mpr
      ⟨hw, fun k' _ => h.accounts k'⟩⟩

/-- A byte is processed: the log and the ring grow by it. -/
theorem writes (hr : w.result = none) {c : Byte} (hc : w.data[w.done]? = some c)
    (hroom : s.device.outputRing.size < kPtyBufferSize) : Traced p (s.wrote k w c { s.device with
      outputRing := outputProcessChar s.device.termios s.device.outputRing c }) := by
  rw [wrote, h.termios, outputProcessChar_eq]
  have htake := take_outputForm hroom p.termios c
  have hbytes := bytes_ringPushAll_take (outputForm p.termios c) s.device.outputRing
  refine ⟨h.termios, ?_, fun hlost => ?_, ?_⟩
  · have hlength := h.length
    simp only [readable, written, hbytes, List.length_append, List.flatMap_append,
      List.flatMap_singleton] at hlength htake ⊢
    omega
  · obtain ⟨hbefore, hnow⟩ := Nat.add_eq_zero_iff.mp hlost
    rw [List.length_take] at htake
    simp only [readable, written, hbytes, List.flatMap_append, List.flatMap_singleton]
    rw [List.take_of_length_le (by omega), ← List.append_assoc, ← List.append_assoc]
    exact congrArg (· ++ _) (h.stream hbefore)
  · refine (forall_update_iff s.writers fun k' o => Accounts _ o).mpr ⟨?_, fun k' hk => ?_⟩
    · refine ⟨?_, (List.getElem?_eq_some_iff.mp hc).1, fun n hn => nomatch hr.symm.trans hn⟩
      rw [List.take_add_one, hc, ← hw.1]
      simp [logged]
    · simpa [logged, hk.symm] using h.accounts k'

theorem turn (hr : w.result = none) : Traced p (s.turn k w) := by
  unfold Output.turn slaveWriteTurn
  cases hc : w.data[w.done]? with
  | none =>
    have hend := List.getElem?_eq_none_iff.mp hc
    refine h.put ⟨hw.1, hw.2.1, ?_⟩
    rintro n ⟨⟩
    exact le_antisymm hend hw.2.1
  | some c =>
    by_cases hfull : kPtyBufferSize ≤ s.device.outputRing.size
    · cases hopen : s.device.masterOpen with
      | false =>
        simp only [hfull]
        refine h.put ⟨hw.1, hw.2.1, ?_⟩
        rintro n ⟨⟩
        rfl
      | true => simpa only [hfull, if_true, Bool.not_true, Bool.false_eq_true, if_false] using h
    · simp only [hfull]
      exact h.writes hw hr hc (by omega)

end

theorem read (h : Traced p s) (size : Nat) : Traced p { s with
      device := (masterRead s.device size).2
      yielded := s.yielded ++ (masterRead s.device size).1 } := by
  obtain ⟨htake, hdrop⟩ := ringPop_spec size s.device.outputRing
  have hsame : (s.yielded ++ (masterRead s.device size).1) ++
      (masterRead s.device size).2.outputRing.bytes = s.readable := by
    simp only [masterRead, htake, hdrop, List.append_assoc, List.take_append_drop, readable]
  exact ⟨h.termios, (congrArg (·.length + s.lost) hsame).trans h.length,
    fun hlost => hsame.trans (h.stream hlost), h.accounts⟩

end Traced

theorem Reached.traced (h : Reached p s) : Traced p s := by
  induction h with
  | start => exact ⟨rfl, by simp [readable, written], fun _ => by simp [readable, written],
      fun _ => rfl⟩
  | call _ k data hk ih =>
    have hnil := ih.accounts k
    rw [hk] at hnil
    exact ih.put ⟨hnil, Nat.zero_le _, nofun⟩
  | turn _ k w hw hr ih => exact ih.turn (hw ▸ ih.accounts k) hr
  | interrupt _ k w hw hr hb ih =>
    have hold : Accounts _ (some w) := hw ▸ ih.accounts k
    refine ih.put ⟨hold.1, hold.2.1, ?_⟩
    rintro n ⟨⟩
    unfold interrupted
    split_ifs
    · rfl
    · exact (Nat.eq_zero_of_not_pos ‹_›).symm
  | read _ size ih => exact ih.read size

/-- What the writers count as written reaches the master in its processed form, in order, exactly
when no newline lost its second byte. -/
theorem output_intact (p : PtyDevice) (s : Output) (h : Reached p s) :
    (s.readable = p.outputRing.bytes ++ s.written p.termios ∧
      ∀ k w n, s.writers k = some w → w.result = some n → s.logged k = w.data.take n.toNat) ↔
    s.lost = 0 := by
  have htraced := h.traced
  constructor
  · rintro ⟨hstream, -⟩
    have hlength := htraced.length
    rw [hstream, List.length_append, bytes_length] at hlength
    omega
  · intro hlost
    refine ⟨htraced.stream hlost, fun k w n hw hn => ?_⟩
    have haccounts := htraced.accounts k
    rw [hw] at haccounts
    rw [haccounts.2.2 n hn]
    exact haccounts.1

/-- A device whose output ring has `free` free slots. -/
def roomFor (free : Nat) : PtyDevice :=
  { PtyDevice.new with
    outputRing := ⟨fun _ => 0, (0 + (kPtyBufferSize - free)) % kPtyBufferSize, 0,
      kPtyBufferSize - free, Nat.sub_le _ _, rfl⟩ }

/-- One newline, written to that device. -/
def newlineWritten (free : Nat) : Output :=
  (Output.turn (put ⟨roomFor free, fun _ => none, [], [], 0⟩ 0 ⟨[newline], 0, none⟩) 0
    ⟨[newline], 0, none⟩).turn 0 ⟨[newline], 1, none⟩

theorem newlineWritten_reached (free : Nat) (hfree : free = 1 ∨ free = 2) :
    Reached (roomFor free) (newlineWritten free) := by
  have hturn : Reached (roomFor free) _ :=
    .turn (.call .start 0 [newline] rfl) 0 ⟨[newline], 0, none⟩ rfl rfl
  refine .turn hturn 0 ⟨[newline], 1, none⟩ ?_ rfl
  rcases hfree with rfl | rfl
  · rfl
  · rfl

theorem output_intact_sample : (newlineWritten 2).readable =
    (roomFor 2).outputRing.bytes ++ [carriageReturn, newline] :=
  ((output_intact _ _ (newlineWritten_reached 2 (.inr rfl))).mpr rfl).1

/-- With one free slot the newline is counted and only its carriage return gets through. -/
theorem newline_lost :
    ¬ ∀ p s, Reached p s → s.readable = p.outputRing.bytes ++ s.written p.termios ∧
      ∀ k w n, s.writers k = some w → w.result = some n → s.logged k = w.data.take n.toNat := by
  intro h
  have hreached := newlineWritten_reached 1 (.inl rfl)
  have hlength := hreached.traced.length
  rw [(h _ _ hreached).1, List.length_append, bytes_length] at hlength
  exact absurd (Nat.add_eq_left.mp hlength) (by decide)

end Output

end InstantOS.Tty
