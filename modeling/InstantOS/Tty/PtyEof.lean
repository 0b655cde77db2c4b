import InstantOS.Tty.PtyCanonical

/-!
# End of file on the slave side

A read of the slave that returns nothing means end of file to its caller.  In
canonical mode it happens when a segment is counted and the ring is empty, so
the counter must never exceed the lines in the ring, but for one end of file
that was typed and waits to be read.

The counter and the ring are changed apart: a raw read takes bytes and leaves
the counter, a commit counts a segment even if its bytes join those of an
unfinished line or find no room.  `TtyCall.Sound` is the condition on a call under
which the bound survives; `no_spurious_eof` is the result for every run of such
calls, and `pollSlave_iff` needs no condition but `VMIN`.
-/

namespace InstantOS.Tty

/-! ## Lines in the ring -/

/-- The number of lines in a list of bytes, an unfinished last one included. -/
def lineCount : List Byte → Nat
  | [] => 0
  | c :: rest => if rest = [] then 1 else (if c = newline then 1 else 0) + lineCount rest

theorem lineCount_pos {bytes : List Byte} (h : bytes ≠ []) : 0 < lineCount bytes := by
  induction bytes with
  | nil => exact absurd rfl h
  | cons c rest ih =>
    unfold lineCount
    split
    · exact Nat.one_pos
    · rename_i hrest
      exact Nat.add_pos_right _ (ih hrest)

theorem lineCount_cons (c : Byte) {rest : List Byte} (h : rest ≠ []) :
    lineCount (c :: rest) = (if c = newline then 1 else 0) + lineCount rest := if_neg h

theorem lineCount_cons_le (c : Byte) (rest : List Byte) :
    lineCount (c :: rest) ≤ lineCount rest + 1 := by
  rw [lineCount]
  split
  · omega
  · split <;> omega

/-- More bytes never make fewer lines. -/
theorem lineCount_append_ge (bytes more : List Byte) :
    lineCount bytes ≤ lineCount (bytes ++ more) := by
  induction bytes with
  | nil => exact Nat.zero_le _
  | cons c rest ih =>
    rw [List.cons_append]
    by_cases hrest : rest = []
    · subst hrest
      exact lineCount_pos (List.cons_ne_nil _ _)
    · have happend : rest ++ more ≠ [] := fun h => hrest (List.append_eq_nil_iff.mp h).1
      rw [lineCount_cons c hrest, lineCount_cons c happend]
      omega

/-- The bytes end with a whole line. -/
def Ended (bytes : List Byte) : Prop := bytes = [] ∨ bytes.getLast? = some newline

/-- Behind a whole line, more bytes are more lines. -/
theorem lineCount_append_ended {bytes more : List Byte} (h : Ended bytes) (hmore : more ≠ []) :
    lineCount bytes + 1 ≤ lineCount (bytes ++ more) := by
  induction bytes with
  | nil => exact lineCount_pos hmore
  | cons c rest ih =>
    have hlast := h.resolve_left (List.cons_ne_nil c rest)
    cases rest with
    | nil =>
      rw [List.getLast?_singleton] at hlast
      cases hlast
      have := lineCount_pos hmore
      simp only [List.cons_append, List.nil_append, lineCount, hmore, if_true, if_false]
      omega
    | cons d rest =>
      have := ih (.inr hlast)
      have happend : d :: rest ++ more ≠ [] := by simp
      rw [List.cons_append, lineCount_cons c happend, lineCount_cons c (List.cons_ne_nil _ _)]
      omega

/-- A read up to the first newline takes one line at most. -/
theorem lineCount_drop_firstLine (bytes : List Byte) (size : Nat) :
    lineCount bytes ≤ lineCount (bytes.drop ((firstLine bytes).take size).length) + 1 := by
  induction bytes generalizing size with
  | nil => simp
  | cons c rest ih =>
    cases size with
    | zero => simp
    | succ size =>
      rw [firstLine]
      split
      · simpa using lineCount_cons_le c rest
      have hrest := ih size
      rw [List.take_succ_cons, List.length_cons, List.drop_succ_cons, lineCount]
      split
      · omega
      · omega

/-! ## The calls -/

inductive TtyCall
  | masterWrite (data : List Byte)
  | slaveRead (size : Nat)
  | wake (place : Nat)
  | setTermios (t : KernelTermios)

/-- A device, the reads that sleep on it, and whether `VEOF` was typed on an
empty line since a read last returned nothing. -/
structure EofWatch where
  device : PtyDevice
  eofEntered : Bool
  asleep : List Reader

def EofWatch.input (s : EofWatch) (c : Byte) : EofWatch :=
  { s with
    device := inputChar s.device c
    eofEntered := s.eofEntered || entersEof s.device c }

/-- A read of at least one byte starts or goes on beside the sleeping `others`. -/
def EofWatch.read (s : EofWatch) (r : Reader) (others : List Reader) : EofWatch :=
  { device := (readAs s.device r).2
    eofEntered := s.eofEntered && !decide ((readAs s.device r).1 = .returned [])
    asleep := if (readAs s.device r).1 = .blocks then r :: others else others }

def EofWatch.step (s : EofWatch) : TtyCall → EofWatch
  | .masterWrite data => data.foldl EofWatch.input s
  | .slaveRead size => if size = 0 then s else s.read (.new s.device size) s.asleep
  | .wake place =>
    match s.asleep[place]? with
    | none => s
    | some r => s.read r (s.asleep.eraseIdx place)
  | .setTermios t => { s with device := setTermios s.device t }

/-- `VMIN` is at least one. -/
def Waits (p : PtyDevice) : Prop := p.termios.c_cc vmin ≠ 0
deriving Decidable

/-- The calls that keep `VMIN` at least one. -/
def TtyCall.KeepsVmin (s : EofWatch) : TtyCall → Prop
  | .setTermios t => Waits (Tty.setTermios s.device t)
  | _ => True

/-- The character keeps the counter within the lines of the ring: an end of
file is typed when none waits, and a segment finds room and either begins a
line of its own or finds more lines than segments before it. -/
def CharSound (p : PtyDevice) (c : Byte) : Prop :=
  ∀ segment, committed p c = some segment →
    if segment = [] then p.canonicalSegments ≤ lineCount p.inputRing.bytes
    else p.inputRing.size + segment.length ≤ kPtyBufferSize ∧
      (Ended p.inputRing.bytes ∨ p.canonicalSegments < lineCount p.inputRing.bytes)

/-- A raw read that takes something leaves as many lines as there are
segments. -/
def Reader.Sound (p : PtyDevice) (r : Reader) : Prop :=
  r.canonical = false → p.inputRing.size ≠ 0 →
    p.canonicalSegments ≤ lineCount (p.inputRing.bytes.drop r.size)

/-- The calls under which the counter stays within the lines of the ring: so
are the characters of a write, and the read that starts or goes on. -/
def TtyCall.Sound (s : EofWatch) : TtyCall → Prop
  | .masterWrite data => AlongInput CharSound s.device data
  | .slaveRead size => (Reader.new s.device size).Sound s.device
  | .wake place => ∀ r, s.asleep[place]? = some r → r.Sound s.device
  | .setTermios t => Waits (Tty.setTermios s.device t)

/-- The states that calls with `ok` lead to. -/
inductive Watched (ok : EofWatch → TtyCall → Prop) (p : PtyDevice) : EofWatch → Prop
  | start : Watched ok p ⟨p, false, []⟩
  | step {s : EofWatch} (hs : Watched ok p s) (call : TtyCall) (hcall : ok s call) :
      Watched ok p (s.step call)

/-- A device with an open master and nothing to read. -/
structure Blank (p : PtyDevice) : Prop where
  masterOpen : p.masterOpen = true
  waits : Waits p
  bytes : p.inputRing.bytes = []
  segments : p.canonicalSegments = 0

/-! ## The bound -/

/-- A read of at least one byte that waits for one. -/
def Reader.Waits (r : Reader) : Prop := r.size ≠ 0 ∧ r.vmin ≠ 0

/-- The segments counted are lines in the ring, but for one end of file. -/
structure Bounded (s : EofWatch) : Prop where
  masterOpen : s.device.masterOpen = true
  waits : Tty.Waits s.device
  asleep : ∀ r ∈ s.asleep, r.Waits
  segments : s.device.canonicalSegments ≤ lineCount s.device.inputRing.bytes + s.eofEntered.toNat

variable {s : EofWatch} {size : Nat} {p : PtyDevice} {r : Reader}

/-- A character that commits nothing takes no line from the ring. -/
theorem inputChar_uncommitted {c : Byte} (hcommitted : committed p c = none) :
    lineCount p.inputRing.bytes ≤ lineCount (inputChar p c).inputRing.bytes ∧
      (inputChar p c).canonicalSegments = p.canonicalSegments := by
  have hentered := inputChar_entered p c
  rw [hcommitted] at hentered
  cases hentered with
  | edit hring hsegments => exact ⟨by rw [hring], hsegments⟩
  | raw c' _ hring hsegments =>
    refine ⟨?_, hsegments⟩
    rw [hring]
    rcases bytes_ringPush_cases p.inputRing c' with hpush | hpush
    · rw [hpush]
      exact lineCount_append_ge _ _
    · rw [hpush]

/-- A line that is committed whole is counted in the ring, or there was one more than segments. -/
theorem lineCount_committed {bytes segment : List Byte} {segments : Nat} (hne : segment ≠ [])
    (hroom : Ended bytes ∨ segments < lineCount bytes) (eof : Nat)
    (hbound : segments ≤ lineCount bytes + eof) :
    segments + 1 ≤ lineCount (bytes ++ segment) + eof := by
  rcases hroom with hended | hslack
  · have := lineCount_append_ended hended hne
    omega
  · have := lineCount_append_ge bytes segment
    omega

theorem Bounded.input (h : Bounded s) {c : Byte} (hc : CharSound s.device c) :
    Bounded (s.input c) := by
  obtain ⟨htermios, hcount⟩ := inputChar_frame s.device c
  refine ⟨?_, ?_, h.asleep, ?_⟩
  · have := h.masterOpen
    simpa only [EofWatch.input, PtyDevice.masterOpen, hcount] using this
  · rw [Waits, EofWatch.input, htermios]
    exact h.waits
  · have hbound := h.segments
    have hflag : s.eofEntered.toNat ≤ (s.input c).eofEntered.toNat := by
      rw [EofWatch.input]
      cases s.eofEntered <;> simp
    cases hcommitted : committed s.device c with
    | none =>
      have hbytes := inputChar_uncommitted hcommitted
      change (inputChar s.device c).canonicalSegments ≤
        lineCount (inputChar s.device c).inputRing.bytes + _
      omega
    | some segment =>
      have hsound := hc segment hcommitted
      have hentered := inputChar_entered s.device c
      rw [hcommitted] at hentered
      cases hentered with
      | commit _ hring hsegments =>
        change (inputChar s.device c).canonicalSegments ≤
          lineCount (inputChar s.device c).inputRing.bytes + _
        rw [hsegments, hring]
        split at hsound
        · -- An end of file: no line, and the flag is set.
          rename_i hnil
          subst hnil
          have heof : (s.input c).eofEntered := by
            rw [EofWatch.input, committed_nil.mp hcommitted, Bool.or_true]
          rw [heof]
          exact Nat.succ_le_succ hsound
        · rename_i hne
          rw [(bytes_ringPushAll_iff segment).mpr hsound.1]
          exact lineCount_committed hne hsound.2 _ (by omega)

theorem Bounded.write (h : Bounded s) {data : List Byte}
    (hdata : AlongInput CharSound s.device data) : Bounded (data.foldl EofWatch.input s) := by
  induction data generalizing s with
  | nil => exact h
  | cons c data ih => exact ih (h.input hdata.1) hdata.2

/-- When a read returns nothing an end of file was typed, and no segment is
left. -/
theorem Bounded.read_nil (h : Bounded s) (hr : r.Waits)
    (hread : (readAs s.device r).1 = .returned []) :
    s.eofEntered ∧ (readAs s.device r).2.canonicalSegments = 0 := by
  have hbound := h.segments
  by_cases hmode : r.canonical
  · by_cases hnone : s.device.canonicalSegments = 0
    · simp [readAs, hmode, hnone, h.masterOpen] at hread
    simp only [readAs, hmode, hnone, if_true, if_false, ReadResult.returned.injEq] at hread ⊢
    have hempty : s.device.inputRing.bytes = [] := by
      by_contra hne
      rw [(ringPopLine_spec r.size _).1] at hread
      exact firstLine_take_ne_nil hne hr.1 hread
    rw [hempty, lineCount] at hbound
    cases heof : s.eofEntered with
    | false => rw [heof, Bool.toNat_false] at hbound; omega
    | true =>
      rw [heof, Bool.toNat_true] at hbound
      exact ⟨rfl, by omega⟩
  · by_cases hempty : s.device.inputRing.size = 0
    · rw [readAs, if_neg hmode, if_pos hempty, if_neg (not_not.mpr h.masterOpen),
        if_neg hr.2] at hread
      cases hread
    · simp only [readAs, hmode, hempty, if_false, Bool.false_eq_true,
        ReadResult.returned.injEq] at hread
      rw [(ringPop_spec r.size _).1, List.take_eq_nil_iff, bytes_eq_nil] at hread
      exact absurd hread (not_or.mpr ⟨hr.1, hempty⟩)

/-- What a read leaves in the ring and in the counter. -/
theorem readAs_bound {slack : Nat}
    (hbound : p.canonicalSegments ≤ lineCount p.inputRing.bytes + slack) (hr : r.Sound p) :
    (readAs p r).2.canonicalSegments ≤ lineCount (readAs p r).2.inputRing.bytes + slack := by
  unfold readAs
  split
  · split
    · split <;> exact hbound
    have hline := lineCount_drop_firstLine p.inputRing.bytes r.size
    dsimp only
    rw [(ringPopLine_spec r.size p.inputRing).2]
    omega
  · rename_i hmode
    split
    · split_ifs <;> exact hbound
    rename_i hfull
    have := hr (by simpa using hmode) hfull
    dsimp only
    rw [(ringPop_spec r.size p.inputRing).2]
    omega

theorem readAs_frame (p : PtyDevice) (r : Reader) : (readAs p r).2.termios = p.termios ∧
      (readAs p r).2.masterOpenCount = p.masterOpenCount := by
  unfold readAs
  split_ifs <;> exact ⟨rfl, rfl⟩

theorem Bounded.read (h : Bounded s) (hr : r.Waits) (hsound : r.Sound s.device)
    {others : List Reader} (hothers : ∀ r ∈ others, r.Waits) : Bounded (s.read r others) := by
  obtain ⟨htermios, hcount⟩ := readAs_frame s.device r
  refine ⟨?_, ?_, ?_, ?_⟩
  · have := h.masterOpen
    simpa only [EofWatch.read, PtyDevice.masterOpen, hcount] using this
  · rw [Tty.Waits, EofWatch.read, htermios]
    exact h.waits
  · rw [EofWatch.read]
    split
    · exact List.forall_mem_cons.mpr ⟨hr, hothers⟩
    · exact hothers
  · rw [EofWatch.read]
    by_cases hnil : (readAs s.device r).1 = .returned []
    · rw [(h.read_nil hr hnil).2]
      exact Nat.zero_le _
    · rw [decide_eq_false hnil, Bool.not_false, Bool.and_true]
      exact readAs_bound h.segments hsound

theorem Bounded.step (h : Bounded s) {call : TtyCall} (hcall : call.Sound s) :
    Bounded (s.step call) := by
  cases call with
  | masterWrite data => exact h.write hcall
  | slaveRead size =>
    rw [EofWatch.step]
    split
    · exact h
    case isFalse hsize =>
      exact h.read (show (Reader.new s.device size).Waits from ⟨hsize, h.waits⟩) hcall h.asleep
  | wake place =>
    rw [EofWatch.step]
    split
    · exact h
    case h_2 r hplace =>
      exact h.read (h.asleep r (List.mem_of_getElem? hplace)) (hcall r hplace) fun r' hr' =>
        h.asleep r' (List.mem_of_mem_eraseIdx hr')
  | setTermios t => exact ⟨h.masterOpen, hcall, h.asleep, h.segments⟩

theorem Watched.bounded (hp : Blank p)
    (hs : Watched (fun s call => call.Sound s) p s) : Bounded s := by
  induction hs with
  | start => exact ⟨hp.masterOpen, hp.waits, nofun, by rw [hp.segments]; exact Nat.zero_le _⟩
  | step _ call hcall ih => exact ih.step hcall

/-! ## Readiness -/

/-- `POLLIN` is reported exactly when a read would not sleep. -/
theorem pollSlave_iff (hwaits : Waits p) (hsize : size ≠ 0) (wantOut : Bool) :
    (pollSlave p true wantOut).pollIn ↔ (slaveRead p size).1 ≠ .blocks := by
  have hvmin : p.termios.c_cc vmin ≠ 0#8 := hwaits
  rw [slaveRead, if_neg hsize, readAs, Reader.new]
  by_cases hmode : p.termios.canonical
  · by_cases hnone : p.canonicalSegments = 0
    · cases hopen : p.masterOpen <;> simp [pollSlave, hmode, hnone, hopen]
    · simp [pollSlave, hmode, hnone, Nat.pos_of_ne_zero hnone]
  · by_cases hempty : p.inputRing.size = 0
    · cases hopen : p.masterOpen <;> simp [pollSlave, hmode, hempty, hopen, hvmin]
    · simp [pollSlave, hmode, hempty, Nat.pos_of_ne_zero hempty]

/-- A read of at least one byte that starts now or sleeps. -/
def EofWatch.Reads (s : EofWatch) (r : Reader) : Prop :=
  (∃ size, size ≠ 0 ∧ r = .new s.device size) ∨ r ∈ s.asleep

/-- No spurious end of file: in every state that sound calls lead to, a read
of at least one byte, started now or woken, returns nothing only if `VEOF` was
typed on an empty line since a read last returned nothing, and `pollSlave`
reports `POLLIN` exactly when a read would not sleep. -/
theorem no_spurious_eof {p : PtyDevice} (hp : Blank p) {s : EofWatch}
    (hs : Watched (fun s call => call.Sound s) p s) :
    (∀ r, s.Reads r → (readAs s.device r).1 = .returned [] → s.eofEntered = true) ∧
      ∀ size, size ≠ 0 → ∀ wantOut, (pollSlave s.device true wantOut).pollIn = true ↔
        (slaveRead s.device size).1 ≠ .blocks := by
  have h := hs.bounded hp
  refine ⟨fun r hr hread => (h.read_nil ?_ hread).1, fun size hsize wantOut =>
    pollSlave_iff h.waits hsize wantOut⟩
  rcases hr with ⟨size, hsize, rfl⟩ | hr
  · exact ⟨hsize, h.waits⟩
  · exact h.asleep r hr

theorem sampleTerminal_blank : Blank sampleTerminal := ⟨by decide, by decide, rfl, rfl⟩

/-- The default modes without `ICANON`, as a line editor sets them. -/
def sampleRaw : KernelTermios := { defaultTermios with c_lflag := 0 }

/-- A read sleeps in canonical mode while the mode is changed and set back, and
`VEOF` is typed. -/
def wokenWatch : EofWatch :=
  [.slaveRead 1, .setTermios sampleRaw, .setTermios defaultTermios, .masterWrite [4]].foldl
    EofWatch.step ⟨sampleTerminal, false, []⟩

/-- The read returns nothing when it is woken, and rightly. -/
theorem no_spurious_eof_sample : ∃ r ∈ wokenWatch.asleep,
    (readAs wokenWatch.device r).1 = .returned [] ∧ wokenWatch.eofEntered = true := by
  have hasleep : wokenWatch.asleep = [.new sampleTerminal 1] := by rfl
  have hread : (readAs wokenWatch.device (.new sampleTerminal 1)).1 = .returned [] := by
    decide +kernel
  have hreads : wokenWatch.Reads (.new sampleTerminal 1) := .inr (by rw [hasleep]; simp)
  have hwatched : Watched (fun s call => call.Sound s) sampleTerminal wokenWatch := by
    refine .step (.step (.step (.step .start (.slaveRead 1) nofun) (.setTermios sampleRaw) ?_)
      (.setTermios defaultTermios) ?_) (.masterWrite [4]) ⟨?_, trivial⟩
    · show Waits _
      decide +kernel
    · show Waits _
      decide +kernel
    · intro segment hsegment
      cases hsegment
      exact Nat.zero_le _
  exact ⟨_, hasleep ▸ List.mem_singleton_self _, hread,
    (no_spurious_eof sampleTerminal_blank hwatched).1 _ hreads hread⟩

/-- A line is typed, read in raw mode, and canonical mode is set again: the
segment is still counted, the ring is empty, and the next read returns nothing
although no `VEOF` was ever typed. -/
theorem raw_read_spurious_eof : ¬ ∀ p, Blank p →
      ∀ s, Watched (fun s call => call.KeepsVmin s) p s → ∀ size, size ≠ 0 →
        (slaveRead s.device size).1 = .returned [] → s.eofEntered = true := by
  intro h
  have hline : Watched (fun s call => call.KeepsVmin s) sampleTerminal _ :=
    .step .start (.masterWrite sampleLine) trivial
  have hraw := hline.step (.setTermios sampleRaw) (show Waits _ by decide +kernel)
  have hdrained := hraw.step (.slaveRead 3) trivial
  have hcooked := hdrained.step (.setTermios defaultTermios) (show Waits _ by decide +kernel)
  have hread := h sampleTerminal sampleTerminal_blank _ hcooked 1 one_ne_zero (by decide +kernel)
  revert hread
  decide +kernel

end InstantOS.Tty
