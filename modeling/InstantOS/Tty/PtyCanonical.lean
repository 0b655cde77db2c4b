import InstantOS.Tty.PtyInput

/-!
# Canonical reads

What a terminal promises a reader in canonical mode: input is committed in
segments, a read returns bytes of the oldest segment only, and a segment longer
than the read is continued by the next one.  `specRead` is that promise on the
list of segments that were committed and not yet read.

The device keeps no such list.  It keeps the bytes in the ring and the number
of segments, and finds the end of a segment by looking for a newline.  The two
agree while every read takes the whole segment it finds and no segment is
committed behind one that ends without a newline; `Call.Sound` says so in terms
of the ring and the counter, and `canonical_reads_are_segments` is the agreement
along every run of such calls.
-/

namespace InstantOS.Tty

open List

/-! ## The promise -/

/-- A read of `size` bytes on the segments that wait. -/
def specRead (masterOpen : Bool) (pending : List (List Byte)) (size : Nat) :
    ReadResult × List (List Byte) :=
  if size = 0 then (.returned [], pending)
  else
    match pending with
    | [] => if masterOpen then (.blocks, []) else (.returned [], [])
    | segment :: rest =>
      (.returned (segment.take size),
        if segment.length ≤ size then rest else segment.drop size :: rest)

/-- A device together with the segments committed to it and not yet read. -/
structure Session where
  device : PtyDevice
  pending : List (List Byte)

inductive Call
  | masterWrite (data : List Byte)
  | slaveRead (size : Nat)
  | openMaster
  | closeMaster
deriving DecidableEq, Repr

def Session.input (s : Session) (c : Byte) : Session :=
  { device := inputChar s.device c
    pending := s.pending ++ (committed s.device c).toList }

def Session.step (s : Session) : Call → Session
  | .masterWrite data => data.foldl Session.input s
  | .slaveRead size =>
    { device := (slaveRead s.device size).2
      pending := (specRead s.device.masterOpen s.pending size).2 }
  | .openMaster => { s with device := openMaster s.device }
  | .closeMaster => { s with device := closeMaster s.device }

/-- `ok` holds of every character of `data`, in the state it meets. -/
def AlongInput (ok : PtyDevice → Byte → Prop) : PtyDevice → List Byte → Prop
  | _, [] => True
  | p, c :: data => ok p c ∧ AlongInput ok (inputChar p c) data

/-- The ring has room for what the character commits. -/
def RoomFor (p : PtyDevice) (c : Byte) : Prop :=
  ∀ segment, committed p c = some segment → p.inputRing.size + segment.length ≤ kPtyBufferSize

variable {p : PtyDevice} {s : Session}

theorem RoomFor.of_none {c : Byte} (h : committed p c = none) : RoomFor p c := by
  intro segment hsegment
  rw [h] at hsegment
  cases hsegment

/-- The input ring does not overflow. -/
def Call.Fits (p : PtyDevice) : Call → Prop
  | .masterWrite data => AlongInput RoomFor p data
  | _ => True

/-- A character commits a segment only when every waiting one ends with a
newline: there are as many newlines in the ring as segments. -/
def CommitsBehindNewline (p : PtyDevice) (c : Byte) : Prop :=
  (committed p c).isSome → p.inputRing.bytes.count newline = p.canonicalSegments

/-- The calls under which ring and counter stay together. -/
def Call.Sound (p : PtyDevice) : Call → Prop
  | .masterWrite data => AlongInput (fun p c => RoomFor p c ∧ CommitsBehindNewline p c) p data
  | .slaveRead size =>
    size = 0 ∨ p.canonicalSegments = 0 ∨ (firstLine p.inputRing.bytes).length ≤ size
  | _ => True

/-- The sessions that calls with `ok` lead to. -/
inductive Reached (ok : PtyDevice → Call → Prop) (p : PtyDevice) : Session → Prop
  | start : Reached ok p ⟨p, []⟩
  | step {s : Session} (hs : Reached ok p s) (call : Call) (hcall : ok s.device call) :
      Reached ok p (s.step call)

/-- A device in canonical mode to which nothing was typed. -/
structure Idle (p : PtyDevice) : Prop where
  mode : p.termios.canonical = true
  bytes : p.inputRing.bytes = []
  line : p.line = []
  segments : p.canonicalSegments = 0

/-! ## Segments and lines -/

theorem firstLine_of_not_mem {line : List Byte} (h : newline ∉ line.dropLast) :
    firstLine line = line := by
  induction line with
  | nil => rfl
  | cons c rest ih =>
    cases rest with
    | nil => unfold firstLine; split <;> rfl
    | cons d rest =>
      rw [dropLast_cons_cons, mem_cons, not_or] at h
      rw [firstLine, if_neg (Ne.symm h.1), ih h.2]

theorem firstLine_append {line : List Byte} (h : newline ∉ line) (rest : List Byte) :
    firstLine (line ++ newline :: rest) = line ++ [newline] := by
  induction line with
  | nil => rfl
  | cons c line ih =>
    rw [mem_cons, not_or] at h
    rw [cons_append, firstLine, if_neg (Ne.symm h.1), ih h.2, cons_append]

/-- Segments have at most one newline, at the end. -/
def Segmented (pending : List (List Byte)) : Prop :=
  ∀ segment ∈ pending, newline ∉ segment.dropLast

theorem segment_count {segment : List Byte} (h : newline ∉ segment.dropLast) :
    segment.count newline = if segment.getLast? = some newline then 1 else 0 := by
  rcases eq_nil_or_concat segment with rfl | ⟨line, c, rfl⟩
  · rfl
  · rw [concat_eq_append, dropLast_concat] at *
    simp [count_eq_zero_of_not_mem h, count_singleton]

theorem count_flatten_le {pending : List (List Byte)} (h : Segmented pending) :
    pending.flatten.count newline ≤ pending.length := by
  induction pending with
  | nil => simp
  | cons segment rest ih =>
    have hrest := ih fun s hs => h s (mem_cons_of_mem _ hs)
    have hone := segment_count (h segment mem_cons_self)
    rw [flatten_cons, count_append, length_cons]
    split at hone <;> omega

/-- As many newlines as segments: every segment ends with one. -/
theorem ended_of_count {pending : List (List Byte)} (h : Segmented pending)
    (hcount : pending.flatten.count newline = pending.length) :
    ∀ segment ∈ pending, segment.getLast? = some newline := by
  induction pending with
  | nil => intro segment hmem; cases hmem
  | cons segment rest ih =>
    have htail : Segmented rest := fun s hs => h s (mem_cons_of_mem _ hs)
    have hrest := count_flatten_le htail
    have hone := segment_count (h segment mem_cons_self)
    rw [flatten_cons, count_append, length_cons] at hcount
    split at hone
    · rename_i hlast
      intro s hs
      rcases mem_cons.mp hs with rfl | hs
      · exact hlast
      · exact ih htail (by omega) s hs
    · omega

/-- The first line of the waiting bytes is the first segment, if every segment
but the last ends with a newline. -/
theorem firstLine_flatten {segment : List Byte} {rest : List (List Byte)}
    (h : Segmented (segment :: rest))
    (hended : ∀ s ∈ (segment :: rest).dropLast, s.getLast? = some newline) :
    firstLine (segment :: rest).flatten = segment := by
  have hsegment := h segment mem_cons_self
  rw [flatten_cons]
  cases rest with
  | nil =>
    rw [flatten_nil, append_nil]
    exact firstLine_of_not_mem hsegment
  | cons next rest =>
    have hlast := hended segment (by simp)
    rcases eq_nil_or_concat segment with rfl | ⟨line, c, rfl⟩
    · cases hlast
    rw [concat_eq_append] at *
    rw [dropLast_concat] at hsegment
    rw [getLast?_append] at hlast
    cases hlast
    rw [append_assoc]
    exact firstLine_append hsegment _

/-! ## The agreement -/

/-- Ring and counter stand for the waiting segments. -/
structure Agrees (s : Session) : Prop where
  mode : s.device.termios.canonical = true
  line : newline ∉ s.device.line
  bytes : s.device.inputRing.bytes = s.pending.flatten
  segments : s.device.canonicalSegments = s.pending.length
  segmented : Segmented s.pending
  ended : ∀ segment ∈ s.pending.dropLast, segment.getLast? = some newline

theorem Idle.agrees (h : Idle p) : Agrees ⟨p, []⟩ where
  mode := h.mode
  line := by rw [h.line]; exact not_mem_nil
  bytes := h.bytes
  segments := h.segments
  segmented _ hmem := nomatch hmem
  ended _ hmem := nomatch hmem

theorem Agrees.input (h : Agrees s) {c : Byte} (hroom : RoomFor s.device c)
    (hbehind : CommitsBehindNewline s.device c) : Agrees (s.input c) := by
  have hmode : (inputChar s.device c).termios.canonical := by
    rw [(inputChar_frame s.device c).1]
    exact h.mode
  have hentered := inputChar_entered s.device c
  cases hcommitted : committed s.device c with
  | none =>
    rw [hcommitted] at hentered
    have hsame : s.input c = ⟨inputChar s.device c, s.pending⟩ := by
      simp [Session.input, hcommitted]
    rw [hsame]
    cases hentered with
    | edit hring hsegments hline =>
      exact ⟨hmode, hline h.line, hring ▸ h.bytes, hsegments.trans h.segments, h.segmented, h.ended⟩
    | raw c hraw => rw [h.mode] at hraw; cases hraw
  | some segment =>
    rw [hcommitted] at hentered
    have hsame : s.input c = ⟨inputChar s.device c, s.pending ++ [segment]⟩ := by
      simp [Session.input, hcommitted]
    -- The waiting segments all end with a newline, so one more may follow.
    have hended : ∀ s' ∈ s.pending, s'.getLast? = some newline := by
      refine ended_of_count h.segmented ?_
      rw [← h.bytes, hbehind (by rw [hcommitted]; rfl), h.segments]
    rw [hsame]
    cases hentered with
    | commit _ hring hsegments hline =>
      refine ⟨hmode, ?_, ?_, ?_, ?_, ?_⟩
      · rw [hline]
        exact not_mem_nil
      · rw [hring, (bytes_ringPushAll_iff _).mpr (hroom segment hcommitted),
          h.bytes, flatten_append,
          flatten_singleton]
      · rw [hsegments, h.segments, length_append, length_singleton]
      · intro s' hs'
        rcases mem_append.mp hs' with hs' | hs'
        · exact h.segmented s' hs'
        · rw [mem_singleton] at hs'
          exact hs' ▸ committed_newline h.line hcommitted
      · rw [dropLast_concat]
        exact hended

theorem Agrees.write (h : Agrees s) {data : List Byte}
    (hdata : AlongInput (fun p c => RoomFor p c ∧ CommitsBehindNewline p c) s.device data) :
    Agrees (data.foldl Session.input s) := by
  induction data generalizing s with
  | nil => exact h
  | cons c data ih => exact ih (h.input hdata.1.1 hdata.1.2) hdata.2

/-- Without a segment a read waits, or is at the end of the file. -/
theorem Agrees.read_nil (h : Agrees s) {size : Nat} (hzero : size ≠ 0) (hpending : s.pending = []) :
    (slaveRead s.device size).1 = (specRead s.device.masterOpen [] size).1 ∧
      Agrees (s.step (.slaveRead size)) := by
  have hnone : s.device.canonicalSegments = 0 := by rw [h.segments, hpending]; rfl
  have hread : slaveRead s.device size =
      (if s.device.masterOpen then .blocks else .returned [], s.device) := by
    simp only [slaveRead, readAs, Reader.new, hzero, h.mode, hnone, if_true, if_false]
    split <;> rfl
  have hspec : specRead s.device.masterOpen [] size =
      (if s.device.masterOpen then .blocks else .returned [], []) := by
    simp only [specRead, hzero, if_false]
    split <;> rfl
  refine ⟨by rw [hread, hspec], ?_⟩
  have hstep : s.step (.slaveRead size) = s := by
    rw [Session.step, hread, hpending, hspec, ← hpending]
  rw [hstep]
  exact h

/-- A read that takes the first line whole leaves the rest of the segments. -/
theorem Agrees.read_cons (h : Agrees s) {size : Nat} (hzero : size ≠ 0) {segment : List Byte}
    {rest : List (List Byte)} (hpending : s.pending = segment :: rest)
    (hsize : (Call.slaveRead size).Sound s.device) :
    (slaveRead s.device size).1 = (specRead s.device.masterOpen (segment :: rest) size).1 ∧
      Agrees (s.step (.slaveRead size)) := by
  have hsome : s.device.canonicalSegments ≠ 0 := by rw [h.segments, hpending]; simp
  have hfirst : firstLine s.device.inputRing.bytes = segment := by
    rw [h.bytes, hpending]
    exact firstLine_flatten (hpending ▸ h.segmented) (hpending ▸ h.ended)
  have hlength : segment.length ≤ size := by
    have := (hsize.resolve_left hzero).resolve_left hsome
    rwa [hfirst] at this
  obtain ⟨htake, hdrop⟩ := ringPopLine_spec size s.device.inputRing
  rw [hfirst, take_of_length_le hlength] at htake hdrop
  have hread : slaveRead s.device size = (.returned segment,
      { s.device with
        inputRing := (ringPopLine size s.device.inputRing).2
        canonicalSegments := s.device.canonicalSegments - 1 }) := by
    simp [slaveRead, readAs, Reader.new, hzero, h.mode, hsome, htake]
  have hspec : specRead s.device.masterOpen (segment :: rest) size =
      (.returned segment, rest) := by
    simp [specRead, hzero, take_of_length_le hlength, hlength]
  refine ⟨by rw [hread, hspec], ?_⟩
  have hstep : s.step (.slaveRead size) = ⟨{ s.device with
          inputRing := (ringPopLine size s.device.inputRing).2
          canonicalSegments := s.device.canonicalSegments - 1 }, rest⟩ := by
    rw [Session.step, hread, hpending, hspec]
  rw [hstep]
  refine ⟨h.mode, h.line, ?_, ?_, fun s' hs' => h.segmented s' ?_, fun s' hs' => h.ended s' ?_⟩
  · rw [hdrop, h.bytes, hpending, flatten_cons, drop_left]
  · rw [h.segments, hpending, length_cons, Nat.add_sub_cancel]
  · rw [hpending]
    exact mem_cons_of_mem _ hs'
  · rw [hpending]
    cases rest with
    | nil => cases hs'
    | cons next rest => exact mem_cons_of_mem _ hs'

/-- A sound read returns what was promised. -/
theorem Agrees.read (h : Agrees s) {size : Nat} (hsize : (Call.slaveRead size).Sound s.device) :
    (slaveRead s.device size).1 = (specRead s.device.masterOpen s.pending size).1 ∧
      Agrees (s.step (.slaveRead size)) := by
  by_cases hzero : size = 0
  · subst hzero
    exact ⟨rfl, by simpa [Session.step, slaveRead, specRead] using h⟩
  cases hpending : s.pending with
  | nil => exact h.read_nil hzero hpending
  | cons segment rest => exact h.read_cons hzero hpending hsize

theorem Agrees.step (h : Agrees s) {call : Call} (hcall : call.Sound s.device) :
    Agrees (s.step call) := by
  cases call with
  | masterWrite data => exact h.write hcall
  | slaveRead size => exact (h.read hcall).2
  | openMaster | closeMaster => exact { h with }

theorem Reached.agrees (hp : Idle p)
    (hs : Reached (fun p call => call.Sound p) p s) : Agrees s := by
  induction hs with
  | start => exact hp.agrees
  | step _ call hcall ih => exact ih.step hcall

/-- Canonical reads return the committed segments in their order: along every
run of sound calls from an idle device, a sound read returns what `specRead`
returns on the waiting segments, and returns nothing only when the master is
closed or the oldest segment is empty, which only `VEOF` on an empty line
commits. -/
theorem canonical_reads_are_segments {p : PtyDevice} (hp : Idle p) {s : Session}
    (hs : Reached (fun p call => call.Sound p) p s) (size : Nat)
    (hsize : (Call.slaveRead size).Sound s.device) :
    (slaveRead s.device size).1 = (specRead s.device.masterOpen s.pending size).1 ∧
      (size ≠ 0 → (slaveRead s.device size).1 = .returned [] →
        s.device.masterOpen = false ∨ s.pending.head? = some []) ∧
      ∀ c, committed s.device c = some [] ↔ entersEof s.device c = true := by
  have hread := ((hs.agrees hp).read hsize).1
  refine ⟨hread, fun hzero hnil => ?_, fun c => committed_nil⟩
  simp only [hread, specRead, if_neg hzero] at hnil
  cases hpending : s.pending with
  | nil =>
    rw [hpending] at hnil
    cases hopen : s.device.masterOpen with
    | false => exact .inl rfl
    | true => rw [hopen] at hnil; cases hnil
  | cons segment rest =>
    rw [hpending] at hnil
    have htake : segment.take size = [] := by simpa using hnil
    rcases take_eq_nil_iff.mp htake with h | h
    · exact absurd h hzero
    · exact .inr (by rw [h]; rfl)

/-! A terminal with the default modes and an open master. -/

def sampleTerminal : PtyDevice := openMaster .new

theorem sampleTerminal_idle : Idle sampleTerminal := ⟨by decide, rfl, rfl, rfl⟩

/-- The line `ab` and its newline. -/
def sampleLine : List Byte := [97, 98, 10]

theorem sampleLine_committed :
    committed sampleTerminal 97 = none ∧ committed (inputChar sampleTerminal 97) 98 = none ∧
      committed (inputChar (inputChar sampleTerminal 97) 98) 10 = some sampleLine := by
  decide +kernel

theorem sampleLine_fits : (Call.masterWrite sampleLine).Fits sampleTerminal := by
  obtain ⟨hfirst, hsecond, hend⟩ := sampleLine_committed
  refine ⟨.of_none hfirst, .of_none hsecond, ?_, trivial⟩
  intro segment hsegment
  cases hsegment
  decide +kernel

theorem sampleLine_sound : (Call.masterWrite sampleLine).Sound sampleTerminal := by
  obtain ⟨hfirst, hsecond, hthird, -⟩ := sampleLine_fits
  refine ⟨⟨hfirst, ?_⟩, ⟨hsecond, ?_⟩, ⟨hthird, ?_⟩, trivial⟩ <;> intro _ <;> decide +kernel

/-- The line is read whole. -/
theorem canonical_reads_are_segments_sample :
    (slaveRead (masterWrite sampleTerminal sampleLine) 16).1 = .returned sampleLine := by
  have hread := (canonical_reads_are_segments sampleTerminal_idle
    (.step .start _ sampleLine_sound) 16 (.inr (.inr (by decide +kernel)))).1
  exact hread.trans (by decide +kernel)

/-- A read of one byte of the line counts as a read of the segment, and the
next read sleeps on the bytes that are left. -/
theorem short_read_blocks : ¬ ∀ p, Idle p → ∀ s, Reached (fun p call => call.Fits p) p s → ∀ size,
      (slaveRead s.device size).1 = (specRead s.device.masterOpen s.pending size).1 := by
  intro h
  have hrun := h sampleTerminal sampleTerminal_idle _
    (.step (.step .start _ sampleLine_fits) (.slaveRead 1) trivial) 1
  revert hrun
  decide +kernel

end InstantOS.Tty
