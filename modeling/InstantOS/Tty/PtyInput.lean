import InstantOS.Tty.Pty
import Mathlib.Data.List.Induction

/-!
# What input and reads do to the device

The rings as lists of bytes, and one description for each call: `inputChar`
either commits a segment, or edits the line, or hands a raw byte to the ring;
a canonical read takes the first line of the ring, as far as it fits.  Compared with
a terminal whose buffers have no bounds, a character is lost when it finds no room.
-/

namespace InstantOS.Tty

open InstantOS.Base List

/-! ## Rings as lists -/

@[simp] theorem bytes_length (ring : PtyRing) : ring.bytes.length = ring.size := window_length ..

variable {ring : PtyRing} {p : PtyDevice}

theorem bytes_eq_nil : ring.bytes = [] ↔ ring.size = 0 := by
  rw [← length_eq_zero_iff, bytes_length]

theorem bytes_ringPush (h : ring.size < kPtyBufferSize) (c : Byte) :
    (ringPush ring c).bytes = ring.bytes ++ [c] := by
  simp only [ringPush, dif_pos h, ring.head_eq]
  exact window_push ring.buffer ring.tail c h

theorem ringPush_full (h : ¬ ring.size < kPtyBufferSize) (c : Byte) :
    ringPush ring c = ring := dif_neg h

/-- A push appends the byte or, on a full ring, does nothing. -/
theorem bytes_ringPush_cases (ring : PtyRing) (c : Byte) :
    (ringPush ring c).bytes = ring.bytes ++ [c] ∨ (ringPush ring c).bytes = ring.bytes := by
  by_cases h : ring.size < kPtyBufferSize
  · exact .inl (bytes_ringPush h c)
  · exact .inr (by rw [ringPush_full h])

/-- Of a line, as much is appended as there is room for. -/
theorem bytes_ringPushAll_take (line : List Byte) (ring : PtyRing) :
    (ringPushAll ring line).bytes = ring.bytes ++ line.take (kPtyBufferSize - ring.size) := by
  induction line generalizing ring with
  | nil => simp [ringPushAll]
  | cons c line ih =>
    refine (ih (ringPush ring c)).trans ?_
    by_cases h : ring.size < kPtyBufferSize
    · have hpush := bytes_ringPush h c
      have hsize : (ringPush ring c).size = ring.size + 1 := by
        rw [← bytes_length, hpush, length_append, bytes_length, length_singleton]
      have hroom : kPtyBufferSize - ring.size = kPtyBufferSize - (ring.size + 1) + 1 := by omega
      rw [hpush, hsize, hroom, take_succ_cons, append_assoc, singleton_append]
    · have hroom : kPtyBufferSize - ring.size = 0 := by omega
      rw [ringPush_full h, hroom, take_zero, take_zero]

/-- A line is appended whole if and only if it fits. -/
theorem bytes_ringPushAll_iff (line : List Byte) :
    (ringPushAll ring line).bytes = ring.bytes ++ line ↔
      ring.size + line.length ≤ kPtyBufferSize := by
  have hle := ring.size_le
  rw [bytes_ringPushAll_take, append_cancel_left_eq]
  constructor
  · intro h
    have hlength := congrArg length h
    rw [length_take] at hlength
    omega
  · exact fun h => take_of_length_le (by omega)

theorem bytes_ringNext (h : 0 < ring.size) :
    ring.bytes = ring.buffer (ring.tail % kPtyBufferSize) :: (ringNext ring).bytes := by
  obtain ⟨n, hn⟩ : ∃ n, ring.size = n + 1 := ⟨ring.size - 1, by omega⟩
  simp only [ringNext, PtyRing.bytes, hn]
  exact window_succ ..

theorem ringPop_spec (max : Nat) (ring : PtyRing) : (ringPop max ring).1 = ring.bytes.take max ∧
      (ringPop max ring).2.bytes = ring.bytes.drop max := by
  induction max generalizing ring with
  | zero => simp [ringPop]
  | succ max ih =>
    by_cases h : 0 < ring.size
    · obtain ⟨htake, hdrop⟩ := ih (ringNext ring)
      rw [ringPop, if_pos h, bytes_ringNext h]
      exact ⟨congrArg _ htake, hdrop⟩
    · have hnil : ring.bytes = [] := bytes_eq_nil.mpr (by omega)
      simp [ringPop, h, hnil]

/-- The first line of a list of bytes: up to the first newline, or all of it. -/
def firstLine : List Byte → List Byte
  | [] => []
  | c :: rest => if c = newline then [c] else c :: firstLine rest

theorem ringPopLine_spec (max : Nat) (ring : PtyRing) :
    (ringPopLine max ring).1 = (firstLine ring.bytes).take max ∧ (ringPopLine max ring).2.bytes =
        ring.bytes.drop ((firstLine ring.bytes).take max).length := by
  induction max generalizing ring with
  | zero => simp [ringPopLine]
  | succ max ih =>
    by_cases h : 0 < ring.size
    · obtain ⟨htake, hdrop⟩ := ih (ringNext ring)
      rw [ringPopLine, if_pos h, bytes_ringNext h, firstLine]
      dsimp only
      split
      · simp
      · rw [take_succ_cons]
        exact ⟨by rw [htake], hdrop⟩
    · have hnil : ring.bytes = [] := bytes_eq_nil.mpr (by omega)
      simp [ringPopLine, h, hnil, firstLine]

/-- A read of at least one byte from a ring that has one returns one. -/
theorem firstLine_take_ne_nil {bytes : List Byte} (h : bytes ≠ []) {size : Nat}
    (hsize : size ≠ 0) : (firstLine bytes).take size ≠ [] := by
  obtain ⟨n, rfl⟩ := Nat.exists_eq_succ_of_ne_zero hsize
  cases bytes with
  | nil => exact absurd rfl h
  | cons c rest =>
    unfold firstLine
    split <;> simp

/-! ## Characters -/

/-- The segment that the character `c` commits, if it commits one: the line
for `VEOF`, the line and the character for the end of a line. -/
def committed (p : PtyDevice) (c : Byte) : Option (List Byte) :=
  match translate p.termios c with
  | none => none
  | some c =>
    if (signalOf p.termios c).isSome ∨ ¬ p.termios.canonical then none
    else if c = p.termios.c_cc verase ∨ c = p.termios.c_cc vkill then none
    else if c = p.termios.c_cc veof then some p.line
    else if endsLine p.termios c then some (appendLine p.line c)
    else none

/-- What a character may do to the input side of the device. -/
inductive Entered (p p' : PtyDevice) : Option (List Byte) → Prop
  | commit (segment : List Byte)
      (hring : p'.inputRing = ringPushAll p.inputRing segment)
      (hsegments : p'.canonicalSegments = p.canonicalSegments + 1)
      (hline : p'.line = []) : Entered p p' (some segment)
  | edit (hring : p'.inputRing = p.inputRing)
      (hsegments : p'.canonicalSegments = p.canonicalSegments)
      (hline : newline ∉ p.line → newline ∉ p'.line) : Entered p p' none
  | raw (c : Byte) (hmode : p.termios.canonical = false)
      (hring : p'.inputRing = ringPush p.inputRing c)
      (hsegments : p'.canonicalSegments = p.canonicalSegments)
      (hline : p'.line = p.line) : Entered p p' none

variable {c : Byte}

theorem inputCanonical_entered (hmode : p.termios.canonical)
    (hsignal : signalOf p.termios c = none) {c0 : Byte}
    (htranslate : translate p.termios c0 = some c) :
    Entered p (inputCanonical p c) (committed p c0) := by
  simp only [committed, htranslate, hsignal, hmode, inputCanonical, Option.isSome_none,
    Bool.false_eq_true, not_true_eq_false, or_self, if_false]
  by_cases herase : c = p.termios.c_cc verase
  · simp only [herase, if_true]
    split
    · exact .edit rfl rfl id
    · exact .edit rfl rfl fun h hmem => h (dropLast_subset _ hmem)
  · by_cases hkill : c = p.termios.c_cc vkill
    · rw [if_neg herase, if_pos hkill, if_pos (.inr hkill)]
      exact .edit rfl rfl fun _ => not_mem_nil
    rw [if_neg herase, if_neg hkill, if_neg (not_or.mpr ⟨herase, hkill⟩)]
    split
    · exact .commit _ rfl rfl rfl
    split
    · exact .commit _ rfl rfl rfl
    rename_i hends
    split
    · refine .edit rfl rfl fun h hmem => ?_
      rcases mem_append.mp hmem with hmem | hmem
      · exact h hmem
      · rw [mem_singleton] at hmem
        exact hends (by simp [endsLine, ← hmem])
    · exact .edit rfl rfl id

/-- Every character commits, edits or passes. -/
theorem inputChar_entered (p : PtyDevice) (c : Byte) :
    Entered p (inputChar p c) (committed p c) := by
  unfold inputChar
  split
  · rename_i htranslate
    rw [committed, htranslate]
    exact .edit rfl rfl id
  rename_i c' htranslate
  split
  · rename_i signal hsignal
    have hnone : committed p c = none := by simp [committed, htranslate, hsignal]
    have hframe : (signalForeground p signal).inputRing = p.inputRing ∧
        (signalForeground p signal).canonicalSegments = p.canonicalSegments ∧
        (signalForeground p signal).line = p.line := by
      unfold signalForeground; split <;> exact ⟨rfl, rfl, rfl⟩
    rw [hnone]
    exact .edit hframe.1 hframe.2.1 (by rw [hframe.2.2]; exact id)
  · rename_i hsignal
    by_cases hmode : p.termios.canonical
    · rw [if_pos hmode]
      exact inputCanonical_entered hmode hsignal htranslate
    · have hnone : committed p c = none := by simp [committed, htranslate, hmode]
      rw [if_neg hmode, hnone]
      exact .raw c' (by simpa using hmode) rfl rfl rfl

/-- A character changes neither the modes nor the open count. -/
theorem inputChar_frame (p : PtyDevice) (c : Byte) :
    (inputChar p c).termios = p.termios ∧ (inputChar p c).masterOpenCount = p.masterOpenCount := by
  unfold inputChar
  split
  · exact ⟨rfl, rfl⟩
  split
  · unfold signalForeground
    split <;> exact ⟨rfl, rfl⟩
  split
  · unfold inputCanonical
    dsimp only
    split_ifs <;> exact ⟨rfl, rfl⟩
  · exact ⟨rfl, rfl⟩

/-- The character is `VEOF`, typed in canonical mode on an empty line. -/
def entersEof (p : PtyDevice) (c : Byte) : Bool :=
  match translate p.termios c with
  | none => false
  | some c =>
    (signalOf p.termios c).isNone && p.termios.canonical && c ≠ p.termios.c_cc verase &&
      c ≠ p.termios.c_cc vkill && c = p.termios.c_cc veof && p.line = []

theorem appendLine_ne_nil (line : List Byte) (c : Byte) : appendLine line c ≠ [] := by
  unfold appendLine
  split
  · simp
  · rename_i h
    rintro rfl
    exact h (by decide)

/-- An empty segment is an end of file: no other character commits one. -/
theorem committed_nil : committed p c = some [] ↔ entersEof p c := by
  unfold committed entersEof
  split
  · simp
  rename_i c' htranslate
  cases hsignal : signalOf p.termios c' with
  | some signal => simp
  | none =>
    by_cases hmode : p.termios.canonical
    · rw [if_neg (by simp [hmode])]
      split_ifs with hedit heof hends
      · rcases hedit with h | h <;> simp [h]
      · subst heof
        rw [not_or] at hedit
        simp [hmode, hedit.1, hedit.2]
      · simp [heof, appendLine_ne_nil]
      · simp [heof]
    · simp [hmode]

/-- A newline stands only at the end of a segment. -/
theorem committed_newline (hline : newline ∉ p.line)
    {segment : List Byte} (h : committed p c = some segment) : newline ∉ segment.dropLast := by
  unfold committed at h
  split at h
  · cases h
  split_ifs at h <;> cases h
  · exact fun hmem => hline (dropLast_subset _ hmem)
  · unfold appendLine
    split
    · rw [dropLast_concat]
      exact hline
    · exact fun hmem => hline (dropLast_subset _ hmem)

/-! ## Input without bounds -/

/-- The bytes for the reader and the line that is being edited. -/
def PtyDevice.input (p : PtyDevice) : List Byte × List Byte := (p.inputRing.bytes, p.line)

/-- What a character comes to on a terminal whose buffers have no bounds. -/
def typed (t : KernelTermios) (s : List Byte × List Byte) (c : Byte) : List Byte × List Byte :=
  match translate t c with
  | none => s
  | some c =>
    if (signalOf t c).isSome then s
    else if ¬ t.canonical then (s.1 ++ [c], s.2)
    else if c = t.c_cc verase then (s.1, s.2.dropLast)
    else if c = t.c_cc vkill then (s.1, [])
    else if c = t.c_cc veof then (s.1 ++ s.2, [])
    else if endsLine t c then (s.1 ++ (s.2 ++ [c]), [])
    else (s.1, s.2 ++ [c])

/-- The buffers have room for what the character adds to them. -/
def HasRoom (p : PtyDevice) (c : Byte) : Prop :=
  match translate p.termios c with
  | none => True
  | some c =>
    if (signalOf p.termios c).isSome then True
    else if ¬ p.termios.canonical then p.inputRing.size + 1 ≤ kPtyBufferSize
    else if c = p.termios.c_cc verase then True
    else if c = p.termios.c_cc vkill then True
    else if c = p.termios.c_cc veof then p.inputRing.size + p.line.length ≤ kPtyBufferSize
    else if endsLine p.termios c then
      p.line.length < kPtyLineBufferSize ∧ p.inputRing.size + (p.line.length + 1) ≤ kPtyBufferSize
    else p.line.length < kPtyLineBufferSize

theorem inputCanonical_typed_iff (hmode : p.termios.canonical)
    (hsignal : signalOf p.termios c = none) {c0 : Byte}
    (htranslate : translate p.termios c0 = some c) :
    (inputCanonical p c).input = typed p.termios p.input c0 ↔ HasRoom p c0 := by
  simp only [typed, HasRoom, htranslate, hsignal, hmode, inputCanonical, PtyDevice.input,
    Option.isSome_none, Bool.false_eq_true, not_true_eq_false, if_false]
  split_ifs with herase hnil hkill heof hends hline
  · simp [hnil]
  · exact iff_of_true rfl trivial
  · exact iff_of_true rfl trivial
  · simpa [commitCanonicalLine] using bytes_ringPushAll_iff p.line
  · by_cases hline : p.line.length < kPtyLineBufferSize
    · simpa [commitCanonicalLine, appendLine, hline] using bytes_ringPushAll_iff (p.line ++ [c])
    refine iff_of_false (fun h => ?_) fun h => hline h.1
    have hlength := congrArg (fun s => s.1.length) h
    simp [commitCanonicalLine, appendLine, hline, bytes_ringPushAll_take] at hlength
    omega
  · exact iff_of_true rfl hline
  · exact iff_of_false (by simp) hline

/-- **A character is taken in whole** if and only if there is room for it. -/
theorem inputChar_typed_iff (p : PtyDevice) (c : Byte) :
    (inputChar p c).input = typed p.termios p.input c ↔ HasRoom p c := by
  cases htranslate : translate p.termios c with
  | none => simp [inputChar, typed, HasRoom, htranslate]
  | some c' =>
    cases hsignal : signalOf p.termios c' with
    | some signal =>
      simp only [inputChar, typed, HasRoom, htranslate, hsignal, Option.isSome_some,
        if_true, iff_true]
      unfold signalForeground
      split <;> rfl
    | none =>
      by_cases hmode : p.termios.canonical
      · rw [inputChar, htranslate]
        simp only [hsignal, if_pos hmode]
        exact inputCanonical_typed_iff hmode hsignal htranslate
      · simpa [inputChar, typed, HasRoom, htranslate, hsignal, hmode, PtyDevice.input,
          ringPushAll] using
          bytes_ringPushAll_iff [c']

/-- The result of `masterWrite`, which counts every byte; `none` is a null pointer. -/
def masterWriteResult : Option (List Byte) → Int
  | none => -1
  | some data => data.length

/-- The bytes that are counted have been taken in, none of them lost for want of room. -/
def Honest (p : PtyDevice) (data : List Byte) : Prop :=
  (masterWrite p data).input =
    (data.take (masterWriteResult (some data)).toNat).foldl (typed p.termios) p.input

theorem honest_iff (p : PtyDevice) (data : List Byte) :
    Honest p data ↔ (masterWrite p data).input = data.foldl (typed p.termios) p.input := by
  rw [Honest, masterWriteResult, Int.toNat_natCast, take_length]

theorem masterWrite_termios (p : PtyDevice) (data : List Byte) :
    (masterWrite p data).termios = p.termios := by
  induction data generalizing p with
  | nil => rfl
  | cons c data ih => exact (ih _).trans (inputChar_frame p c).1

theorem honest_concat_iff {data : List Byte} (h : Honest p data) (c : Byte) :
    Honest p (data ++ [c]) ↔ HasRoom (masterWrite p data) c := by
  rw [honest_iff] at h
  rw [honest_iff, masterWrite, foldl_append, foldl_append, ← h, ← inputChar_typed_iff,
    masterWrite_termios]
  rfl

/-- **Input is accepted honestly**: every byte that `masterWrite` counts, of the whole input and
of each part of it that may be written first, is taken in if and only if each finds room. -/
theorem masterWrite_honest_iff (p : PtyDevice) (data : List Byte) :
    (∀ part, part <+: data → Honest p part) ↔
      ∀ part c, part ++ [c] <+: data → HasRoom (masterWrite p part) c := by
  constructor
  · intro h part c hpart
    have hbefore := h part ((prefix_append ..).trans hpart)
    exact (honest_concat_iff hbefore c).mp (h _ hpart)
  · intro h part hpart
    induction part using reverseRecOn with
    | nil => rfl
    | append_singleton part c ih =>
      have hbefore := ih ((prefix_append ..).trans hpart)
      exact (honest_concat_iff hbefore c).mpr (h part c hpart)

/-- A newline behind a line of 4096 bytes is counted, and the line is committed without it. -/
theorem masterWrite_drops_newline : ¬ ∀ p data, Honest p data := by
  intro h
  have hroom := (honest_concat_iff (h { PtyDevice.new with line := .replicate 4096 97 } [])
    newline).mp
    (h _ _)
  have hline : (replicate 4096 (97 : Byte)).length < kPtyLineBufferSize := hroom.1
  rw [length_replicate] at hline
  exact absurd hline (by decide)

end InstantOS.Tty
