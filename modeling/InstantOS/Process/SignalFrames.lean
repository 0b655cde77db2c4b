import InstantOS.Process.Signals
import Mathlib.Tactic.IntervalCases

/-!
# Signal frames

Where a frame goes on the stack, that it reads back as it was written, what a delivery leaves
alone, and the masks and addresses that every signal state keeps to.

## Main results

* `load_enterHandler`: the frame behind the return address is the saved state;
* `handled`: what `handlePendingSignals` can do;
* `Valid.handlePendingSignals`, `Valid.sysSigaltstack` and the other calls: the masks never
  hold a signal that cannot be blocked, and the alternate stack lies in the user half.
-/

namespace InstantOS.Signal

open Bytes UserSignalFrame
open BitVec hiding and_assoc and_self not_or

variable {p p' : Process} {sig : Sig} {x : Word}

/-! ## The place of a frame -/

theorem toNat_align (x : Word) : (x &&& ~~~0xF).toNat = x.toNat / 16 * 16 := by
  have hmask : ∀ i : Fin 64, (0xF : Word)[i.val] = decide (i.val < 4) := by decide
  have halign : x &&& ~~~(0xF : Word) = x >>> 4 <<< 4 := by
    ext i hi
    rw [getElem_and, getElem_not, hmask ⟨i, hi⟩]
    by_cases hlow : i < 4
    · simp [hlow]
    · simp [hlow, getLsbD_eq_getElem hi, show 4 + (i - 4) = i by omega]
  rw [halign, toNat_shiftLeft, toNat_ushiftRight, Nat.shiftLeft_eq,
    Nat.shiftRight_eq_div_pow]
  omega

/-- The stack that a frame for `sig` goes on ends here. -/
def frameTop (p : Process) (sig : Sig) : Word :=
  if usesAltStack sig p.signals then p.signals.altStackSp + p.signals.altStackSize
  else p.context.rsp

/-- The return address and the frame take the 120 bytes below the top, aligned to 16. -/
theorem frameStack_toNat (h : 136 ≤ (frameTop p sig).toNat) :
    (frameStack p sig).toNat = (frameTop p sig).toNat / 16 * 16 - 120 := by
  have hsize : (BitVec.ofNat 64 size).toNat = 112 := rfl
  have heq : frameStack p sig = ((frameTop p sig - BitVec.ofNat 64 size - 16) &&& ~~~0xF) + 8 := rfl
  rw [heq, toNat_add, toNat_align, toNat_sub, toNat_sub]
  have h16 : (16 : Word).toNat = 16 := rfl
  have h8 : (8 : Word).toNat = 8 := rfl
  omega

/-- No byte of the user half at or above the top belongs to the frame, wherever the top is. -/
theorem le_offset_frameStack (hx : x.toNat < userEnd) (h : (frameTop p sig).toNat ≤ x.toNat) :
    120 ≤ offset (frameStack p sig) x := by
  have hsize : (BitVec.ofNat 64 size).toNat = 112 := rfl
  have heq : frameStack p sig = ((frameTop p sig - BitVec.ofNat 64 size - 16) &&& ~~~0xF) + 8 := rfl
  unfold userEnd at hx
  unfold offset
  rw [heq, toNat_sub, toNat_add, toNat_align, toNat_sub, toNat_sub]
  have h16 : (16 : Word).toNat = 16 := rfl
  have h8 : (8 : Word).toNat = 8 := rfl
  omega

/-! ## Writing and reading a frame -/

namespace UserSignalFrame

variable {m m' : Bytes} {a ret : Word} (f : UserSignalFrame)

theorem ofWords_congr {word word' : Nat → Word} (h : ∀ k < 14, word k = word' k) :
    ofWords word = ofWords word' := by
  unfold ofWords
  rw [h 0 (by decide), h 1 (by decide), h 2 (by decide), h 3 (by decide), h 4 (by decide),
    h 5 (by decide), h 6 (by decide), h 7 (by decide), h 8 (by decide), h 9 (by decide),
    h 10 (by decide), h 11 (by decide), h 12 (by decide), h 13 (by decide)]

/-- A frame reads back as it was written, behind the return address. -/
theorem load_storeWords : load (storeWords m a (ret :: f.words)) (a + 8) = f := by
  refine (ofWords_congr fun k hk => ?_).trans
    (show ofWords (fun k => f.words.getD k 0) = f from rfl)
  have haddr : a + 8 + BitVec.ofNat 64 (8 * k) = a + BitVec.ofNat 64 (8 * (k + 1)) := by
    rw [BitVec.add_assoc, show (8 : Word) = BitVec.ofNat 64 8 from rfl, ← BitVec.ofNat_add]
    congr 2
    omega
  have hlength : f.words.length = 14 := rfl
  rw [haddr, loadWord_storeWords (by simp [hlength]) (by simp; omega)]
  simp [hlength, hk]

/-- The frame is a matter of its own 112 bytes. -/
theorem load_congr (h : ∀ x, offset a x < 112 → m x = m' x) : load m a = load m' a := by
  refine ofWords_congr fun k hk => loadWord_congr fun i hi => h _ ?_
  have haddr : a + BitVec.ofNat 64 (8 * k) + BitVec.ofNat 64 i =
      a + BitVec.ofNat 64 (8 * k + i) := by
    rw [BitVec.add_assoc, ← BitVec.ofNat_add]
  rw [haddr, offset_add (by omega)]
  omega

end UserSignalFrame

/-! ## What a delivery does -/

/-- Only the pending signals, and whether the process has ended, are another matter now. -/
structure Quiet (p p' : Process) : Prop where
  context : p'.context = p.context
  memory : p'.memory = p.memory
  signals : ∃ pending, p'.signals = { p.signals with pending }

theorem Quiet.refl (p : Process) : Quiet p p := ⟨rfl, rfl, p.signals.pending, rfl⟩

theorem Quiet.take (h : Quiet p p') (sig : Sig) : Quiet p (p'.take sig) := by
  obtain ⟨pending, hsignals⟩ := h.signals
  refine ⟨h.context, h.memory, p'.signals.pending &&& ~~~bit sig, ?_⟩
  rw [Process.take, hsignals]

theorem Quiet.terminate (h : Quiet p p') (exitCode : Int) : Quiet p (p'.terminate exitCode) :=
  { h with }

/-- Either no handler is entered, or that of a signal with a handler of the user. -/
inductive Handled (p : Process) : Process × Option Sig → Prop
  | quiet {p' : Process} (h : Quiet p p') : Handled p (p', none)
  | entered {q : Process} {sig : Sig} (h : Quiet p q) (hhandler : p.signals.handlers sig ≠ 0) :
    Handled p (enterHandler q sig, some sig)

theorem Quiet.deliverNext {q : Process} (h : Quiet p q) (sigs : List Sig) :
    Handled p (deliverNext q sigs) := by
  induction sigs generalizing q with
  | nil => exact .quiet h
  | cons sig sigs ih =>
    have hhandler : q.signals.handlers sig = p.signals.handlers sig := by
      obtain ⟨pending, hsignals⟩ := h.signals
      rw [hsignals]
    unfold Signal.deliverNext
    split_ifs with hpending hblocked hkill hignored hdefault hharmless
    · exact ih h
    · exact ih h
    · exact .quiet ((h.take sig).terminate _)
    · exact ih (h.take sig)
    · exact ih (h.take sig)
    · exact .quiet ((h.take sig).terminate _)
    · exact .entered (h.take sig) (hhandler ▸ hdefault)

theorem handled (p : Process) : Handled p (handlePendingSignals p) := by
  unfold handlePendingSignals
  split_ifs
  · exact .quiet (.refl p)
  · exact .quiet (.refl p)
  · exact .quiet (((Quiet.refl p).take sigkill).terminate _)
  · exact (Quiet.refl p).deliverNext _

theorem Quiet.usesAltStack (h : Quiet p p') (sig : Sig) :
    Signal.usesAltStack sig p'.signals = Signal.usesAltStack sig p.signals := by
  obtain ⟨pending, hsignals⟩ := h.signals
  rw [hsignals]
  rfl

theorem Quiet.frameTop (h : Quiet p p') (sig : Sig) :
    Signal.frameTop p' sig = Signal.frameTop p sig := by
  obtain ⟨pending, hsignals⟩ := h.signals
  unfold Signal.frameTop
  rw [h.usesAltStack, h.context, hsignals]

theorem Quiet.frameStack (h : Quiet p p') (sig : Sig) :
    Signal.frameStack p' sig = Signal.frameStack p sig := by
  have htop := h.frameTop sig
  unfold Signal.frameTop at htop
  unfold Signal.frameStack
  rw [htop]

theorem Quiet.savedFrame (h : Quiet p p') : Signal.savedFrame p' = Signal.savedFrame p := by
  obtain ⟨pending, hsignals⟩ := h.signals
  unfold Signal.savedFrame
  rw [h.context, hsignals]

/-- The frame behind the return address is the saved state. -/
theorem load_enterHandler (p : Process) (sig : Sig) :
    load (enterHandler p sig).memory (frameStack p sig + 8) = savedFrame p :=
  (savedFrame p).load_storeWords

/-- Only the 120 bytes of the return address and the frame are written. -/
theorem enterHandler_frame (h : 120 ≤ offset (frameStack p sig) x) :
    (enterHandler p sig).memory x = p.memory x :=
  storeWords_frame (by simp [words]) (by simpa [words] using h)

/-! ## Valid signal states -/

theorem validSignalMask_eq (mask : Word) :
    validSignalMask mask = mask &&& validSignalMask (allOnes 64) := by
  simp only [validSignalMask, BitVec.and_assoc, BitVec.and_self]

theorem validSignalMask_idem (mask : Word) :
    validSignalMask (validSignalMask mask) = validSignalMask mask := by
  rw [validSignalMask_eq (validSignalMask mask), validSignalMask_eq mask, BitVec.and_assoc,
    BitVec.and_self]

theorem validSignalMask_or (a b : Word) :
    validSignalMask (a ||| b) = validSignalMask a ||| validSignalMask b := by
  unfold validSignalMask
  ext i hi
  simp only [getElem_and, getElem_or]
  cases a[i] <;> cases b[i] <;> simp

theorem validSignalMask_bit : ∀ sig : Sig, sig ≠ 0 → sig ≠ sigkill →
    validSignalMask (bit sig) = bit sig := by
  decide

/-- What holds of every signal state: the two signals that can have no handler have none, the
masks hold only signals that can be blocked, and the alternate stack ends in the user half. -/
structure SignalHandler.Valid (h : SignalHandler) : Prop where
  handlers : h.handlers 0 = 0 ∧ h.handlers sigkill = 0
  masks : ∀ sig, validSignalMask (h.masks sig) = h.masks sig
  blocked : validSignalMask h.blocked = h.blocked
  altStack : h.altStackSp.toNat + h.altStackSize.toNat ≤ userEnd

variable {pagesValid : Word → Word → Bool}

theorem isValidUserPointer_le {ptr size : Word} (hsize : size ≠ 0)
    (h : isValidUserPointer pagesValid ptr size) : ptr.toNat + size.toNat ≤ userEnd := by
  unfold isValidUserPointer at h
  rw [if_neg hsize] at h
  split_ifs at h with hkernel hnull hwrap hend
  rw [toNat_add] at hwrap hend
  omega

/-- The index of a signal number, read back. -/
theorem eq_of_index {number : Word} {hlt : number.toNat < 64} {k : Sig}
    (h : (⟨number.toNat, hlt⟩ : Sig) = k) : number = BitVec.ofNat 64 k.val := by
  rw [← h, ofNat_toNat, setWidth_eq]

/-- Handing words back leaves the signal state alone. -/
theorem copyOut_signals {ptr : Word} {size : Nat} {words : List Word}
    (h : copyOut pagesValid p ptr size words = some p') : p'.signals = p.signals := by
  unfold copyOut at h
  split_ifs at h <;> cases h <;> rfl

namespace SignalHandler.Valid

theorem initial : SignalHandler.initial.Valid :=
  ⟨⟨rfl, rfl⟩, fun _ => show validSignalMask 0 = 0 by decide, by decide, by decide⟩

variable {h : SignalHandler}

theorem inherited (hv : h.Valid) : h.inherited.Valid :=
  { hv with altStack := initial.altStack }

theorem withPending (hv : h.Valid) (pending : Word) : { h with pending }.Valid :=
  { hv with }

section

variable (hv : p.signals.Valid)

include hv

theorem quiet (hq : Quiet p p') : p'.signals.Valid := by
  obtain ⟨pending, hsignals⟩ := hq.signals
  rw [hsignals]
  exact hv.withPending pending

theorem enterHandler (hhandler : p.signals.handlers sig ≠ 0) :
    (enterHandler p sig).signals.Valid := by
  have hzero : sig ≠ 0 := fun h => hhandler (h ▸ hv.handlers.1)
  have hkill : sig ≠ sigkill := fun h => hhandler (h ▸ hv.handlers.2)
  refine { hv with blocked := ?_ }
  change validSignalMask (blockedInHandler p sig) = blockedInHandler p sig
  rw [blockedInHandler, if_neg hkill, validSignalMask_or, validSignalMask_or, hv.blocked, hv.masks,
    validSignalMask_bit sig hzero hkill]

theorem handlePendingSignals : (handlePendingSignals p).1.signals.Valid := by
  have hhandled := handled p
  generalize Signal.handlePendingSignals p = r at hhandled
  cases hhandled with
  | quiet hq => exact hv.quiet hq
  | entered hq hhandler =>
    refine (hv.quiet hq).enterHandler ?_
    obtain ⟨pending, hsignals⟩ := hq.signals
    rw [hsignals]
    exact hhandler

theorem sysSigreturn : (sysSigreturn p).1.signals.Valid :=
  { hv with blocked := validSignalMask_idem _ }

end

/-- A handler, with its mask, is set for a signal that can have one. -/
theorem update (hv : h.Valid) (hzero : sig ≠ 0) (hkill : sig ≠ sigkill) (handler : Word)
    {mask : Word} (hmask : validSignalMask mask = mask) (flags restorers : Sig → Word) : { h with
      handlers := Function.update h.handlers sig handler
      masks := Function.update h.masks sig mask
      flags
      restorers }.Valid := by
  refine ⟨⟨?_, ?_⟩, fun other => ?_, hv.blocked, hv.altStack⟩
  · exact (Function.update_of_ne hzero.symm ..).trans hv.handlers.1
  · exact (Function.update_of_ne hkill.symm ..).trans hv.handlers.2
  · dsimp only
    by_cases hother : other = sig
    · rw [hother, Function.update_self, hmask]
    · rw [Function.update_of_ne hother, hv.masks]

section

variable (hv : p.signals.Valid)

include hv

theorem sysSignal (sig handler : Word) : (sysSignal p sig handler).1.signals.Valid := by
  unfold Signal.sysSignal
  split
  · exact hv
  rename_i hsig
  refine hv.update (fun h => hsig (.inl ?_)) (fun h => hsig (.inr (.inr ?_))) handler rfl _ _
  · exact eq_of_index h
  · exact eq_of_index h

theorem sysSigprocmask (how set oldset : Word) :
    (sysSigprocmask pagesValid p how set oldset).1.signals.Valid := by
  unfold Signal.sysSigprocmask
  split
  · exact hv
  rename_i q hq
  rw [← copyOut_signals hq] at hv
  have hblocked : ∀ mask, { q.signals with blocked := validSignalMask mask }.Valid := fun mask =>
    { hv with blocked := validSignalMask_idem mask }
  split_ifs
  · exact hv
  · exact hv
  · exact hblocked _
  · exact hblocked _
  · exact hblocked _
  · exact hv

theorem sysSigaction (sig act oldact : Word) :
    (sysSigaction pagesValid p sig act oldact).1.signals.Valid := by
  unfold Signal.sysSigaction
  split
  · exact hv
  rename_i hsig
  dsimp only
  split
  · exact hv
  rename_i q hq
  rw [← copyOut_signals hq] at hv
  split_ifs with hact hkill
  · exact hv
  · exact hv
  · refine hv.update (fun h => hsig (.inl ?_)) (fun h => hkill (by simp [h])) _
      (validSignalMask_idem _) _ _
    exact eq_of_index h

theorem sysSigaltstack (stackPtr oldStackPtr : Word) :
    (sysSigaltstack pagesValid p stackPtr oldStackPtr).1.signals.Valid := by
  unfold Signal.sysSigaltstack
  split
  · exact hv
  rename_i q hq
  rw [← copyOut_signals hq] at hv
  dsimp only
  split_ifs with hnull hon hvalid hflags hdisable hstack
  · exact hv
  · exact hv
  · exact hv
  · exact hv
  · exact { hv with altStack := initial.altStack }
  · exact hv
  refine { hv with altStack := ?_ }
  simp only [not_or, Bool.not_eq_true', Bool.not_eq_false] at hstack
  refine isValidUserPointer_le (fun hzero => hstack.2.1 ?_) hstack.2.2
  rw [show loadWord q.memory (stackPtr + 8) = 0 from hzero]
  decide

end

end SignalHandler.Valid

end InstantOS.Signal
