import InstantOS.Process.SignalFrames

/-!
# Nested handlers

A thread takes signals, in its handlers too, and each handler returns through
`sys_sigreturn` with its frame as it was written.  A configuration of such a run is the thread
and the frames of the handlers that have not returned, the innermost first; a frame is on the
alternate stack when it was put there or its handler's thread was running there already.

## Main results

* `signal_round_trip`: the frames of a run lie apart, a delivery writes nothing at or above
  the interrupted stack pointer but on the alternate stack, and a return brings back what the
  delivery saved;
* `frame_above_rsp`: the alternate stack can lie above the interrupted stack pointer, and a
  handler that moves its stack pointer back over its own frame has it overwritten;
* `sigreturn_privilege`: which frames make `sys_sigreturn` hand an unprivileged state to
  `sysret`.
-/

namespace InstantOS.Signal

open Bytes

/-! ## Threads and their signal states -/

/-- The calls that change the signal state. -/
inductive Call
  | signal (sig handler : Word)
  | sigprocmask (how set oldset : Word)
  | sigaction (sig act oldact : Word)
  | sigaltstack (stackPtr oldStackPtr : Word)

def Call.run (pagesValid : Word → Word → Bool) (p : Process) : Call → Process × Word
  | .signal sig handler => sysSignal p sig handler
  | .sigprocmask how set oldset => sysSigprocmask pagesValid p how set oldset
  | .sigaction sig act oldact => sysSigaction pagesValid p sig act oldact
  | .sigaltstack stackPtr oldStackPtr => sysSigaltstack pagesValid p stackPtr oldStackPtr

/-- A process as its constructor leaves it. -/
def Process.new (context : ProcessContext) (memory : Bytes) : Process where
  context
  signals := .initial
  memory
  terminated := false
  exitRequested := false
  exitCode := 0

/-- The threads that can come up: user code does what it likes with registers and memory, also
before a `sys_sigreturn`. -/
inductive Reached : Process → Prop
  | new (context : ProcessContext) (memory : Bytes) : Reached (.new context memory)
  | inherit {p : Process} (h : Reached p) (context : ProcessContext) (memory : Bytes) :
    Reached { Process.new context memory with signals := p.signals.inherited }
  | exec {p : Process} (h : Reached p) (context : ProcessContext) (memory : Bytes) :
    Reached { p with context, memory, signals := .initial }
  | user {p : Process} (h : Reached p) (context : ProcessContext) (memory : Bytes) :
    Reached { p with context, memory }
  | send {p : Process} (h : Reached p) (sig : Sig) : Reached (sendSignal p sig)
  | call {p : Process} (h : Reached p) (pagesValid : Word → Word → Bool) (c : Call) :
    Reached (c.run pagesValid p).1
  | handle {p : Process} (h : Reached p) : Reached (handlePendingSignals p).1
  | sigreturn {p : Process} (h : Reached p) : Reached (sysSigreturn p).1

variable {p p' : Process} {sig : Sig}

theorem SignalHandler.Valid.call (hv : p.signals.Valid) (pagesValid : Word → Word → Bool)
    (c : Call) :
    (c.run pagesValid p).1.signals.Valid := by
  cases c with
  | signal sig handler => exact hv.sysSignal sig handler
  | sigprocmask how set oldset => exact hv.sysSigprocmask how set oldset
  | sigaction sig act oldact => exact hv.sysSigaction sig act oldact
  | sigaltstack stackPtr oldStackPtr => exact hv.sysSigaltstack stackPtr oldStackPtr

theorem Reached.valid (h : Reached p) : p.signals.Valid := by
  induction h with
  | new context memory => exact .initial
  | inherit h context memory ih => exact ih.inherited
  | exec h context memory ih => exact .initial
  | user h context memory ih => exact ih
  | send h sig ih => exact ih.withPending _
  | call h pagesValid c ih => exact ih.call pagesValid c
  | handle h ih => exact ih.handlePendingSignals
  | sigreturn h ih => exact ih.sysSigreturn

/-! ## Configurations -/

/-- The frame of a handler that has not returned, and the thread as it was before. -/
structure LiveFrame where
  base : Word
  alternate : Bool
  before : Process

namespace LiveFrame

/-- The addresses of the return address and the frame. -/
def Covers (f : LiveFrame) (x : Word) : Prop := offset f.base x < 120

/-- The two have no byte in common. -/
def Apart (f g : LiveFrame) : Prop := ∀ x, ¬ (f.Covers x ∧ g.Covers x)

/-- The bytes that `sys_sigreturn` reads are the same. -/
def Kept (f : LiveFrame) (m m' : Bytes) : Prop := ∀ x, offset (f.base + 8) x < 112 → m' x = m x

end LiveFrame

/-- The thread runs on its alternate stack if its innermost handler does. -/
def onAlternate (live : List LiveFrame) : Bool := live.head?.any (·.alternate)

/-- The frame that a delivery adds. -/
def newFrame (live : List LiveFrame) (p : Process) (sig : Sig) : LiveFrame where
  base := frameStack p sig
  alternate := usesAltStack sig p.signals || onAlternate live
  before := p

/-- The configurations of a run whose deliveries all meet `ok`. -/
inductive Run (ok : List LiveFrame → Process → Sig → Prop) : List LiveFrame → Process → Prop
  | start {p : Process} (h : Reached p) : Run ok [] p
  | user {live : List LiveFrame} {p : Process} (h : Run ok live p) (context : ProcessContext)
    (memory : Bytes) (hkept : ∀ f ∈ live, f.Kept p.memory memory) :
    Run ok live { p with context, memory }
  | send {live : List LiveFrame} {p : Process} (h : Run ok live p) (sig : Sig) :
    Run ok live (sendSignal p sig)
  | call {live : List LiveFrame} {p : Process} (h : Run ok live p)
    (pagesValid : Word → Word → Bool) (c : Call)
    (hkept : ∀ f ∈ live, f.Kept p.memory (c.run pagesValid p).1.memory) :
    Run ok live (c.run pagesValid p).1
  | quiet {live : List LiveFrame} {p : Process} (h : Run ok live p)
    (hnone : (handlePendingSignals p).2 = none) : Run ok live (handlePendingSignals p).1
  | enter {live : List LiveFrame} {p : Process} (h : Run ok live p) (sig : Sig)
    (hsig : (handlePendingSignals p).2 = some sig) (hok : ok live p sig) :
    Run ok (newFrame live p sig :: live) (handlePendingSignals p).1
  | leave {f : LiveFrame} {live : List LiveFrame} {p : Process} (h : Run ok (f :: live) p)
    (hrsp : p.context.rsp = f.base + 8) : Run ok live (sysSigreturn p).1

/-- How user code keeps to its stacks when a signal comes in: the stack pointer is at or below
the frame of the innermost handler with room for a frame of its own, and a frame that moves to
the alternate stack finds no live frame there. -/
structure Disciplined (live : List LiveFrame) (p : Process) (sig : Sig) : Prop where
  below : usesAltStack sig p.signals = false → ∀ f ∈ live.head?, p.context.rsp.toNat ≤ f.base.toNat
  room : usesAltStack sig p.signals = false →
    (if onAlternate live then p.signals.altStackSp.toNat else 0) + 136 ≤ p.context.rsp.toNat
  free : usesAltStack sig p.signals = true → ∀ f ∈ live,
    f.base.toNat + 120 ≤ p.signals.altStackSp.toNat ∨
      p.signals.altStackSp.toNat + p.signals.altStackSize.toNat ≤ f.base.toNat

/-! ## The invariant of a run -/

/-- The signal state says that a handler runs on the alternate stack. -/
def SignalHandler.OnStack (h : SignalHandler) : Prop := h.altStackFlags &&& ssOnstack ≠ 0

/-- The alternate stack, and whether it is in use, are the same. -/
structure SameAltStack (h h' : SignalHandler) : Prop where
  sp : h'.altStackSp = h.altStackSp
  size : h'.altStackSize = h.altStackSize
  flags : h'.altStackFlags = h.altStackFlags

/-- The frames on the alternate stack are the innermost ones.  On each stack they go down, and
those on the alternate stack lie inside it and the others outside while it is in use. -/
structure Stacked (live : List LiveFrame) (h : SignalHandler) : Prop where
  wrap : ∀ f ∈ live, f.base.toNat + 120 ≤ 2 ^ 64
  inner : live.Pairwise fun f g => g.alternate = true → f.alternate = true
  order : live.Pairwise fun f g => f.alternate = g.alternate → f.base.toNat + 120 ≤ g.base.toNat
  flags : live.Pairwise fun f g => g.alternate = true → f.before.signals.OnStack
  onStack : ∀ f ∈ live, f.alternate = true → h.OnStack
  place : ∀ f ∈ live, f.alternate = true → h.altStackSp.toNat ≤ f.base.toNat ∧
    f.base.toNat + 120 ≤ h.altStackSp.toNat + h.altStackSize.toNat
  outside : ∀ f ∈ live, f.alternate = true → ∀ g ∈ live, g.alternate = false →
    g.base.toNat + 120 ≤ h.altStackSp.toNat ∨
      h.altStackSp.toNat + h.altStackSize.toNat ≤ g.base.toNat

/-- The frames are stacked, and each holds what was saved in it. -/
structure Nested (live : List LiveFrame) (p : Process) : Prop where
  valid : p.signals.Valid
  before : ∀ f ∈ live, f.before.signals.Valid
  saved : ∀ f ∈ live, .load p.memory (f.base + 8) = savedFrame f.before
  stacked : Stacked live p.signals

variable {live : List LiveFrame}

/-- The alternate stack matters to the frames only while it is in use. -/
theorem Stacked.congr {h h' : SignalHandler} (hs : Stacked live h)
    (halt : h.OnStack → SameAltStack h h') : Stacked live h' := by
  refine { hs with onStack := ?_, place := ?_, outside := ?_ } <;> intro f hf hon <;>
    obtain ⟨hsp, hsize, hflags⟩ := halt (hs.onStack f hf hon)
  · unfold SignalHandler.OnStack
    rw [hflags]
    exact hs.onStack f hf hon
  · rw [hsp, hsize]
    exact hs.place f hf hon
  · rw [hsp, hsize]
    exact hs.outside f hf hon

theorem Nested.congr (h : Nested live p) (hvalid : p'.signals.Valid)
    (hkept : ∀ f ∈ live, f.Kept p.memory p'.memory)
    (halt : p.signals.OnStack → SameAltStack p.signals p'.signals) : Nested live p' where
  valid := hvalid
  before := h.before
  saved f hf := by
    rw [UserSignalFrame.load_congr (hkept f hf)]
    exact h.saved f hf
  stacked := h.stacked.congr halt

theorem Nested.quiet (h : Nested live p) (hq : Quiet p p') : Nested live p' := by
  obtain ⟨pending, hsignals⟩ := hq.signals
  refine h.congr (h.valid.quiet hq) (fun f _ x _ => congrFun hq.memory x) fun _ => ?_
  rw [hsignals]
  exact ⟨rfl, rfl, rfl⟩

/-- No call moves the alternate stack while it is in use. -/
theorem Call.run_altStack (pagesValid : Word → Word → Bool) (c : Call) (h : p.signals.OnStack) :
    SameAltStack p.signals (c.run pagesValid p).1.signals := by
  have hrefl : SameAltStack p.signals p.signals := ⟨rfl, rfl, rfl⟩
  cases c with
  | signal sig handler =>
    simp only [Call.run, sysSignal]
    split
    · exact hrefl
    · exact ⟨rfl, rfl, rfl⟩
  | sigprocmask how set oldset =>
    simp only [Call.run, sysSigprocmask]
    split
    · exact hrefl
    · rename_i q hq
      rw [← copyOut_signals hq]
      split_ifs <;> exact ⟨rfl, rfl, rfl⟩
  | sigaction sig act oldact =>
    simp only [Call.run, sysSigaction]
    split
    · exact hrefl
    split
    · exact hrefl
    · rename_i q hq
      rw [← copyOut_signals hq]
      split_ifs <;> exact ⟨rfl, rfl, rfl⟩
  | sigaltstack stackPtr oldStackPtr =>
    simp only [Call.run, sysSigaltstack]
    split
    · exact hrefl
    rename_i q hq
    rw [← copyOut_signals hq] at h ⊢
    split_ifs with hnull hon
    · exact ⟨rfl, rfl, rfl⟩
    · exact ⟨rfl, rfl, rfl⟩
    all_goals exact absurd h hon

/-! ## Frames that lie apart -/

namespace LiveFrame

variable {f g : LiveFrame} {x : Word}

theorem covers_iff (h : f.base.toNat + 120 ≤ 2 ^ 64) :
    f.Covers x ↔ f.base.toNat ≤ x.toNat ∧ x.toNat < f.base.toNat + 120 := by
  unfold Covers offset
  rw [BitVec.toNat_sub]
  omega

theorem apart_of_le (hf : f.base.toNat + 120 ≤ 2 ^ 64) (hg : g.base.toNat + 120 ≤ 2 ^ 64)
    (h : f.base.toNat + 120 ≤ g.base.toNat ∨ g.base.toNat + 120 ≤ f.base.toNat) : f.Apart g := by
  rintro x ⟨hxf, hxg⟩
  rw [covers_iff hf] at hxf
  rw [covers_iff hg] at hxg
  omega

/-- The frame itself is among the bytes that are covered. -/
theorem covers_of_offset (h : offset (f.base + 8) x < 112) : f.Covers x := by
  unfold Covers offset at *
  rw [BitVec.toNat_sub, BitVec.toNat_add] at h
  rw [BitVec.toNat_sub]
  have h8 : (8 : Word).toNat = 8 := rfl
  omega

end LiveFrame

/-- Two frames of a configuration lie apart. -/
theorem Stacked.apart {h : SignalHandler} (hs : Stacked live h) :
    live.Pairwise LiveFrame.Apart := by
  have hboth := hs.inner.and hs.order
  refine hboth.imp_of_mem fun {f g} hf hg ⟨hinner, horder⟩ => ?_
  refine LiveFrame.apart_of_le (hs.wrap f hf) (hs.wrap g hg) ?_
  by_cases hsame : f.alternate = g.alternate
  · exact .inl (horder hsame)
  -- only the inner one can be on the alternate stack
  have hg' : g.alternate = false := by
    rw [Bool.eq_false_iff]
    exact fun hg => hsame ((hinner hg).trans hg.symm)
  have hf' : f.alternate := by
    rw [hg'] at hsame
    exact Bool.eq_true_of_not_eq_false hsame
  have hplace := hs.place f hf hf'
  rcases hs.outside f hf hf' g hg hg' with hout | hout
  · exact .inr (by omega)
  · exact .inl (by omega)

namespace Nested

variable {f : LiveFrame}

/-! ## A return -/

/-- A return brings back the state before the delivery, but for the registers that neither the
delivery nor the return touches. -/
theorem restored (h : Nested (f :: live) p) (hrsp : p.context.rsp = f.base + 8) :
    (sysSigreturn p).1 = { p with
      context := { f.before.context with
        rbx := p.context.rbx
        rbp := p.context.rbp
        r12 := p.context.r12
        r13 := p.context.r13
        r14 := p.context.r14
        r15 := p.context.r15
        cr3 := p.context.cr3
        xstate := p.context.xstate }
      signals := { p.signals with
        blocked := f.before.signals.blocked
        altStackFlags := f.before.signals.altStackFlags } } := by
  have hf : f ∈ f :: live := List.mem_cons_self
  have hflags : (f.before.signals.altStackFlags.setWidth 64).setWidth 32 =
      f.before.signals.altStackFlags := by simp
  unfold sysSigreturn
  rw [hrsp, h.saved f hf]
  simp only [savedFrame, (h.before f hf).blocked, hflags]

theorem leave (h : Nested (f :: live) p) (hrsp : p.context.rsp = f.base + 8) :
    Nested live (sysSigreturn p).1 := by
  have hmem : ∀ {g}, g ∈ live → g ∈ f :: live := fun hg => List.mem_cons_of_mem f hg
  have hvalid := h.valid.sysSigreturn
  have hs := h.stacked
  rw [h.restored hrsp] at hvalid ⊢
  exact
    { valid := hvalid
      before := fun g hg => h.before g (hmem hg)
      saved := fun g hg => h.saved g (hmem hg)
      stacked :=
        { wrap := fun g hg => hs.wrap g (hmem hg)
          inner := hs.inner.of_cons
          order := hs.order.of_cons
          flags := hs.flags.of_cons
          onStack := fun g hg hon => List.rel_of_pairwise_cons hs.flags hg hon
          place := fun g hg => hs.place g (hmem hg)
          outside := fun g hg hon k hk => hs.outside g (hmem hg) hon k (hmem hk) } }

end Nested

/-! ## A delivery -/

theorem not_onStack_of_usesAltStack (h : usesAltStack sig p.signals) : ¬ p.signals.OnStack := by
  simp only [usesAltStack, Bool.and_eq_true, decide_eq_true_eq] at h
  intro hon
  refine hon ?_
  have hmask := congrArg (· &&& ssOnstack) h.1.1.2
  simpa [BitVec.and_assoc, ssDisable, ssOnstack] using hmask

/-- A frame on the alternate stack fits into it. -/
theorem frameStack_alternate (hv : p.signals.Valid) (h : usesAltStack sig p.signals) :
    p.signals.altStackSp.toNat ≤ (frameStack p sig).toNat ∧ (frameStack p sig).toNat + 120 ≤
        p.signals.altStackSp.toNat + p.signals.altStackSize.toNat := by
  have htop : (frameTop p sig).toNat = p.signals.altStackSp.toNat +
      p.signals.altStackSize.toNat := by
    have hend := hv.altStack
    unfold userEnd at hend
    rw [frameTop, if_pos h, BitVec.toNat_add, Nat.mod_eq_of_lt (by omega)]
  have hsize : 2048 ≤ p.signals.altStackSize.toNat := by
    simp only [usesAltStack, Bool.and_eq_true, decide_eq_true_eq] at h
    exact h.2
  rw [frameStack_toNat (by omega)]
  omega

/-- Otherwise it lies below the stack pointer, above anything that leaves room for it. -/
theorem frameStack_below (h : usesAltStack sig p.signals = false) {low : Nat}
    (hroom : low + 136 ≤ p.context.rsp.toNat) :
    low ≤ (frameStack p sig).toNat ∧ (frameStack p sig).toNat + 120 ≤ p.context.rsp.toNat := by
  have htop : frameTop p sig = p.context.rsp := by
    rw [frameTop, h]
    rfl
  rw [frameStack_toNat (by rw [htop]; omega), htop]
  omega

namespace Stacked

variable {h : SignalHandler} {g : LiveFrame}

/-- If any frame is on the alternate stack, the innermost one is. -/
theorem onAlternate_of_mem (hs : Stacked live h) (hg : g ∈ live) (hon : g.alternate) :
    onAlternate live := by
  cases live with
  | nil => cases hg
  | cons f live =>
    rcases List.mem_cons.mp hg with rfl | hg
    · exact hon
    · exact List.rel_of_pairwise_cons hs.inner hg hon

/-- The innermost frame is the lowest one on its stack. -/
theorem innermost_le (hs : Stacked live h) (hg : g ∈ live)
    (hsame : onAlternate live = g.alternate) :
    ∃ f ∈ live.head?, f.base.toNat ≤ g.base.toNat := by
  cases live with
  | nil => cases hg
  | cons f live =>
    refine ⟨f, rfl, ?_⟩
    rcases List.mem_cons.mp hg with rfl | hg
    · exact Nat.le_refl _
    · have := List.rel_of_pairwise_cons hs.order hg hsame
      omega

/-- What a new innermost frame has to keep to. -/
theorem cons {f : LiveFrame} {h' : SignalHandler} (hs : Stacked live h)
    (hsp : h'.altStackSp = h.altStackSp) (hsize : h'.altStackSize = h.altStackSize)
    (hflags : f.alternate ∨ h.OnStack → h'.OnStack) (hbefore : f.before.signals = h)
    (hwrap : f.base.toNat + 120 ≤ 2 ^ 64) (hinner : ∀ g ∈ live, g.alternate → f.alternate)
    (horder : ∀ g ∈ live, f.alternate = g.alternate → f.base.toNat + 120 ≤ g.base.toNat)
    (hplace : f.alternate → h.altStackSp.toNat ≤ f.base.toNat ∧
      f.base.toNat + 120 ≤ h.altStackSp.toNat + h.altStackSize.toNat)
    (houtside : f.alternate → ∀ g ∈ live, g.alternate = false →
      g.base.toNat + 120 ≤ h.altStackSp.toNat ∨
        h.altStackSp.toNat + h.altStackSize.toNat ≤ g.base.toNat) : Stacked (f :: live) h' where
  wrap := List.forall_mem_cons.mpr ⟨hwrap, hs.wrap⟩
  inner := List.pairwise_cons.mpr ⟨hinner, hs.inner⟩
  order := List.pairwise_cons.mpr ⟨horder, hs.order⟩
  flags := List.pairwise_cons.mpr ⟨fun g hg hon => hbefore ▸ hs.onStack g hg hon, hs.flags⟩
  onStack := List.forall_mem_cons.mpr
    ⟨fun hon => hflags (.inl hon), fun g hg hon => hflags (.inr (hs.onStack g hg hon))⟩
  place := by
    rw [hsp, hsize]
    exact List.forall_mem_cons.mpr ⟨hplace, hs.place⟩
  outside k hk hon := by
    -- the new frame is on the alternate stack as soon as any frame is
    have hf : f.alternate := (List.mem_cons.mp hk).elim (fun heq => heq ▸ hon)
      fun hk => hinner k hk hon
    rw [hsp, hsize]
    refine List.forall_mem_cons.mpr ⟨fun hoff => ?_, houtside hf⟩
    rw [hf] at hoff
    cases hoff

/-- A frame that a disciplined thread gets is stacked like the others. -/
theorem push (hs : Stacked live p.signals) (hv : p.signals.Valid) (hd : Disciplined live p sig)
    {h' : SignalHandler} (hsp : h'.altStackSp = p.signals.altStackSp)
    (hsize : h'.altStackSize = p.signals.altStackSize)
    (hflags : usesAltStack sig p.signals ∨ p.signals.OnStack → h'.OnStack) :
    Stacked (newFrame live p sig :: live) h' := by
  have hend := hv.altStack
  unfold userEnd at hend
  cases halt : usesAltStack sig p.signals with
  | true =>
    -- no frame was on the alternate stack
    have hoff : ∀ g ∈ live, g.alternate = false := fun g hg => Bool.eq_false_iff.mpr fun hon =>
      not_onStack_of_usesAltStack halt (hs.onStack g hg hon)
    have hnew : (newFrame live p sig).alternate := by simp [newFrame, halt]
    have hplace := frameStack_alternate hv halt
    refine hs.cons hsp hsize (fun _ => hflags (.inl halt)) rfl ?_ (fun _ _ _ => hnew) ?_
      (fun _ => hplace) fun _ g hg _ => hd.free halt g hg
    · simp only [newFrame]
      omega
    · intro g hg hsame
      rw [hnew, hoff g hg] at hsame
      cases hsame
  | false =>
    have hnew : (newFrame live p sig).alternate = onAlternate live := by simp [newFrame, halt]
    have hplace := frameStack_below halt (hd.room halt)
    -- the innermost frame is above the stack pointer, and so are all on its stack
    have hbelow : ∀ g ∈ live, onAlternate live = g.alternate →
        p.context.rsp.toNat ≤ g.base.toNat := fun g hg hsame => by
      obtain ⟨f, hf, hle⟩ := hs.innermost_le hg hsame
      have := hd.below halt f hf
      omega
    have hinnermost : onAlternate live → ∃ f ∈ live, f.alternate := fun hon => by
      cases live with
      | nil => cases hon
      | cons f live => exact ⟨f, List.mem_cons_self, hon⟩
    rw [← hnew] at hbelow hinnermost
    refine hs.cons hsp hsize (fun hon => hflags (.inr ?_)) rfl ?_ ?_ ?_ ?_ ?_
    · refine hon.elim (fun hon => ?_) id
      obtain ⟨f, hf, hon⟩ := hinnermost hon
      exact hs.onStack f hf hon
    · simp only [newFrame]
      omega
    · intro g hg hon
      rw [hnew]
      exact hs.onAlternate_of_mem hg hon
    · intro g hg hsame
      have := hbelow g hg hsame
      simp only [newFrame]
      omega
    · intro hon
      obtain ⟨f, hf, hfon⟩ := hinnermost hon
      have habove := hbelow f hf (hon.trans hfon.symm)
      have hin := hs.place f hf hfon
      rw [← hnew, if_pos hon] at hplace
      simp only [newFrame]
      omega
    · intro hon g hg hgoff
      obtain ⟨f, hf, hfon⟩ := hinnermost hon
      exact hs.outside f hf hfon g hg hgoff

end Stacked

theorem entered_of_some (h : (handlePendingSignals p).2 = some sig) :
    ∃ q, Quiet p q ∧ (handlePendingSignals p).1 = enterHandler q sig := by
  have hhandled := handled p
  generalize handlePendingSignals p = r at h hhandled
  cases hhandled with
  | quiet hq => cases h
  | @entered q _ hq hhandler =>
    cases h
    exact ⟨q, hq, rfl⟩

/-- The signal state says so when a handler runs on the alternate stack. -/
theorem Quiet.onStack_enterHandler {q : Process} (hq : Quiet p q)
    (h : Signal.usesAltStack sig p.signals ∨ p.signals.OnStack) :
    (enterHandler q sig).signals.OnStack := by
  obtain ⟨pending, hsignals⟩ := hq.signals
  have hor : (p.signals.altStackFlags ||| ssOnstack) &&& ssOnstack ≠ 0 := fun hzero => by
    have hbit := congrArg (BitVec.getLsbD · 0) hzero
    simp [ssOnstack] at hbit
  change (if Signal.usesAltStack sig q.signals then q.signals.altStackFlags ||| ssOnstack
    else q.signals.altStackFlags) &&& ssOnstack ≠ 0
  rw [hsignals]
  split
  · exact hor
  · rename_i halt
    exact h.resolve_left halt

theorem Nested.enter (h : Nested live p) (hsig : (handlePendingSignals p).2 = some sig)
    (hd : Disciplined live p sig) :
    Nested (newFrame live p sig :: live) (handlePendingSignals p).1 := by
  have hvalid := h.valid.handlePendingSignals
  obtain ⟨q, hq, heq⟩ := entered_of_some hsig
  rw [heq] at hvalid ⊢
  have hstacked : Stacked (newFrame live p sig :: live) (enterHandler q sig).signals := by
    obtain ⟨pending, hsignals⟩ := hq.signals
    have hsp : q.signals.altStackSp = p.signals.altStackSp := by rw [hsignals]
    have hsize : q.signals.altStackSize = p.signals.altStackSize := by rw [hsignals]
    exact h.stacked.push h.valid hd hsp hsize hq.onStack_enterHandler
  refine ⟨hvalid, List.forall_mem_cons.mpr ⟨h.valid, h.before⟩,
    List.forall_mem_cons.mpr ⟨?_, fun g hg => ?_⟩, hstacked⟩
  · have hload := load_enterHandler q sig
    rw [hq.frameStack, hq.savedFrame] at hload
    exact hload
  · -- the new frame is apart from the old one, whose bytes stay
    have hapart := List.rel_of_pairwise_cons hstacked.apart hg
    rw [← h.saved g hg, ← hq.memory]
    refine UserSignalFrame.load_congr fun x hx => enterHandler_frame ?_
    rw [hq.frameStack]
    exact Nat.le_of_not_lt fun hin => hapart x ⟨hin, LiveFrame.covers_of_offset hx⟩

theorem Run.nested (h : Run Disciplined live p) : Nested live p := by
  induction h with
  | start h =>
    exact ⟨h.valid, nofun, nofun, ⟨nofun, .nil, .nil, .nil, nofun, nofun, nofun⟩⟩
  | user h context memory hkept ih =>
    exact ih.congr ih.valid hkept fun _ => ⟨rfl, rfl, rfl⟩
  | send h sig ih =>
    exact ih.congr (ih.valid.withPending _) (fun _ _ _ _ => rfl) fun _ => ⟨rfl, rfl, rfl⟩
  | call h pagesValid c hkept ih =>
    exact ih.congr (ih.valid.call pagesValid c) hkept (c.run_altStack pagesValid)
  | @quiet live p h hnone ih =>
    have hhandled := handled p
    generalize handlePendingSignals p = r at hnone hhandled
    cases hhandled with
    | quiet hq => exact ih.quiet hq
    | entered hq hhandler => cases hnone
  | enter h sig hsig hok ih => exact ih.enter hsig hok
  | leave h hrsp ih => exact ih.leave hrsp

/-! ## The round trip -/

/-- What a delivery leaves alone: all registers but `rip`, `rsp` and `rdi`, and the memory but
for the alternate stack if the frame goes there, or else, in the user half, what is below the
stack pointer. -/
structure DeliverySafe (p : Process) (sig : Sig) (p' : Process) : Prop where
  context : p'.context = { p.context with
    rip := p'.context.rip
    rsp := p'.context.rsp
    rdi := p'.context.rdi }
  alternate : usesAltStack sig p.signals = true → ∀ x : Word, x.toNat < p.signals.altStackSp.toNat ∨
      p.signals.altStackSp.toNat + p.signals.altStackSize.toNat ≤ x.toNat →
    p'.memory x = p.memory x
  below : usesAltStack sig p.signals = false → ∀ x : Word, x.toNat < userEnd →
    p.context.rsp.toNat ≤ x.toNat → p'.memory x = p.memory x

theorem deliverySafe (hv : p.signals.Valid) (hsig : (handlePendingSignals p).2 = some sig) :
    DeliverySafe p sig (handlePendingSignals p).1 := by
  obtain ⟨q, hq, heq⟩ := entered_of_some hsig
  rw [heq]
  have hframe : ∀ {x}, 120 ≤ offset (frameStack p sig) x →
      (enterHandler q sig).memory x = p.memory x :=
    fun hx => (enterHandler_frame (by rw [hq.frameStack]; exact hx)).trans (congrFun hq.memory _)
  refine ⟨?_, fun halt x hx => hframe ?_, fun halt x huser hx => hframe ?_⟩
  · rw [← hq.context]
    rfl
  · have hplace := frameStack_alternate hv halt
    have hend := hv.altStack
    unfold userEnd at hend
    unfold offset
    rw [BitVec.toNat_sub]
    omega
  · have htop : frameTop p sig = p.context.rsp := by
      rw [frameTop, halt]
      rfl
    exact le_offset_frameStack huser (by rw [htop]; exact hx)

/-- In every configuration of a disciplined run the live frames lie apart; a delivery is safe and
puts its frame apart from them; and a handler that returns to its frame brings back the
context, the mask and the flags of the alternate stack from before its delivery. -/
theorem signal_round_trip (h : Run Disciplined live p) :
    live.Pairwise LiveFrame.Apart ∧
    (∀ sig, (handlePendingSignals p).2 = some sig → DeliverySafe p sig (handlePendingSignals p).1 ∧
      (Disciplined live p sig → ∀ f ∈ live, (newFrame live p sig).Apart f)) ∧
    ∀ f outer, live = f :: outer → p.context.rsp = f.base + 8 →
      (sysSigreturn p).1.context = { f.before.context with
        rbx := p.context.rbx
        rbp := p.context.rbp
        r12 := p.context.r12
        r13 := p.context.r13
        r14 := p.context.r14
        r15 := p.context.r15
        cr3 := p.context.cr3
        xstate := p.context.xstate } ∧
      (sysSigreturn p).1.signals.blocked = f.before.signals.blocked ∧
      (sysSigreturn p).1.signals.altStackFlags = f.before.signals.altStackFlags := by
  have hnested := h.nested
  refine ⟨hnested.stacked.apart,
    fun sig hsig => ⟨deliverySafe hnested.valid hsig, fun hd f hf => ?_⟩,
    fun f outer hlive hrsp => ?_⟩
  · exact List.rel_of_pairwise_cons (hnested.enter hsig hd).stacked.apart hf
  · subst hlive
    rw [hnested.restored hrsp]
    exact ⟨rfl, rfl, rfl⟩

/-- A thread that stands at `0x9000` on its stack, all other registers 0. -/
def sampleContext : ProcessContext :=
  ⟨0, 0, 0, 0, 0, 0, 0, 0x9000, 0, 0, 0, 0, 0, 0, 0, 0, 0, 0, 0, 0⟩

/-- It has a handler for signals 10 and 12 and both are pending. -/
def sampleSignalled : Process :=
  sendSignal (sendSignal (sysSignal (sysSignal (.new sampleContext fun _ => 0) 10 0x400000).1 12
    0x400000).1 10) 12

theorem sampleSignalled_reached : Reached sampleSignalled :=
  .send (.send (.call (.call (.new sampleContext fun _ => 0) (fun _ _ => true)
    (.signal 10 0x400000))
    (fun _ _ => true) (.signal 12 0x400000)) 10) 12

/-- The handler of signal 10 has been entered and stands before its return. -/
def sampleReturning : Process :=
  { (handlePendingSignals sampleSignalled).1 with
    context := { sampleContext with rsp := frameStack sampleSignalled 10 + 8 } }

theorem signal_round_trip_sample : (frameStack sampleSignalled 10).toNat = 0x9000 - 120 ∧
    (sysSigreturn sampleReturning).1.context = sampleContext ∧
      (sysSigreturn sampleReturning).1.signals.blocked = 0 := by
  have hrun : Run Disciplined [newFrame [] sampleSignalled 10] sampleReturning :=
    .user (.enter (.start sampleSignalled_reached) 10 (by decide +kernel)
      ⟨fun _ => nofun, by decide +kernel, fun _ => nofun⟩) _ _ fun _ _ _ _ => rfl
  obtain ⟨hcontext, hblocked, _⟩ := (signal_round_trip hrun).2.2 _ _ rfl rfl
  exact ⟨by decide +kernel, hcontext, hblocked⟩

/-- The arguments of the two calls below: an alternate stack at `0x10000`, and a handler that
runs on it. -/
def sampleArguments : Bytes :=
  storeWords (storeWords (fun _ => 0) 0x5000 [0x10000, 0x1000, 0]) 0x5100
    [0x400000, 0, saOnstack, 0x400101]

/-- A thread with an alternate stack above its own, and a signal for a handler on it. -/
def sampleAlternate : Process :=
  sendSignal (sysSigaction (fun _ _ => true) (sysSigaltstack (fun _ _ => true)
    (.new sampleContext sampleArguments) 0x5000 0).1 10 0x5100 0).1 10

theorem frame_above_rsp :
    (¬ ∀ p, Reached p → ∀ sig, (handlePendingSignals p).2 = some sig → ∀ x : Word,
      x.toNat < userEnd → p.context.rsp.toNat ≤ x.toNat →
      (handlePendingSignals p).1.memory x = p.memory x) ∧
    ¬ ∀ live p, Run (fun _ _ _ => True) live p → live.Pairwise LiveFrame.Apart := by
  constructor
  · intro h
    have hreached : Reached sampleAlternate :=
      .send (.call (.call (.new sampleContext sampleArguments)
      (fun _ _ => true) (.sigaltstack 0x5000 0)) (fun _ _ => true) (.sigaction 10 0x5100 0)) 10
    have hsame := h sampleAlternate hreached 10 (by decide +kernel) 0x10F88 (by decide +kernel)
      (by decide +kernel)
    revert hsame
    decide +kernel
  · -- the handler of signal 10 goes back to where it was interrupted before signal 12 comes in
    intro h
    let p₁ := (handlePendingSignals sampleSignalled).1
    let p₂ : Process := { p₁ with context := sampleContext }
    have hrun : Run (fun _ _ _ => True) [newFrame [newFrame [] sampleSignalled 10] p₂ 12,
        newFrame [] sampleSignalled 10] (handlePendingSignals p₂).1 :=
      .enter (.user (.enter (.start sampleSignalled_reached) 10 (by decide +kernel) trivial)
        sampleContext p₁.memory fun _ _ _ _ => rfl) 12 (by decide +kernel) trivial
    have hapart := List.rel_of_pairwise_cons (h _ _ hrun) List.mem_cons_self
    refine hapart (frameStack sampleSignalled 10) ⟨?_, ?_⟩
    · unfold LiveFrame.Covers
      decide +kernel
    · unfold LiveFrame.Covers
      decide +kernel

/-! ## What a return hands to `sysret` -/

/-- I/O privilege 0 and interrupts on in the word for RFLAGS, an instruction pointer in the user
half, and `SIGKILL` not blocked. -/
def Unprivileged (p : Process) (stack : List Word) : Prop :=
  stack.getD 4 0 &&& 0x3000 = 0 ∧ stack.getD 4 0 &&& 0x200 ≠ 0 ∧ (stack.getD 12 0).toNat < userEnd ∧
    p.signals.blocked &&& bit sigkill = 0

theorem validSignalMask_kill (mask : Word) : validSignalMask mask &&& bit sigkill = 0 := by
  rw [validSignalMask, BitVec.and_assoc]
  exact BitVec.and_zero

/-- `saveSyscallState` has marked the saved registers as valid, and signals are not looked at on
the way back from `sys_sigreturn`. -/
theorem sigreturn_privilege (p : Process) (stack : Nat → Word) (result userRSP : Word) :
    (∃ q words rsp, restoreSyscallStateLocked (sysSigreturn p).1 true stack result userRSP =
        some (q, words, rsp) ∧ Unprivileged q words) ↔
      let f := UserSignalFrame.load p.memory p.context.rsp
      f.r11 &&& 0x3000 = 0 ∧ f.r11 &&& 0x200 ≠ 0 ∧ f.rip.toNat < userEnd := by
  constructor
  · rintro ⟨q, words, rsp, hback, hiopl, hif, hrip, -⟩
    cases hback
    exact ⟨hiopl, hif, hrip⟩
  · rintro ⟨hiopl, hif, hrip⟩
    exact ⟨_, _, _, rfl, hiopl, hif, hrip, validSignalMask_kill _⟩

/-- A frame that asks for I/O privilege 3. -/
theorem sigreturn_raises_privilege : ¬ ∀ (p : Process) (stack : Nat → Word) (result userRSP : Word),
      ∃ q words rsp, restoreSyscallStateLocked (sysSigreturn p).1 true stack result userRSP =
        some (q, words, rsp) ∧ Unprivileged q words := by
  intro h
  obtain ⟨q, words, rsp, hback, hiopl, -⟩ := h (.new sampleContext (storeWords (fun _ => 0) 0x9000
    [0x400000, 0x9100, 0, 0, 0, 0, 0, 0, 0, 0, 0, 0x3202, 0x3202, 0])) (fun _ => 0) 0 0
  cases hback
  revert hiopl
  decide +kernel

end InstantOS.Signal
