import Mathlib.Data.UInt

/-!
# The big kernel lock

`klock.cpp` builds a recursive lock out of a test-and-set word, an owner word
that is read outside it, and a plain depth counter.  The model takes each atomic
access and each plain read or store as a step of its own; any number of
processors interleave them.

The specification is what a processor may expect from its own calls alone: how
many of its entries are still unmatched (`unmatched`).  `lock_exact` says that
in every interleaving at most one processor is inside and finds exactly its own
count in `s_depth`, as long as no entry is nested into a full counter; the
counter has 32 bits and is not checked (`nested_entry_wraps`).
-/

namespace InstantOS.KernelLock

/-! ## The calls and their steps -/

/-- `s_locked`, `s_owner` and `s_depth`.  The owner is a processor's index plus
one, or 0. -/
structure Shared where
  locked : Bool
  owner : Nat
  depth : UInt32

inductive Call
  | enter
  | tryEnter
  | leave
  | releaseAll
  | setDepth (depth : UInt32)
  | suspend
  | resume (savedDepth : UInt32)
deriving DecidableEq

/-- The next access of a call to the shared words.  The last three are
`unlock`, with what the call returns after it. -/
inductive Point
  | loadOwner
  | loadLocked
  | testAndSet
  | spin
  | storeOwner
  | storeDepthOne
  | readDepth
  | storeDepth (value : UInt32)
  | storeSaved (value : UInt32)
  | clearOwner (result : UInt32)
  | clearDepth (result : UInt32)
  | clearLocked (result : UInt32)

/-- A call that has returned; `tryEnter` returns 1 or 0, and a call without a
result 0. -/
structure Return where
  call : Call
  result : UInt32

/-- A processor: the call it is in, whether its test-and-set found the lock free
and it has not cleared it since, and the calls that have returned, latest
first.  The code has no such flag and no such list. -/
structure Cpu where
  running : Option (Call × Point)
  holds : Bool
  history : List Return

variable (c : Cpu)

def Cpu.goto (call : Call) (p : Point) : Cpu :=
  { c with running := some (call, p) }

def Cpu.ret (call : Call) (result : UInt32) : Cpu :=
  { c with running := none, history := ⟨call, result⟩ :: c.history }

/-- A call begins; `resume(0)` returns at once. -/
def Cpu.start : Call → Cpu
  | .resume d => if d = 0 then c.ret (.resume d) 0 else c.goto (.resume d) .loadOwner
  | call => c.goto call .loadOwner

/-- After `s_owner == self()`. -/
def Cpu.mine : Call → Cpu
  | .releaseAll => c.goto .releaseAll (.clearOwner 0)
  | .setDepth d =>
      if d = 0 then c.goto (.setDepth d) (.clearOwner 0) else c.goto (.setDepth d) (.storeDepth d)
  | call => c.goto call .readDepth

/-- After `s_owner != self()`. -/
def Cpu.notMine : Call → Cpu
  | .enter => c.goto .enter .testAndSet
  | .resume d => c.goto (.resume d) .testAndSet
  | .tryEnter => c.goto .tryEnter .loadLocked
  | call => c.ret call 0

/-- After the read in `++s_depth`, `--s_depth` and `depth()`. -/
def Cpu.haveRead (value : UInt32) : Call → Cpu
  | .leave => c.goto .leave (.storeDepth (value - 1))
  | .suspend =>
      if value = 0 then c.ret .suspend 0 else c.goto .suspend (.clearOwner value)
  | call => c.goto call (.storeDepth (value + 1))

/-- After `s_depth` was stored. -/
def Cpu.stored (value : UInt32) : Call → Cpu
  | .leave => if value = 0 then c.goto .leave (.clearOwner 0) else c.ret .leave 0
  | .resume d => c.goto (.resume d) (.storeSaved d)
  | .tryEnter => c.ret .tryEnter 1
  | call => c.ret call 0

/-- After a test-and-set that found the lock taken. -/
def Cpu.refused : Call → Cpu
  | .tryEnter => c.ret .tryEnter 0
  | call => c.goto call .spin

/-- One access of processor `me - 1`, which is in `call`. -/
def access (me : Nat) (s : Shared) (c : Cpu) (call : Call) : Point → Shared × Cpu
  | .loadOwner => (s, if s.owner = me then c.mine call else c.notMine call)
  | .loadLocked => (s, if s.locked then c.ret call 0 else c.goto call .testAndSet)
  | .testAndSet =>
      ({ s with locked := true },
        if s.locked then c.refused call else { c.goto call .storeOwner with holds := true })
  | .spin => (s, if s.locked then c else c.goto call .testAndSet)
  | .storeOwner => ({ s with owner := me }, c.goto call .storeDepthOne)
  | .storeDepthOne => ({ s with depth := 1 }, c.stored 1 call)
  | .readDepth => (s, c.haveRead s.depth call)
  | .storeDepth value => ({ s with depth := value }, c.stored value call)
  | .storeSaved value => ({ s with depth := value }, c.ret call 0)
  | .clearOwner result => ({ s with owner := 0 }, c.goto call (.clearDepth result))
  | .clearDepth result => ({ s with depth := 0 }, c.goto call (.clearLocked result))
  | .clearLocked result => ({ s with locked := false }, { c.ret call result with holds := false })

/-! ## The processors -/

structure Machine (n : Nat) where
  shared : Shared
  cpu : Fin n → Cpu

def Machine.boot (n : Nat) : Machine n :=
  { shared := { locked := false, owner := 0, depth := 0 }
    cpu := fun _ => { running := none, holds := false, history := [] } }

/-- Processor `i` begins a call. -/
def Machine.call {n : Nat} (m : Machine n) (i : Fin n) (call : Call) : Machine n :=
  { m with cpu := Function.update m.cpu i ((m.cpu i).start call) }

/-- Processor `i` makes its next access. -/
def Machine.step {n : Nat} (m : Machine n) (i : Fin n) : Machine n :=
  match (m.cpu i).running with
  | none => m
  | some (call, p) =>
      let next := access (i + 1) m.shared (m.cpu i) call p
      { shared := next.1, cpu := Function.update m.cpu i next.2 }

/-- `KernelLock::depth()` on processor `i`. -/
def Machine.depth {n : Nat} (m : Machine n) (i : Fin n) : UInt32 :=
  if m.shared.owner = i + 1 then m.shared.depth else 0

/-- The states that are reached by any interleaving of calls that meet `ok`. -/
inductive Reached {n : Nat} (ok : Machine n → Fin n → Call → Prop) : Machine n → Prop
  | boot : Reached ok (.boot n)
  | call {m : Machine n} {i : Fin n} {call : Call} (h : Reached ok m)
      (hidle : (m.cpu i).running = none) (hok : ok m i call) : Reached ok (m.call i call)
  | step {m : Machine n} {i : Fin n} (h : Reached ok m) : Reached ok (m.step i)

/-! ## What a processor may expect -/

/-- The number of unmatched entries after one more call. -/
def Call.count (result : UInt32) (entries : Nat) : Call → Nat
  | .enter => entries + 1
  | .tryEnter => if result = 0 then entries else entries + 1
  | .leave => entries - 1
  | .releaseAll => 0
  | .setDepth d => if entries = 0 then 0 else d.toNat
  | .suspend => 0
  | .resume d => if d = 0 then entries else d.toNat

/-- How many entries of a processor are unmatched, by the calls it has made;
`setDepth` and `resume` replace the number of a processor that is inside. -/
def unmatched : List Return → Nat
  | [] => 0
  | r :: earlier => r.call.count r.result (unmatched earlier)

def Cpu.entries : Nat := unmatched c.history

/-- Accesses that store to `s_depth`. -/
def Point.WritesDepth : Point → Prop
  | .storeDepthOne | .storeDepth _ | .storeSaved _ | .clearDepth _ => True
  | _ => False

/-- Calls with which a processor gives up what it has. -/
def Call.Gives : Call → Prop
  | .leave | .releaseAll | .suspend => True
  | _ => False

/-- Mutual exclusion with exact nesting. -/
structure Exact {n : Nat} (m : Machine n) : Prop where
  exclusive : ∀ i j, (m.cpu i).holds = true → (m.cpu j).holds = true → i = j
  /-- who is past its entries and has not released them is inside -/
  entered : ∀ i, 0 < (m.cpu i).entries → (m.cpu i).holds = true
  owner : ∀ i : Fin n, m.shared.owner = i + 1 → (m.cpu i).holds = true
  writer : ∀ i call p, (m.cpu i).running = some (call, p) → p.WritesDepth → (m.cpu i).holds = true
  depth : ∀ i, (m.cpu i).running = none → (m.depth i).toNat = (m.cpu i).entries
  inside : ∀ i, (m.cpu i).running = none → (m.cpu i).holds = true →
    m.shared.depth.toNat = (m.cpu i).entries
  /-- a processor outside changes nothing with a call that gives up the lock -/
  outside : ∀ i call p, (m.cpu i).running = some (call, p) → call.Gives →
    (m.cpu i).holds = false →
    m.step i = { m with cpu := Function.update m.cpu i ((m.cpu i).ret call 0) }
  /-- `between` are calls a processor makes while it is suspended -/
  resumed : ∀ i r result between earlier,
    (m.cpu i).history = ⟨.resume r, result⟩ :: (between ++ ⟨.suspend, r⟩ :: earlier) →
    unmatched (between ++ ⟨.suspend, r⟩ :: earlier) = 0 →
    (m.cpu i).entries = unmatched earlier

/-- No entry is nested into a full counter. -/
def Uncrowded {n : Nat} (m : Machine n) (i : Fin n) : Call → Prop
  | .enter | .tryEnter => m.depth i ≠ 0xFFFFFFFF
  | _ => True

/-! ## One processor -/

/-- Every `suspend` returned the number of entries it found. -/
def Faithful : List Return → Prop
  | [] => True
  | r :: earlier =>
      (r.call = .suspend → r.result.toNat = unmatched earlier) ∧ Faithful earlier

/-- Inside, with the counter in step. -/
structure Held (s : Shared) (me : Nat) (c : Cpu) : Prop where
  holds : c.holds = true
  owner : s.owner = me
  pos : 0 < c.entries
  depth : s.depth.toNat = c.entries

structure Away (s : Shared) (me : Nat) (c : Cpu) : Prop where
  holds : c.holds = false
  owner : s.owner ≠ me
  entries : c.entries = 0

/-- Calls that may take the lock. -/
def Call.Takes : Call → Prop
  | .enter | .tryEnter => True
  | .resume d => d ≠ 0
  | _ => False

/-- The counter has room for what the call adds to it. -/
def Call.Room (depth : UInt32) : Call → Prop
  | .enter | .tryEnter => depth ≠ 0xFFFFFFFF
  | _ => True

/-- The value is what the call has to store to `s_depth`. -/
def Call.Stores (c : Cpu) (value : UInt32) : Call → Prop
  | .enter | .tryEnter => value.toNat = c.entries + 1
  | .resume d => d ≠ 0
  | .leave => value.toNat = c.entries - 1
  | .setDepth d => value = d ∧ d ≠ 0
  | _ => False

/-- The call leaves no entry and returns `result`. -/
def Call.Empties (c : Cpu) (result : UInt32) (call : Call) : Prop :=
  call.count result c.entries = 0 ∧ (call = .suspend → result.toNat = c.entries)

def PointOk (s : Shared) (me : Nat) (c : Cpu) (call : Call) : Point → Prop
  | .loadOwner => (Held s me c ∧ call.Room s.depth ∨ Away s me c) ∧ call ≠ .resume 0
  | .loadLocked => Away s me c ∧ call = .tryEnter
  | .testAndSet | .spin => Away s me c ∧ call.Takes
  | .storeOwner => c.holds = true ∧ s.owner ≠ me ∧ c.entries = 0 ∧ call.Takes
  | .storeDepthOne => c.holds = true ∧ s.owner = me ∧ c.entries = 0 ∧ call.Takes
  | .readDepth => Held s me c ∧ call.Room s.depth ∧ (call.Takes ∨ call = .leave ∨ call = .suspend)
  | .storeDepth value => Held s me c ∧ call.Stores c value
  | .storeSaved value => c.holds = true ∧ s.owner = me ∧ call = .resume value ∧ value ≠ 0
  | .clearOwner result => c.holds = true ∧ s.owner = me ∧ call.Empties c result
  | .clearDepth result | .clearLocked result =>
      c.holds = true ∧ s.owner ≠ me ∧ call.Empties c result

/-- What holds of one processor between any two accesses. -/
structure CpuOk (s : Shared) (me : Nat) (c : Cpu) : Prop where
  faithful : Faithful c.history
  idle : c.running = none → Held s me c ∨ Away s me c
  point : ∀ call p, c.running = some (call, p) → PointOk s me c call p

section

variable {s s' : Shared} {me : Nat} {c : Cpu} {call : Call} {p : Point} {result : UInt32}

/-- Who is outside is not inside. -/
theorem Cpu.not_holds {q : Prop} (hout : c.holds = false) (hin : c.holds) : q :=
  absurd (hin.symm.trans hout) nofun

theorem CpuOk.goto (hf : Faithful c.history) (h : PointOk s me (c.goto call p) call p) :
    CpuOk s me (c.goto call p) :=
  ⟨hf, nofun, fun _ _ heq => by cases heq; exact h⟩

theorem CpuOk.ret (hf : Faithful c.history) (hresult : call = .suspend → result.toNat = c.entries)
    (h : Held s me (c.ret call result) ∨ Away s me (c.ret call result)) :
    CpuOk s me (c.ret call result) :=
  ⟨⟨hresult, hf⟩, fun _ => h, nofun⟩

theorem Away.goto (h : Away s me c) (call : Call) (p : Point) : Away s me (c.goto call p) :=
  { h with }

theorem Held.goto (h : Held s me c) (call : Call) (p : Point) : Held s me (c.goto call p) :=
  { h with }

@[simp]
theorem Cpu.entries_ret (c : Cpu) (call : Call) (result : UInt32) :
    (c.ret call result).entries = call.count result c.entries :=
  rfl

/-- A call that counts nothing returns to the outside. -/
theorem Away.ret (h : Away s me c) (hcount : call.count result c.entries = 0) :
    Away s me (c.ret call result) :=
  ⟨h.holds, h.owner, hcount⟩

/-! ### Counting in 32 bits -/

theorem toNat_succ {d : UInt32} (h : d ≠ 0xFFFFFFFF) : (d + 1).toNat = d.toNat + 1 := by
  have hne : d.toNat ≠ 4294967295 := fun heq => h (UInt32.toNat_inj.1 heq)
  have hlt := d.toNat_lt
  rw [UInt32.toNat_add, UInt32.toNat_one, Nat.mod_eq_of_lt (by omega)]

theorem toNat_pred {d : UInt32} (h : 0 < d.toNat) : (d - 1).toNat = d.toNat - 1 :=
  UInt32.toNat_sub_of_le d 1 (UInt32.le_iff_toNat_le.2 h)

theorem toNat_pos {d : UInt32} (h : d ≠ 0) : 0 < d.toNat :=
  Nat.pos_of_ne_zero fun heq => h (UInt32.toNat_inj.1 heq)

/-! ### The accesses -/

section

variable (hf : Faithful c.history)

include hf

theorem CpuOk.mine (h : Held s me c)
    (hroom : call.Room s.depth) (hcall : call ≠ .resume 0) : CpuOk s me (c.mine call) := by
  cases call with
  | enter | tryEnter => exact .goto hf ⟨h.goto _ _, hroom, .inl trivial⟩
  | leave => exact .goto hf ⟨h.goto _ _, hroom, .inr (.inl rfl)⟩
  | suspend => exact .goto hf ⟨h.goto _ _, hroom, .inr (.inr rfl)⟩
  | resume d =>
    exact .goto hf ⟨h.goto _ _, hroom, .inl (by rintro rfl; exact hcall rfl)⟩
  | releaseAll => exact .goto hf ⟨h.holds, h.owner, rfl, nofun⟩
  | setDepth d =>
    by_cases hd : d = 0
    · rw [Cpu.mine, if_pos hd]
      exact .goto hf ⟨h.holds, h.owner, by simp [Call.count, hd], nofun⟩
    · rw [Cpu.mine, if_neg hd]
      exact .goto hf ⟨h.goto _ _, rfl, hd⟩

theorem CpuOk.notMine (h : Away s me c)
    (hcall : call ≠ .resume 0) : CpuOk s me (c.notMine call) := by
  cases call with
  | enter => exact .goto hf ⟨h.goto _ _, trivial⟩
  | tryEnter => exact .goto hf ⟨h.goto _ _, rfl⟩
  | resume d => exact .goto hf ⟨h.goto _ _, by rintro rfl; exact hcall rfl⟩
  | leave => exact .ret hf nofun (.inr (h.ret (by simp [Call.count, h.entries])))
  | releaseAll => exact .ret hf nofun (.inr (h.ret rfl))
  | suspend => exact .ret hf (fun _ => h.entries.symm) (.inr (h.ret rfl))
  | setDepth d => exact .ret hf nofun (.inr (h.ret (by simp [Call.count, h.entries])))

theorem CpuOk.haveRead (h : Held s me c)
    (hroom : call.Room s.depth) (hcall : call.Takes ∨ call = .leave ∨ call = .suspend) :
    CpuOk s me (c.haveRead s.depth call) := by
  have hpos : 0 < s.depth.toNat := by
    rw [h.depth]
    exact h.pos
  cases call with
  | enter | tryEnter => exact .goto hf ⟨h.goto _ _, (toNat_succ hroom).trans (by rw [h.depth]; rfl)⟩
  | leave => exact .goto hf ⟨h.goto _ _, (toNat_pred hpos).trans (by rw [h.depth]; rfl)⟩
  | resume d =>
    have hd : d ≠ 0 := hcall.resolve_right (by simp)
    exact .goto hf ⟨h.goto _ _, hd⟩
  | suspend =>
    have hne : s.depth ≠ 0 := by
      intro heq
      rw [heq] at hpos
      exact absurd hpos (by decide)
    rw [Cpu.haveRead, if_neg hne]
    exact .goto hf ⟨h.holds, h.owner, rfl, fun _ => h.depth⟩
  | releaseAll | setDepth => simp [Call.Takes] at hcall

theorem CpuOk.stored (h : Held s me c) {value : UInt32}
    (hvalue : call.Stores c value) : CpuOk { s with depth := value } me (c.stored value call) := by
  have hin : ∀ {result : UInt32}, 0 < value.toNat → call.count result c.entries = value.toNat →
      Held { s with depth := value } me (c.ret call result) := by
    intro result hpos hcount
    have hentries : (c.ret call result).entries = value.toNat := hcount
    exact ⟨h.holds, h.owner, by omega, hentries.symm⟩
  cases call with
  | enter | tryEnter =>
    have hpos : 0 < value.toNat := Nat.lt_of_lt_of_eq (Nat.succ_pos _) hvalue.symm
    exact .ret hf nofun (.inl (hin hpos hvalue.symm))
  | resume d => exact .goto hf ⟨h.holds, h.owner, rfl, hvalue⟩
  | leave =>
    by_cases hzero : value = 0
    · subst hzero
      exact .goto hf ⟨h.holds, h.owner, hvalue.symm, nofun⟩
    · have hmore : c.stored value .leave = c.ret .leave 0 := if_neg hzero
      rw [hmore]
      exact .ret hf nofun (.inl (hin (toNat_pos hzero) hvalue.symm))
  | setDepth d =>
    obtain ⟨rfl, hd⟩ := hvalue
    exact .ret hf nofun (.inl (hin (toNat_pos hd) (if_neg h.pos.ne')))
  | releaseAll | suspend => exact hvalue.elim

end

/-- What an access does to the shared words and to who is inside. -/
inductive Effect (me : Nat) (s : Shared) (c : Cpu) : Shared → Cpu → Prop
  | quiet {c' : Cpu} (h : c'.holds = c.holds) : Effect me s c s c'
  | take {c' : Cpu} (hfree : s.locked = false) (h : c'.holds = true) :
      Effect me s c { s with locked := true } c'
  | write {owner : Nat} {depth : UInt32} {c' : Cpu} (hin : c.holds = true)
      (h : c'.holds = true) (howner : owner = s.owner ∨ owner = me ∨ owner = 0) :
      Effect me s c { s with owner := owner, depth := depth } c'
  | release {c' : Cpu} (hin : c.holds = true) (h : c'.holds = false) :
      Effect me s c { s with locked := false } c'

theorem Cpu.mine_holds (call : Call) : (c.mine call).holds = c.holds := by
  unfold Cpu.mine
  split <;> (try split) <;> rfl

theorem Cpu.notMine_holds (call : Call) : (c.notMine call).holds = c.holds := by
  cases call <;> rfl

theorem Cpu.haveRead_holds (value : UInt32) (call : Call) :
    (c.haveRead value call).holds = c.holds := by
  unfold Cpu.haveRead
  split <;> (try split) <;> rfl

theorem Cpu.stored_holds (value : UInt32) (call : Call) :
    (c.stored value call).holds = c.holds := by
  cases call with
  | leave =>
    change (if value = 0 then c.goto .leave (.clearOwner 0) else c.ret .leave 0).holds = c.holds
    split <;> rfl
  | _ => rfl

theorem Cpu.refused_holds (call : Call) : (c.refused call).holds = c.holds := by
  unfold Cpu.refused
  split <;> rfl

theorem access_effect (h : PointOk s me c call p) :
    Effect me s c (access me s c call p).1 (access me s c call p).2 := by
  cases p with
  | loadOwner =>
    refine .quiet ?_
    unfold access
    dsimp only
    split
    · exact c.mine_holds call
    · exact c.notMine_holds call
  | loadLocked => exact .quiet (by unfold access; dsimp only; split <;> rfl)
  | testAndSet =>
    obtain ⟨locked, owner, depth⟩ := s
    cases locked with
    | false => exact .take rfl rfl
    | true => exact .quiet (c.refused_holds call)
  | spin => exact .quiet (by unfold access; dsimp only; split <;> rfl)
  | storeOwner => exact .write h.1 h.1 (.inr (.inl rfl))
  | storeDepthOne => exact .write h.1 ((c.stored_holds 1 call).trans h.1) (.inl rfl)
  | readDepth => exact .quiet (c.haveRead_holds s.depth call)
  | storeDepth value =>
    exact .write h.1.holds ((c.stored_holds value call).trans h.1.holds) (.inl rfl)
  | storeSaved value => exact .write h.1 h.1 (.inl rfl)
  | clearOwner result => exact .write h.1 h.1 (.inr (.inr rfl))
  | clearDepth result => exact .write h.1 h.1 (.inl rfl)
  | clearLocked result => exact .release h.1 rfl

/-- The accesses keep what holds of the processor that makes them. -/
theorem CpuOk.access (hf : Faithful c.history)
    (h : PointOk s me c call p) (hrun : c.running = some (call, p)) (hme : me ≠ 0) :
    CpuOk (access me s c call p).1 me (access me s c call p).2 := by
  cases p with
  | loadOwner =>
    obtain ⟨hheld | haway, hcall⟩ := h
    · rw [KernelLock.access, if_pos hheld.1.owner]
      exact .mine hf hheld.1 hheld.2 hcall
    · rw [KernelLock.access, if_neg haway.owner]
      exact .notMine hf haway hcall
  | loadLocked =>
    obtain ⟨haway, rfl⟩ := h
    unfold KernelLock.access
    dsimp only
    split
    · exact .ret hf nofun (.inr (haway.ret haway.entries))
    · exact .goto hf ⟨haway.goto _ _, trivial⟩
  | testAndSet =>
    obtain ⟨haway, htakes⟩ := h
    have haway' : Away { s with locked := true } me c := { haway with }
    cases hlocked : s.locked with
    | false =>
      rw [KernelLock.access, hlocked]
      refine ⟨hf, nofun, fun _ _ heq => ?_⟩
      cases heq
      exact ⟨rfl, haway.owner, haway.entries, htakes⟩
    | true =>
      rw [KernelLock.access, hlocked, if_pos rfl]
      cases call with
      | tryEnter => exact .ret hf nofun (.inr (haway'.ret haway.entries))
      | enter => exact .goto hf ⟨haway'.goto _ _, trivial⟩
      | resume d => exact .goto hf ⟨haway'.goto _ _, htakes⟩
      | leave | releaseAll | setDepth | suspend => exact htakes.elim
  | spin =>
    unfold KernelLock.access
    dsimp only
    split
    · exact ⟨hf, fun hidle => absurd (hidle.symm.trans hrun) nofun, fun _ _ heq => by
        cases hrun.symm.trans heq; exact h⟩
    · exact .goto hf ⟨h.1.goto _ _, h.2⟩
  | storeOwner =>
    obtain ⟨hholds, -, hnone, htakes⟩ := h
    exact .goto hf ⟨hholds, rfl, hnone, htakes⟩
  | storeDepthOne =>
    obtain ⟨hholds, howner, hnone, htakes⟩ := h
    cases call with
    | enter =>
      have hone : (c.ret .enter 0).entries = 1 := by simp [Call.count, hnone]
      exact .ret hf nofun (.inl ⟨hholds, howner, by omega, hone.symm⟩)
    | tryEnter =>
      have hone : (c.ret .tryEnter 1).entries = 1 := by simp [Call.count, hnone]
      exact .ret hf nofun (.inl ⟨hholds, howner, by omega, hone.symm⟩)
    | resume d => exact .goto hf ⟨hholds, howner, rfl, htakes⟩
    | leave | releaseAll | setDepth | suspend => exact htakes.elim
  | readDepth => exact .haveRead hf h.1 h.2.1 h.2.2
  | storeDepth value => exact .stored hf h.1 h.2
  | storeSaved value =>
    obtain ⟨hholds, howner, rfl, hvalue⟩ := h
    have hcount : (c.ret (.resume value) 0).entries = value.toNat := if_neg hvalue
    exact .ret hf nofun (.inl ⟨hholds, howner, by rw [hcount]; exact toNat_pos hvalue, hcount.symm⟩)
  | clearOwner result => exact .goto hf ⟨h.1, hme.symm, h.2.2⟩
  | clearDepth result => exact .goto hf ⟨h.1, h.2.1, h.2.2⟩
  | clearLocked result =>
    obtain ⟨-, howner, hcount, hresult⟩ := h
    exact ⟨⟨hresult, hf⟩, fun _ => .inr ⟨rfl, howner, hcount⟩, nofun⟩

/-- Who is outside stays so, whatever the others write. -/
theorem PointOk.outside (h : PointOk s me c call p) (hout : c.holds = false) :
    Away s me c ∧ ∀ s', Away s' me c → PointOk s' me c call p := by
  cases p with
  | loadOwner =>
    obtain ⟨hheld | haway, hcall⟩ := h
    · exact Cpu.not_holds hout hheld.1.holds
    · exact ⟨haway, fun _ haway' => ⟨.inr haway', hcall⟩⟩
  | loadLocked | testAndSet | spin => exact ⟨h.1, fun _ haway' => ⟨haway', h.2⟩⟩
  | readDepth | storeDepth => exact Cpu.not_holds hout h.1.holds
  | _ => exact Cpu.not_holds hout h.1

/-- Who does not hold the lock is not named in `s_owner` and has no entry. -/
theorem CpuOk.away (h : CpuOk s me c) (hout : c.holds = false) : Away s me c := by
  cases hrun : c.running with
  | none => exact (h.idle hrun).elim (fun hheld => Cpu.not_holds hout hheld.holds) id
  | some at' => exact ((h.point at'.1 at'.2 hrun).outside hout).1

/-- A processor outside does not notice what another one writes. -/
theorem CpuOk.frame (h : CpuOk s me c) (hout : c.holds = false)
    (howner : s'.owner ≠ me) : CpuOk s' me c := by
  have haway : Away s' me c := ⟨hout, howner, (h.away hout).entries⟩
  exact ⟨h.faithful, fun _ => .inr haway, fun call p hrun =>
    ((h.point call p hrun).outside hout).2 s' haway⟩

theorem CpuOk.writer (h : PointOk s me c call p) (hwrites : p.WritesDepth) : c.holds := by
  cases p with
  | storeDepth value => exact h.1.holds
  | storeDepthOne | storeSaved | clearDepth => exact h.1
  | _ => exact hwrites.elim

/-- A call that gives up the lock is at its first access when its processor is
outside, and returns from it. -/
theorem access_outside (h : PointOk s me c call p) (hgives : call.Gives)
    (hout : c.holds = false) : access me s c call p = (s, c.ret call 0) := by
  cases p with
  | loadOwner =>
    rw [access, if_neg (h.outside hout).1.owner]
    cases call with
    | leave | releaseAll | suspend => rfl
    | _ => exact hgives.elim
  | loadLocked =>
    cases h.2
    exact hgives.elim
  | testAndSet | spin =>
    cases call with
    | leave | releaseAll | suspend => exact h.2.elim
    | _ => exact hgives.elim
  | readDepth | storeDepth => exact Cpu.not_holds hout h.1.holds
  | _ => exact Cpu.not_holds hout h.1

end

/-! ## All processors -/

/-- What holds between any two accesses. -/
structure MachineOk {n : Nat} (m : Machine n) : Prop where
  exclusive : ∀ i j, (m.cpu i).holds = true → (m.cpu j).holds = true → i = j
  locked : ∀ i, (m.cpu i).holds = true → m.shared.locked = true
  cpus : ∀ i : Fin n, CpuOk m.shared (i + 1) (m.cpu i)

theorem MachineOk.boot (n : Nat) : MachineOk (.boot n) :=
  ⟨nofun, nofun, fun _ => ⟨trivial, fun _ => .inr ⟨rfl, nofun, rfl⟩, nofun⟩⟩

section

variable {n : Nat} {m : Machine n} {i : Fin n}

/-- When all others are outside, one processor may take, change and give back
the lock. -/
theorem MachineOk.alone {s' : Shared} {c' : Cpu} (h : MachineOk m)
    (hout : ∀ j, j ≠ i → (m.cpu j).holds = false)
    (howner : ∀ j : Fin n, j ≠ i → s'.owner ≠ j + 1) (hlocked : c'.holds → s'.locked)
    (hc' : CpuOk s' (i + 1) c') :
    MachineOk { shared := s', cpu := Function.update m.cpu i c' } := by
  have honly : ∀ j, (Function.update m.cpu i c' j).holds → j = i := by
    intro j hj
    by_contra hji
    rw [Function.update_of_ne hji, hout j hji] at hj
    cases hj
  refine ⟨fun j k hj hk => (honly j hj).trans (honly k hk).symm, fun j hj => ?_, ?_⟩
  · cases honly j hj
    dsimp only at hj
    rw [Function.update_self] at hj
    exact hlocked hj
  · exact (Function.forall_update_iff m.cpu fun (j : Fin n) c => CpuOk s' (j + 1) c).2
      ⟨hc', fun j hj => (h.cpus j).frame (hout j hj) (howner j hj)⟩

/-- A step that changes no shared word. -/
theorem MachineOk.update {c' : Cpu} (h : MachineOk m) (hsame : c'.holds = (m.cpu i).holds)
    (hc' : CpuOk m.shared (i + 1) c') : MachineOk { m with cpu := Function.update m.cpu i c' } := by
  have hold : ∀ j, (Function.update m.cpu i c' j).holds = (m.cpu j).holds :=
    (Function.forall_update_iff m.cpu fun j c => c.holds = (m.cpu j).holds).2
      ⟨hsame, fun _ _ => rfl⟩
  refine ⟨fun j k hj hk => ?_, fun j hj => ?_, ?_⟩
  · exact h.exclusive j k ((hold j).symm.trans hj) ((hold k).symm.trans hk)
  · exact h.locked j ((hold j).symm.trans hj)
  · exact (Function.forall_update_iff m.cpu fun (j : Fin n) c => CpuOk m.shared (j + 1) c).2
      ⟨hc', fun j _ => h.cpus j⟩

/-- An access of one processor keeps what holds of all. -/
theorem MachineOk.effect {s' : Shared} {c' : Cpu} (h : MachineOk m)
    (heffect : Effect (i + 1) m.shared (m.cpu i) s' c') (hc' : CpuOk s' (i + 1) c') :
    MachineOk { shared := s', cpu := Function.update m.cpu i c' } := by
  have hout : (m.cpu i).holds → ∀ j, j ≠ i → (m.cpu j).holds = false := by
    intro hi j hj
    rw [← Bool.not_eq_true]
    exact fun hjin => hj (h.exclusive j i hjin hi)
  cases heffect with
  | quiet hsame => exact h.update hsame hc'
  | take hfree hin =>
    have hnone : ∀ j, (m.cpu j).holds = false := by
      intro j
      rw [← Bool.not_eq_true]
      exact fun hj => absurd (hfree.symm.trans (h.locked j hj)) nofun
    exact h.alone (fun j _ => hnone j) (fun j _ => ((h.cpus j).away (hnone j)).owner)
      (fun _ => rfl) hc'
  | write hi hin howner =>
    refine h.alone (hout hi) (fun j hj => ?_) (fun _ => h.locked i hi) hc'
    rcases howner with rfl | rfl | rfl
    · exact ((h.cpus j).away (hout hi j hj)).owner
    · dsimp only
      omega
    · exact nofun
  | release hi hnot =>
    exact h.alone (hout hi) (fun j hj => ((h.cpus j).away (hout hi j hj)).owner)
      (fun hin => absurd (hin.symm.trans hnot) nofun) hc'

theorem MachineOk.step (h : MachineOk m) (i : Fin n) : MachineOk (m.step i) := by
  unfold Machine.step
  cases hrun : (m.cpu i).running with
  | none => exact h
  | some at' =>
    have hp := (h.cpus i).point at'.1 at'.2 hrun
    exact h.effect (access_effect hp)
      (.access (h.cpus i).faithful hp hrun (Nat.succ_ne_zero i))

theorem Uncrowded.room {call : Call} (h : Uncrowded m i call)
    (howner : m.shared.owner = i + 1) : call.Room m.shared.depth := by
  cases call with
  | enter | tryEnter =>
    unfold Uncrowded Machine.depth at h
    rwa [if_pos howner] at h
  | _ => trivial

theorem MachineOk.call (h : MachineOk m) {call : Call} (hidle : (m.cpu i).running = none)
    (hok : Uncrowded m i call) : MachineOk (m.call i call) := by
  have hrest := (h.cpus i).idle hidle
  have hload : call ≠ .resume 0 →
      MachineOk { m with cpu := Function.update m.cpu i ((m.cpu i).goto call .loadOwner) } := by
    intro hcall
    refine h.update rfl (.goto (h.cpus i).faithful ⟨?_, hcall⟩)
    exact hrest.imp (fun hheld => ⟨hheld.goto _ _, hok.room hheld.owner⟩)
      fun haway => haway.goto _ _
  cases call with
  | resume d =>
    unfold Machine.call Cpu.start
    dsimp only
    split_ifs with hzero
    · have hcount : ((m.cpu i).ret (.resume d) 0).entries = (m.cpu i).entries := if_pos hzero
      refine h.update rfl (.ret (h.cpus i).faithful nofun (hrest.imp ?_ ?_))
      · exact fun hheld => ⟨hheld.holds, hheld.owner, hcount ▸ hheld.pos, hcount ▸ hheld.depth⟩
      · exact fun haway => haway.ret (hcount.trans haway.entries)
    · exact hload fun heq => hzero (Call.resume.inj heq)
  | _ => exact hload nofun

/-! ## The lock -/

theorem Reached.machineOk (h : Reached Uncrowded m) : MachineOk m := by
  induction h with
  | boot => exact .boot n
  | call _ hidle hok ih => exact ih.call hidle hok
  | step _ ih => exact ih.step _

/-- What a processor finds after it resumed is what it had when it was
suspended. -/
theorem Faithful.resumed {r result : UInt32} {between earlier : List Return}
    (h : Faithful (⟨.resume r, result⟩ :: (between ++ ⟨.suspend, r⟩ :: earlier)))
    (hout : unmatched (between ++ ⟨.suspend, r⟩ :: earlier) = 0) :
    unmatched (⟨.resume r, result⟩ :: (between ++ ⟨.suspend, r⟩ :: earlier)) =
      unmatched earlier := by
  have hsuspend : Faithful (⟨.suspend, r⟩ :: earlier) := by
    have htail := h.2
    clear h hout
    induction between with
    | nil => exact htail
    | cons b between ih => exact ih htail.2
  have hr : r.toNat = unmatched earlier := hsuspend.1 rfl
  change (if r = 0 then unmatched (between ++ ⟨.suspend, r⟩ :: earlier) else r.toNat) = _
  split
  · rename_i hzero
    rw [hout, ← hr, hzero]
    rfl
  · exact hr

/-- **Mutual exclusion with exact nesting, in every interleaving in which no
entry is nested into a full counter.** -/
theorem lock_exact (h : Reached Uncrowded m) : Exact m := by
  have hm := h.machineOk
  refine ⟨hm.exclusive, fun i hpos => ?_, fun i howner => ?_, fun i call p hrun => ?_,
    fun i hidle => ?_, fun i hidle hin => ?_, fun i call p hrun hgives hout => ?_,
    fun i r result between earlier hhistory hout => ?_⟩
  · by_contra hnot
    exact hpos.ne' ((hm.cpus i).away (Bool.not_eq_true _ ▸ hnot)).entries
  · by_contra hnot
    exact ((hm.cpus i).away (Bool.not_eq_true _ ▸ hnot)).owner howner
  · exact CpuOk.writer ((hm.cpus i).point call p hrun)
  · unfold Machine.depth
    rcases (hm.cpus i).idle hidle with hheld | haway
    · rw [if_pos hheld.owner]
      exact hheld.depth
    · rw [if_neg haway.owner]
      exact haway.entries.symm
  · rcases (hm.cpus i).idle hidle with hheld | haway
    · exact hheld.depth
    · exact absurd (hin.symm.trans haway.holds) nofun
  · unfold Machine.step
    rw [hrun]
    dsimp only
    rw [access_outside ((hm.cpus i).point call p hrun) hgives hout]
  · have hfaithful := (hm.cpus i).faithful
    unfold Cpu.entries
    rw [hhistory] at hfaithful ⊢
    exact hfaithful.resumed hout

end

/-! ## Runs that can be played -/

section

variable {n : Nat} (ok : Machine n → Fin n → Call → Prop) [∀ m i call, Decidable (ok m i call)]

/-- A processor begins a call or makes its next access. -/
def Machine.play (m : Machine n) : List (Fin n × Option Call) → Option (Machine n)
  | [] => some m
  | (i, none) :: rest => (m.step i).play rest
  | (i, some call) :: rest =>
      if (m.cpu i).running.isNone ∧ ok m i call then (m.call i call).play rest else none

variable {ok}

theorem Reached.play {m m' : Machine n} {moves : List (Fin n × Option Call)} (h : Reached ok m)
    (hplay : m.play ok moves = some m') : Reached ok m' := by
  induction moves generalizing m with
  | nil =>
    cases hplay
    exact h
  | cons move rest ih =>
    obtain ⟨i, _ | call⟩ := move
    · exact ih h.step hplay
    · unfold Machine.play at hplay
      split at hplay
      · rename_i hmay
        exact ih (.call h (Option.isNone_iff_eq_none.1 hmay.1) hmay.2) hplay
      · cases hplay

end

instance {n : Nat} (m : Machine n) (i : Fin n) (call : Call) : Decidable (Uncrowded m i call) :=
  match call with
  | .enter | .tryEnter => inferInstanceAs (Decidable (m.depth i ≠ 0xFFFFFFFF))
  | .leave | .releaseAll | .setDepth _ | .suspend | .resume _ => inferInstanceAs (Decidable True)

/-- The first processor enters twice while the second one tries, waits, and the
first one suspends. -/
def suspended : List (Fin 2 × Option Call) :=
  [(0, some .enter), (1, some .enter), (0, none), (1, none), (0, none), (1, none), (0, none),
    (0, none), (0, some .enter), (0, none), (1, none), (0, none), (0, none), (0, some .suspend),
    (0, none), (0, none), (0, none), (1, none), (0, none), (0, none), (1, none), (1, none),
    (1, none), (1, none)]

theorem lock_exact_suspended :
    ∃ m : Machine 2, Reached Uncrowded m ∧ (m.cpu 0).entries = 0 ∧ (m.cpu 1).entries = 1 ∧
      Exact m := by
  have hplay : ((Machine.boot 2).play Uncrowded suspended).map
      (fun m => ((m.cpu 0).entries, (m.cpu 1).entries)) = some (0, 1) := by decide +kernel
  obtain ⟨m, hm, hentries⟩ := Option.map_eq_some_iff.1 hplay
  have hreached := Reached.play .boot hm
  exact ⟨m, hreached, congrArg Prod.fst hentries, congrArg Prod.snd hentries, lock_exact hreached⟩

/-- One processor sets its depth to the largest value and enters once more. -/
def crowded : List (Fin 1 × Option Call) :=
  [(0, some .enter), (0, none), (0, none), (0, none), (0, none),
    (0, some (.setDepth 0xFFFFFFFF)), (0, none), (0, none),
    (0, some .enter), (0, none), (0, none), (0, none)]

/-- The counter reads 0 for a processor that is inside. -/
theorem nested_entry_wraps :
    ¬ ∀ (n : Nat) (m : Machine n), Reached (fun _ _ _ => True) m → Exact m := by
  intro hall
  have hplay : ((Machine.boot 1).play (fun _ _ _ => True) crowded).map
      (fun m => ((m.cpu 0).running.isNone, (m.depth 0).toNat, (m.cpu 0).entries)) =
      some (true, 0, 4294967296) := by decide +kernel
  obtain ⟨m, hm, hend⟩ := Option.map_eq_some_iff.1 hplay
  simp only [Prod.mk.injEq, Option.isNone_iff_eq_none] at hend
  have hdepth := (hall 1 m (.play .boot hm)).depth 0 hend.1
  rw [hend.2.1, hend.2.2] at hdepth
  cases hdepth

end InstantOS.KernelLock
