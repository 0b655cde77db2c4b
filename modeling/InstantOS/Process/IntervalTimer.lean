import InstantOS.Base.Words

/-!
# Interval timers

`sys_setitimer` and `sys_getitimer` of `cpu/syscall/proc.cpp`.  Of user memory the model has
what the copies come to: `none` is a null pointer and `some none` or `some false` a failed copy.
-/

namespace InstantOS.Itimer

open BitVec

structure KernelTimeval where
  seconds : Word
  microseconds : Word

structure KernelItimerval where
  interval : KernelTimeval
  value : KernelTimeval

/-- `alarmDeadlineMs` and `alarmIntervalMs` of a process. -/
structure Alarm where
  deadlineMs : Word
  intervalMs : Word

def timevalToMs (tv : KernelTimeval) : Word :=
  tv.seconds * 1000#64 + (tv.microseconds + 999#64) / 1000#64

def msToTimeval (ms : Word) : KernelTimeval := ⟨ms / 1000#64, ms % 1000#64 * 1000#64⟩

def currentItimer (now : Word) (p : Alarm) : KernelItimerval :=
  ⟨msToTimeval p.intervalMs, msToTimeval <|
    if now < p.deadlineMs then p.deadlineMs - now else if p.deadlineMs ≠ 0#64 then 1#64 else 0#64⟩

/-- The test of one `timeval`; the fields are signed. -/
def KernelTimeval.valid (tv : KernelTimeval) : Bool :=
  0 ≤ tv.seconds.toInt && 0 ≤ tv.microseconds.toInt && tv.microseconds.toInt < 1000000

def setAlarm (now : Word) (next : KernelItimerval) : Alarm :=
  let ms := timevalToMs next.value
  ⟨if ms ≠ 0#64 then now + ms else 0#64, if ms ≠ 0#64 then timevalToMs next.interval else 0#64⟩

/-- `sys_setitimer`: the new alarm and the old value for the caller, or `SysErrInvalid`. -/
def sysSetitimer (now : Word) (p : Alarm) (which : Word)
    (newValue : Option (Option KernelItimerval)) (oldValue : Option Bool) :
    Option (Alarm × Option KernelItimerval) :=
  match newValue.getD (some ⟨⟨0#64, 0#64⟩, ⟨0#64, 0#64⟩⟩) with
  | none => none
  | some next =>
    if which = 0#64 ∧ next.value.valid ∧ next.interval.valid ∧ oldValue.getD true then
      some (if newValue.isNone then p else setAlarm now next,
        oldValue.map fun _ => currentItimer now p)
    else none

def sysGetitimer (now : Word) (p : Alarm) (which : Word) (copied : Bool) :
    Option KernelItimerval :=
  if which = 0#64 ∧ copied then some (currentItimer now p) else none

/-- A time in microseconds, for fields that are not negative. -/
def KernelTimeval.micros (tv : KernelTimeval) : Nat :=
  tv.seconds.toNat * 1000000 + tv.microseconds.toNat

/-- The time in milliseconds, rounded up. -/
def KernelTimeval.millis (tv : KernelTimeval) : Nat := (tv.micros + 999) / 1000

theorem KernelTimeval.valid_iff (tv : KernelTimeval) :
    tv.valid ↔ tv.seconds.toNat < 2 ^ 63 ∧ tv.microseconds.toNat < 1000000 := by
  simp only [valid, Bool.and_eq_true, decide_eq_true_eq, toInt_eq_toNat_cond]
  split <;> split <;> omega

theorem timevalToMs_toNat {tv : KernelTimeval} (h : tv.valid) :
    (timevalToMs tv).toNat = tv.millis % 2 ^ 64 := by
  have hu := tv.valid_iff.mp h
  simp only [timevalToMs, KernelTimeval.millis, KernelTimeval.micros, toNat_add,
    toNat_mul, toNat_udiv, toNat_ofNat, Nat.reducePow, Nat.reduceMod]
  omega

theorem msToTimeval_micros (ms : Word) : (msToTimeval ms).micros = ms.toNat * 1000 := by
  simp only [msToTimeval, KernelTimeval.micros, toNat_mul, toNat_udiv,
    toNat_umod, toNat_ofNat, Nat.reducePow, Nat.reduceMod]
  omega

/-- What a caller that asked for `next` may rely on: the alarm is on and no earlier than asked, it
repeats if that was asked, and `sys_getitimer` reports no less than was asked. -/
structure Honoured (now : Word) (next : KernelItimerval) (p : Alarm) : Prop where
  deadline : now.toNat + next.value.millis ≤ p.deadlineMs.toNat
  repeats : p.intervalMs = 0#64 → next.interval.micros = 0
  reported : ∃ r, sysGetitimer now p 0#64 true = some r ∧ next.value.micros ≤ r.value.micros

/-- **A timer is honoured** if and only if its deadline does not wrap and its interval is not a
non-zero multiple of `2 ^ 64` milliseconds. -/
theorem setitimer_honoured_iff {now which : Word} {p p' : Alarm} {next : KernelItimerval}
    {oldValue : Option Bool} {old : Option KernelItimerval}
    (h : sysSetitimer now p which (some (some next)) oldValue = some (p', old))
    (hvalue : next.value.micros ≠ 0) :
    Honoured now next p' ↔ now.toNat + next.value.millis < 2 ^ 64 ∧
      (next.interval.millis % 2 ^ 64 = 0 → next.interval.micros = 0) := by
  simp only [sysSetitimer, Option.getD_some, Option.isNone_some] at h
  split at h
  · rename_i hvalid
    cases h
    have hms := timevalToMs_toNat hvalid.2.1
    have hinterval := timevalToMs_toNat hvalid.2.2.1
    constructor
    · rintro ⟨hdeadline, hrepeats, -⟩
      refine ⟨Nat.lt_of_le_of_lt hdeadline (isLt _), fun hwraps => hrepeats ?_⟩
      have hzero : timevalToMs next.interval = 0#64 :=
        eq_of_toNat_eq (hinterval.trans hwraps)
      simp [setAlarm, hzero]
    · rintro ⟨hfit, hrepeats⟩
      have hmillis : 0 < next.value.millis ∧ next.value.micros ≤ next.value.millis * 1000 := by
        unfold KernelTimeval.millis
        omega
      rw [Nat.mod_eq_of_lt (by omega)] at hms
      have hne : timevalToMs next.value ≠ 0#64 := by
        intro hzero
        rw [hzero, toNat_zero] at hms
        omega
      have hdeadline : (now + timevalToMs next.value).toNat = now.toNat + next.value.millis := by
        rw [toNat_add, hms, Nat.mod_eq_of_lt hfit]
      have hlater : now < now + timevalToMs next.value := by
        rw [lt_def]
        omega
      simp only [setAlarm, if_pos hne, Bool.false_eq_true, ↓reduceIte]
      refine ⟨Nat.le_of_eq hdeadline.symm, fun hzero => ?_, _, rfl, ?_⟩
      · rw [show timevalToMs next.interval = 0#64 from hzero] at hinterval
        exact hrepeats hinterval.symm
      · simp only [currentItimer, if_pos hlater, msToTimeval_micros]
        rw [BitVec.add_comm, BitVec.add_sub_cancel, hms]
        exact hmillis.2
  · cases h

/-- One and a half seconds, once, at an uptime of 5 ms. -/
theorem setitimer_honoured_sample : Honoured 5#64 ⟨⟨0#64, 0#64⟩, ⟨1#64, 500000#64⟩⟩
    ⟨1505#64, 0#64⟩ := by
  have hcall : sysSetitimer 5#64 ⟨0#64, 0#64⟩ 0#64
      (some (some ⟨⟨0#64, 0#64⟩, ⟨1#64, 500000#64⟩⟩)) none = some (⟨1505#64, 0#64⟩, none) := by rfl
  exact (setitimer_honoured_iff hcall (by decide)).mpr (by decide)

/-- A timer of `2 ^ 61` seconds is accepted and stays off. -/
theorem setitimer_disarms :
    ¬ ∀ (now which : Word) (p p' : Alarm) (next : KernelItimerval) (oldValue : Option Bool)
      (old : Option KernelItimerval), now.toNat < 2 ^ 62 →
      sysSetitimer now p which (some (some next)) oldValue = some (p', old) →
      next.value.micros ≠ 0 → Honoured now next p' := by
  intro h
  exact absurd (h 5#64 0#64 ⟨0#64, 0#64⟩ _ ⟨⟨0#64, 0#64⟩, ⟨0x2000000000000000#64, 0#64⟩⟩ none _
    (by decide) rfl (by decide)).deadline (by decide)

end InstantOS.Itimer
