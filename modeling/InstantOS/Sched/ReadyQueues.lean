import InstantOS.Base.Returns
import InstantOS.Sched.Scheduler

/-!
# What holds of the ready queues

`Sound` relates the pointers to four lists and the lists to the states of the processes.  In
the middle of an operation two things may be unsettled: the process a CPU is about to leave
may already be in a queue, and one process may have become ready without being in its queue
yet.  Two parameters name them.

Some facts hold of orderly runs only, in which no process is killed while it is waiting and
no two processes have one pid: a queued process is ready and, like those that CPUs run and
park, in the list of processes.  The first parameter says whether these are asked for.
-/

namespace InstantOS.Sched

open IntrusiveList Function

/-- The queues `q` of a system.  The process of the CPU `leaving` may be queued, and `loose`
may be ready without being queued. -/
structure Sound (orderly : Prop) (leaving : Option Cpu) (loose : Option Ptr) (s : System)
    (q : ProcessPriority → List Ptr) : Prop where
  lists : Lists s.next s.readyQueues q
  prio : ∀ i p, p ∈ q i → (s.proc p).priority = i
  made : ∀ i p, p ∈ q i → p < s.created
  listed : ∀ p ∈ s.deleted ++ s.all, p < s.created
  placed : ∀ d p, s.current d = some p ∨ s.idle d = some p ∨ s.deferred d = some p → p < s.created
  distinct : (s.deleted ++ s.all).Nodup
  off : ∀ i p, p ∈ q i → (∀ d, leaving ≠ some d → s.current d ≠ some p) ∧
    ∀ d, s.deferred d ≠ some p ∧ s.idle d ≠ some p
  queued : ∀ p ∈ s.all, loose ≠ some p → (s.proc p).state = .ready →
    (∀ d, s.deferred d ≠ some p) → p ∈ q (s.proc p).priority
  running : ∀ d p, leaving ≠ some d → s.current d = some p → s.idle d ≠ some p →
    (s.proc p).state = .running
  single : ∀ d d' p, s.current d = some p → s.current d' = some p → d = d'
  idle : ∀ d p, s.idle d = some p → p ∉ s.all ∧ ∀ d', (s.idle d' = some p → d' = d) ∧
    (s.current d' = some p → d' = d) ∧ s.deferred d' ≠ some p
  awake : orderly → ∀ i p, p ∈ q i → (s.proc p).state = .ready ∧ p ∈ s.all
  held : orderly → ∀ d p, (s.current d = some p → s.idle d = some p ∨ p ∈ s.all) ∧
    (s.deferred d = some p → p ∈ s.all)

theorem parkedOnSomeCpu_iff {s : System} {p : Ptr} :
    parkedOnSomeCpu s p ↔ ∃ d, s.deferred d = some p := by
  simp [parkedOnSomeCpu]

theorem isBusyOnAnyCpu_iff {s : System} {p : Ptr} :
    isBusyOnAnyCpu s p ↔ ∃ d, s.current d = some p ∨ s.deferred d = some p := by
  simp [isBusyOnAnyCpu]

/-- Only the queues differ. -/
def Requeued (s s' : System) : Prop :=
  s' = { s with next := s'.next, readyQueues := s'.readyQueues }

theorem Requeued.refl (s : System) : Requeued s s := rfl

theorem Requeued.relink (s : System) (i : ProcessPriority)
    (links : (Ptr → Option Ptr) × Option Ptr) : Requeued s (s.relink i links) := rfl

namespace Sound

variable {o : Prop} {e : Option Cpu} {x : Option Ptr} {s s' : System}
  {q q' : ProcessPriority → List Ptr}

section

variable (h : Sound o e x s q)

include h

/-- The fuel of a walk covers every queue. -/
theorem length_le (i : ProcessPriority) : (q i).length ≤ s.fuel := by
  have hsub : q i ⊆ List.range s.created := fun p hp => List.mem_range.mpr (h.made i p hp)
  have hle := ((h.lists.nodup i).subperm hsub).length_le
  rwa [List.length_range] at hle

/-- Other queues of the same processes. -/
theorem permute {links : (Ptr → Option Ptr) × Option Ptr}
    {i : ProcessPriority} (hlists : Lists links.1 (update s.readyQueues i links.2) q')
    (hmem : ∀ j p, p ∈ q' j ↔ p ∈ q j) : Sound o e x (s.relink i links) q' :=
  { h with
    lists := hlists
    prio := fun j p hp => h.prio j p ((hmem j p).mp hp)
    made := fun j p hp => h.made j p ((hmem j p).mp hp)
    off := fun j p hp => h.off j p ((hmem j p).mp hp)
    queued := fun p hp hx hready hdef => (hmem _ p).mpr (h.queued p hp hx hready hdef)
    awake := fun ho j p hp => h.awake ho j p ((hmem j p).mp hp) }

/-- No clause reads anything else of a process. -/
theorem setProc {proc : Ptr → Process} {nextPID : Nat}
    (hprio : ∀ p, (proc p).priority = (s.proc p).priority)
    (hstate : ∀ p, (proc p).state = (s.proc p).state) : Sound o e x { s with proc, nextPID } q :=
  { h with
    prio := fun i p hp => (hprio p).trans (h.prio i p hp)
    queued := fun p => by
      rw [hprio, hstate]
      exact h.queued p
    running := fun d p => by
      rw [hstate]
      exact h.running d p
    awake := fun ho i p => by
      rw [hstate]
      exact h.awake ho i p }

/-- Nor of a CPU. -/
theorem setCpus {cpus : Cpu → PerCPU}
    (hcurrent : System.current { s with cpus } = s.current)
    (hidle : System.idle { s with cpus } = s.idle)
    (hdeferred : System.deferred { s with cpus } = s.deferred) : Sound o e x { s with cpus } q := by
  refine { h with
    placed := ?_, off := ?_, queued := ?_, running := ?_, single := ?_, idle := ?_, held := ?_ }
  all_goals simp only [hcurrent, hidle, hdeferred]
  · exact h.placed
  · exact h.off
  · exact h.queued
  · exact h.running
  · exact h.single
  · exact h.idle
  · exact h.held

end

theorem settle (h : Sound o e (some r) s q)
    (hr : r ∈ s.all → (s.proc r).state = .ready → (∀ d, s.deferred d ≠ some r) →
      r ∈ q (s.proc r).priority) : Sound o e none s q :=
  { h with
    queued := fun p hp _ hready hdef => by
      by_cases hpr : r = p
      · subst hpr
        exact hr hp hready hdef
      · exact h.queued p hp (fun heq => hpr (Option.some.inj heq)) hready hdef }

theorem leave (h : Sound o none x s q) (c : Option Cpu) : Sound o c x s q :=
  { h with
    off := fun i p hp => ⟨fun d _ => (h.off i p hp).1 d (by simp), (h.off i p hp).2⟩
    running := fun d p _ => h.running d p (by simp) }

section

variable (h : Sound o e x s q)

include h

/-- The process is not in a queue of another priority. -/
theorem notMem_of_ne {p : Ptr} {j : ProcessPriority}
    (hj : j ≠ (s.proc p).priority) : p ∉ q j := fun hp => hj (h.prio j p hp).symm

/-- In an orderly run a process that is not ready is in no queue. -/
theorem notMem_of_state (ho : o) {p : Ptr}
    (hstate : (s.proc p).state ≠ .ready) (i : ProcessPriority) : p ∉ q i :=
  fun hp => hstate (h.awake ho i p hp).1

/-! ## Changing a process -/

theorem modify_same (p : Ptr) {f : Process → Process}
    (hprio : (f (s.proc p)).priority = (s.proc p).priority)
    (hstate : (f (s.proc p)).state = (s.proc p).state) : Sound o e x (s.modify p f) q :=
  h.setProc (System.modify_keeps s p f hprio) (System.modify_keeps s p f hstate)

/-- A process that no CPU runs but the one that is about to leave it. -/
theorem modify (p : Ptr) (hx : x = none ∨ x = some p) {f : Process → Process}
    (hprio : (f (s.proc p)).priority = (s.proc p).priority)
    (hfree : ∀ d, e ≠ some d → s.current d = some p → s.idle d = some p)
    (hawake : o → (f (s.proc p)).state = .ready ∨ ∀ i, p ∉ q i) :
    Sound o e (some p) (s.modify p f) q := by
  have hother : ∀ a, a ≠ p → (s.modify p f).proc a = s.proc a := fun a ha =>
    update_of_ne ha _ _
  have hsame := System.modify_keeps s p f hprio
  refine { h with
    prio := fun i a ha => (hsame a).trans (h.prio i a ha)
    queued := ?_, running := ?_, awake := ?_ }
  · intro a ha hap hready hdef
    have hne : a ≠ p := fun heq => hap (heq ▸ rfl)
    rw [hother a hne] at hready ⊢
    refine h.queued a ha ?_ hready hdef
    rcases hx with rfl | rfl
    · simp
    · exact hap
  · intro d a hd hcur hidle
    have hne : a ≠ p := by
      rintro rfl
      exact hidle (hfree d hd hcur)
    rw [hother a hne]
    exact h.running d a hd hcur hidle
  · intro ho i a ha
    refine ⟨?_, (h.awake ho i a ha).2⟩
    by_cases hap : a = p
    · subst hap
      rw [System.modify_self]
      exact (hawake ho).resolve_right fun hout => hout i ha
    · rw [hother a hap]
      exact (h.awake ho i a ha).1

end

/-! ## Putting in -/

section

variable (h : Sound o e x s q) {p : Ptr} (hx : x = none ∨ x = some p)

include h p hx

/-- A ready process that is not parked is put into its queue. -/
theorem insert (hready : (s.proc p).state = .ready) (hparked : ∀ d, s.deferred d ≠ some p)
    (hidle : ∀ d, s.idle d ≠ some p) (hp : p < s.created) (hlive : o → p ∈ s.all)
    {links : (Ptr → Option Ptr) × Option Ptr} {l : List Ptr}
    (hlists : Lists links.1 (update s.readyQueues (s.proc p).priority links.2)
      (update q (s.proc p).priority l)) (hl : ∀ a, a ∈ l ↔ a = p ∨ a ∈ q (s.proc p).priority) :
    Sound o e none (s.relink (s.proc p).priority links) (update q (s.proc p).priority l) := by
  have hmem : ∀ j a, a ∈ update q (s.proc p).priority l j ↔
      (a = p ∧ j = (s.proc p).priority) ∨ a ∈ q j := by
    intro j a
    by_cases hj : j = (s.proc p).priority
    · rw [hj, update_self, hl]
      simp
    · simp [hj]
  refine { h with
    lists := hlists, prio := ?_, made := ?_, off := ?_, queued := ?_, awake := ?_ }
  · intro j a ha
    rcases (hmem j a).mp ha with ⟨rfl, rfl⟩ | ha
    · rfl
    · exact h.prio j a ha
  · intro j a ha
    rcases (hmem j a).mp ha with ⟨rfl, rfl⟩ | ha
    · exact hp
    · exact h.made j a ha
  · intro j a ha
    rcases (hmem j a).mp ha with ⟨rfl, rfl⟩ | ha
    · refine ⟨fun d hd hcur => ?_, fun d => ⟨hparked d, hidle d⟩⟩
      rw [h.running d a hd hcur (hidle d)] at hready
      cases hready
    · exact h.off j a ha
  · intro a ha _ hready' hdef
    by_cases hap : a = p
    · exact (hmem _ a).mpr (.inl ⟨hap, hap ▸ rfl⟩)
    refine (hmem _ a).mpr (.inr (h.queued a ha ?_ hready' hdef))
    rcases hx with rfl | rfl
    · simp
    · exact fun heq => hap (Option.some.inj heq).symm
  · intro ho j a ha
    rcases (hmem j a).mp ha with ⟨rfl, rfl⟩ | ha
    · exact ⟨hready, hlive ho⟩
    · exact h.awake ho j a ha

/-- What both ways of adding to a queue do. -/
theorem addWith {put : ProcessPriority → Option System}
    (hput : (s.proc p).state = .ready → (∀ d, s.deferred d ≠ some p) → (∀ j, p ∉ q j) →
      Returns (put (s.proc p).priority) fun s' => Requeued s s' ∧ ∃ q', Sound o e none s' q') :
    Returns (Sched.addWith s p put) fun s' => Requeued s s' ∧ ∃ q', Sound o e none s' q' := by
  have hkeep : ((s.proc p).state = .ready → (∀ d, s.deferred d ≠ some p) →
      p ∈ q (s.proc p).priority) → Sound o e none s q := by
    intro hp
    rcases hx with rfl | rfl
    · exact h
    · exact h.settle fun _ => hp
  unfold Sched.addWith
  split
  · rename_i hstate
    exact returns_some ⟨.refl s, q, hkeep fun hready => absurd hready hstate⟩
  rename_i hstate
  split_ifs with hparked
  · obtain ⟨d, hd⟩ := parkedOnSomeCpu_iff.mp hparked
    exact returns_some ⟨.refl s, q, hkeep fun _ hdef => absurd hd (hdef d)⟩
  dsimp only
  rw [contains_eq (h.lists.linked _) (h.length_le _)]
  by_cases hmem : p ∈ q (s.proc p).priority
  · rw [decide_eq_true hmem]
    exact returns_some ⟨.refl s, q, hkeep fun _ _ => hmem⟩
  rw [decide_eq_false hmem]
  refine hput (not_not.mp hstate) (fun d hd => hparked (parkedOnSomeCpu_iff.mpr ⟨d, hd⟩))
    fun j hj => ?_
  have hprio := h.prio j p hj
  exact hmem (hprio ▸ hj)

theorem addToReadyQueue
    (hidle : ∀ d, s.idle d ≠ some p) (hp : p < s.created) (hlive : o → p ∈ s.all) :
    Returns (Sched.addToReadyQueue s p) fun s' => Requeued s s' ∧ ∃ q', Sound o e none s' q' := by
  refine h.addWith hx fun hready hparked hout => ?_
  obtain ⟨links, hlinks, hlists⟩ := h.lists.append hout (h.length_le _)
  rw [hlinks]
  exact returns_some ⟨.relink s _ links, _,
    h.insert hx hready hparked hidle hp hlive hlists fun a => by simp [or_comm]⟩

theorem addToReadyQueueFront
    (hidle : ∀ d, s.idle d ≠ some p) (hp : p < s.created) (hlive : o → p ∈ s.all) :
    Returns (Sched.addToReadyQueueFront s p)
      fun s' => Requeued s s' ∧ ∃ q', Sound o e none s' q' := by
  refine h.addWith hx fun hready hparked hout => ?_
  exact returns_some ⟨.relink s _ _, _,
    h.insert hx hready hparked hidle hp hlive (h.lists.push hout) fun a => by simp⟩

end

/-! ## Taking out -/

theorem removeFromReadyQueue (h : Sound o e none s q) (p : Ptr) :
    Returns (Sched.removeFromReadyQueue s p) fun s' =>
      Requeued s s' ∧ ∃ q', Sound o e (some p) s' q' ∧ ∀ j a, a ∈ q' j ↔ a ≠ p ∧ a ∈ q j := by
  obtain ⟨links, hlinks, hlists⟩ :=
    h.lists.unlink (fun j hj => h.notMem_of_ne hj) (h.length_le (s.proc p).priority)
  have hmem : ∀ j a, a ∈ update q (s.proc p).priority
      ((q (s.proc p).priority).erase p) j ↔ a ≠ p ∧ a ∈ q j := by
    intro j a
    by_cases hj : j = (s.proc p).priority
    · subst hj
      rw [update_self, (h.lists.nodup _).mem_erase_iff]
    rw [update_of_ne hj]
    refine ⟨fun ha => ⟨?_, ha⟩, fun ha => ha.2⟩
    rintro rfl
    exact h.notMem_of_ne hj ha
  unfold Sched.removeFromReadyQueue
  dsimp only
  rw [hlinks]
  refine returns_some ⟨.relink s _ links, _, ?_, hmem⟩
  refine { h with
    lists := hlists, prio := ?_, made := ?_, off := ?_, queued := ?_, awake := ?_ }
  · exact fun j a ha => h.prio j a ((hmem j a).mp ha).2
  · exact fun j a ha => h.made j a ((hmem j a).mp ha).2
  · exact fun j a ha => h.off j a ((hmem j a).mp ha).2
  · intro a ha hap hready hdef
    refine (hmem _ a).mpr ⟨fun heq => hap (heq ▸ rfl), ?_⟩
    exact h.queued a ha (by simp) hready hdef
  · exact fun ho j a ha => h.awake ho j a ((hmem j a).mp ha).2

/-- What the walk does not read can be changed before it or after it. -/
theorem removeFromReadyQueue_comm (s : System) (p : Ptr) {g : System → System}
    (hrelink : ∀ i links, g (s.relink i links) = (g s).relink i links)
    (hnext : (g s).next = s.next) (hqueues : (g s).readyQueues = s.readyQueues)
    (hcreated : (g s).created = s.created) (hprio : ((g s).proc p).priority = (s.proc p).priority) :
    Sched.removeFromReadyQueue (g s) p = (Sched.removeFromReadyQueue s p).map g := by
  unfold Sched.removeFromReadyQueue System.fuel
  dsimp only
  rw [hnext, hqueues, hcreated, hprio, Option.map_map]
  congr 1
  exact funext fun links => (hrelink _ links).symm

/-! ## Choosing -/

/-- A chosen process comes from a queue and stays there. -/
theorem takeFrom (h : Sound o e x s q) (c : Cpu) (i : ProcessPriority) :
    Returns (Sched.takeFrom s c i) fun r => Requeued s r.2 ∧ ∃ q', Sound o e x r.2 q' ∧
      (∀ j p, p ∈ q' j ↔ p ∈ q j) ∧ ∀ p, r.1 = some p → p ∈ q i := by
  unfold Sched.takeFrom
  rcases firstWith_eq (h.lists.linked i) (h.length_le i) (fun p => (s.proc p).mayRunOn c) none with
    ⟨_, hwalk⟩ | ⟨pre, p, post, hsplit, _, _, hwalk⟩
  · rw [hwalk]
    exact returns_some ⟨.refl s, q, h, fun _ _ => Iff.rfl, fun p hp => by cases hp⟩
  · obtain ⟨links, hlinks, hlists⟩ := h.lists.moveToEnd hsplit (h.length_le i)
    have hmem : ∀ j a, a ∈ update q i (pre ++ post ++ [p]) j ↔ a ∈ q j := by
      intro j a
      by_cases hj : j = i
      · subst hj
        rw [update_self, hsplit]
        simp only [List.mem_append, List.mem_cons]
        tauto
      · rw [update_of_ne hj]
    rw [hwalk, Option.or_none]
    simp only [Option.bind_eq_bind, Option.bind_some, hlinks]
    refine returns_some ⟨.relink s i links, _, h.permute hlists hmem, hmem, ?_⟩
    rw [hsplit]
    simp

theorem takeFirst (h : Sound o e x s q) (c : Cpu) (order : List ProcessPriority) :
    Returns (Sched.takeFirst s c order) fun r => Requeued s r.2 ∧ ∃ q', Sound o e x r.2 q' ∧
      (∀ j p, p ∈ q' j ↔ p ∈ q j) ∧ (r.1 = s.idle c ∨ ∃ p i, r.1 = some p ∧ p ∈ q i) := by
  induction order with
  | nil => exact returns_some ⟨.refl s, q, h, fun _ _ => Iff.rfl, .inl rfl⟩
  | cons i rest ih =>
    refine (h.takeFrom c i).bind fun r hr => ?_
    obtain ⟨found, s'⟩ := r
    obtain ⟨hsame, q', hsound, hmem, hfound⟩ := hr
    cases found with
    | none => exact ih
    | some p =>
      exact returns_some ⟨hsame, q', hsound, hmem, .inr ⟨p, i, rfl, hfound p rfl⟩⟩

end Sound

end InstantOS.Sched
