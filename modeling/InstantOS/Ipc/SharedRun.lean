import InstantOS.Ipc.SharedLifetime

/-!
# Runs of the shared memory calls

Every call is taken through the invariant of `SharedLifetime`: the handle operations with
the calls they make on the objects, the calls that create, map and free an object, and
those that start and end processes.  The invariant survives a call that is `Careful`; the
log of every run of such calls is orderly.  Two runs at the end show what happens without:
a process that exits while its mapping alone keeps an object, and a fork that copies
shared pages the object does not know of.
-/

namespace InstantOS.SharedMemory

open Function Handles

open Pmm (pageSize)
open Handles (Handle HandleEntry World Event Serves WellHeld holds live net)

variable {T : Type}

/-! ## The calls of a handle operation -/

section

variable {refs : Nat → Int} {s : System T}

theorem Lasting.mono (h : Lasting refs s) {refs' : Nat → Int} (hle : ∀ o, refs' o ≤ refs o) :
    Lasting refs' s :=
  { h with counted := fun o => (hle o).trans (h.counted o) }

theorem destroyIfUnused_frame (s : System T) (o : Nat) :
    (destroyIfUnused s o).objects = s.objects ∧ (destroyIfUnused s o).handles = s.handles := by
  unfold destroyIfUnused destroy
  split
  · rw [Lasting.forget_eq]
    exact ⟨rfl, rfl⟩
  · exact ⟨rfl, rfl⟩

theorem release_handles (s : System T) (o : Nat) : (release s o).handles = s.handles := by
  unfold release
  dsimp only
  split
  · rfl
  · exact (destroyIfUnused_frame _ _).2

theorem retain_refCount (s : System T) (o o' : Nat) :
    ((retain s o).objects o').refCount ≤ (s.objects o').refCount + 1 := by
  unfold retain
  by_cases heq : o' = o
  · subst heq
    rw [setObject_self]
    exact Nat.mod_le _ _
  · rw [setObject_ne _ _ heq]
    exact Nat.le_add_right _ _

theorem release_refCount (s : System T) (o o' : Nat) :
    ((release s o).objects o').refCount ≤ (s.objects o').refCount := by
  unfold release
  dsimp only
  split
  · exact le_rfl
  rw [(destroyIfUnused_frame _ _).1]
  by_cases heq : o' = o
  · subst heq
    rw [setObject_self]
    exact Nat.sub_le _ _
  · rw [setObject_ne _ _ heq]
    exact le_rfl

/-- The calls of an operation, each backed by the references at its time. -/
theorem Lasting.deliveries (h : Lasting refs s) {new : List (Event Nat Unit)}
    (hbacked : ∀ later event earlier o, new = later ++ event :: earlier →
      event.object = some o → 1 ≤ refs o + net o earlier)
    (hroom : ∀ o, (s.objects o).refCount + new.countP Event.isRetain < 2 ^ 32) :
    Lasting (fun o => refs o + net o new) (new.foldr deliver s) ∧
      (new.foldr deliver s).handles = s.handles :=
  (deliveries_induction (P := fun refs u => Lasting refs u ∧ u.handles = s.handles)
    (fun _ _ => rfl) (fun _ _ => ⟨rfl, rfl⟩) (fun hu hle => ⟨hu.1.mono hle, hu.2⟩)
    (fun hu hone hroom => ⟨⟨hu.1.retain hone hroom, hu.2⟩, retain_refCount _ _⟩)
    (fun hu hone => ⟨⟨hu.1.release hone, (release_handles _ _).trans hu.2⟩, release_refCount _ _⟩)
    ⟨h, rfl⟩ hbacked hroom).1

/-! ## A new object -/

/-- The new object is registered in a free slot, or nowhere. -/
theorem registerSharedObject_some {o o' : Nat} {i : Fin maxSharedObjects}
    (h : (registerSharedObject s o).sharedObjects i = some o') : s.sharedObjects i = some o' ∨
      (o' = o ∧ ∀ j, (registerSharedObject s o).sharedObjects j = some o → i ≠ j →
        s.sharedObjects j = some o) := by
  unfold registerSharedObject at h ⊢
  split at h
  · rename_i j hfind
    dsimp only at h ⊢
    by_cases hi : i = j
    · subst hi
      rw [update_self, Option.some.injEq] at h
      refine .inr ⟨h.symm, fun j' hj' hne => ?_⟩
      rwa [update_of_ne hne.symm] at hj'
    · rw [update_of_ne hi] at h
      exact .inl h
  · exact .inl h

/-- Besides the registry `registerSharedObject` changes nothing. -/
theorem registerSharedObject_eq (s : System T) (o : Nat) : registerSharedObject s o =
    { s with sharedObjects := (registerSharedObject s o).sharedObjects } := by
  unfold registerSharedObject
  split <;> rfl

/-- An object over frames that no other object has. -/
theorem Lasting.create (h : Lasting refs s) (object : SharedMemoryObject)
    (hone : object.refCount = 1)
    (hfree : ∀ o, s.Alive o → ∀ frame ∈ (s.objects o).frames, frame ∉ object.frames) :
    Lasting (update refs s.created 1)
      (registerSharedObject ({ s with created := s.created + 1 }.setObject s.created object)
        s.created) := by
  rw [registerSharedObject_eq]
  have hself : System.objects ({ s with created := s.created + 1 }.setObject s.created object)
      s.created = object := setObject_self ..
  have hne : ∀ o, o ≠ s.created → System.objects
      ({ s with created := s.created + 1 }.setObject s.created object) o = s.objects o :=
    fun _ hne => setObject_ne _ _ hne
  have hold : ∀ o, s.Alive o → o ≠ s.created := fun o ho => ho.1.ne
  have halive : ∀ registry o, System.Alive
      { { s with created := s.created + 1 }.setObject s.created object with
        sharedObjects := registry } o ↔ o = s.created ∨ s.Alive o := by
    intro registry o
    constructor
    · rintro ⟨hlt, hlive⟩
      exact (Nat.lt_succ_iff_lt_or_eq.mp hlt).symm.imp id fun hlt => ⟨hlt, hlive⟩
    · rintro (rfl | ⟨hlt, hlive⟩)
      · exact ⟨Nat.lt_succ_self _, fun hdead => lt_irrefl _ (h.made _ hdead)⟩
      · exact ⟨hlt.trans (Nat.lt_succ_self _), hlive⟩
  refine ⟨fun o => ?_, fun o => ?_, fun o hdead => ?_, fun o hdestroyed => ?_, fun i o hi => ?_,
    fun i j o hi hj => ?_, fun t page frame hpage => ?_, fun o o' frame ho ho' hframe hframe' => ?_,
    ?_, ?_⟩
  · by_cases heq : o = s.created
    · rw [heq, update_self, hself, hone]
      exact le_refl _
    · rw [update_of_ne heq, hne o heq]
      exact h.counted o
  · by_cases heq : o = s.created
    · rw [heq, hself, hone]
      decide
    · rw [hne o heq]
      exact h.bounded o
  · simp only [halive, not_or] at hdead
    rw [hne o hdead.1]
    exact h.unused o hdead.2
  · exact (h.made o hdestroyed).trans (Nat.lt_succ_self _)
  · rw [halive]
    rcases registerSharedObject_some hi with hbefore | ⟨heq, -⟩
    · exact .inr (h.registered i o hbefore)
    · exact .inl heq
  · have hfresh : ∀ j, s.sharedObjects j ≠ some s.created := fun j hj =>
      hold _ (h.registered j _ hj) rfl
    rcases registerSharedObject_some hi with hbefore | ⟨heq, honly⟩
    · rcases registerSharedObject_some hj with hbefore' | ⟨heq, -⟩
      · exact h.once i j o hbefore hbefore'
      · exact absurd (heq ▸ hbefore) (hfresh i)
    · by_contra hdiff
      exact hfresh j (honly j (heq ▸ hj) hdiff)
  · obtain ⟨o, m, hm, hframe, hrange, hstate⟩ := h.recorded t page frame hpage
    have heq : o ≠ s.created := hold o (h.alive_of_mem hm)
    refine ⟨o, m, ?_, ?_, ?_, hstate⟩
    · rwa [hne o heq]
    · rwa [hne o heq]
    · rwa [hne o heq]
  · rw [halive] at ho ho'
    rcases ho with rfl | ho <;> rcases ho' with rfl | ho'
    · rfl
    · rw [hself] at hframe
      rw [hne o' (hold o' ho')] at hframe'
      exact absurd hframe (hfree o' ho' frame hframe')
    · rw [hself] at hframe'
      rw [hne o (hold o ho)] at hframe
      exact absurd hframe' (hfree o ho frame hframe)
    · rw [hne o (hold o ho)] at hframe
      rw [hne o' (hold o' ho')] at hframe'
      exact h.apart o o' frame ho ho' hframe hframe'
  · exact h.named
  · exact h.orderly

/-- An operation that makes no calls. -/
theorem onHandles_silent {op : World T Nat Unit → World T Nat Unit} (w : World T Nat Unit)
    (hop : op { s.handles with calls := [] } = w) (hcalls : w.calls = []) :
    SharedMemory.onHandles s op = { s with handles := w } := by
  have hworld : ({ w with calls := [] } : World T Nat Unit) = w := by
    rw [← hcalls]
  unfold SharedMemory.onHandles
  dsimp only
  rw [hop, hworld, hcalls, List.foldr_nil]

end

/-! ## The invariant of a run -/

section

variable [Fintype T] {s : System T}

/-- Every open handle holds a counted reference. -/
structure Safe (s : System T) : Prop where
  lasting : Lasting (live s.handles) s
  held : WellHeld s.handles
  quiet : s.handles.calls = []

section

variable (h : Safe s)

include h

/-- The handles stay and `Lasting` is kept. -/
theorem Safe.keep {s' : System T} (hhandles : s'.handles = s.handles)
    (hlasting : Lasting (live s.handles) s') : Safe s' := by
  refine ⟨?_, ?_, ?_⟩ <;> rw [hhandles]
  · exact hlasting
  · exact h.held
  · exact h.quiet

/-- An operation on the handle tables with no more than `k` retains, if the counts have
room for them. -/
theorem Safe.onHandles (op : World T Nat Unit → World T Nat Unit) {k : Nat}
    (hop : ∃ new, Serves s.handles new (op s.handles) 0 k)
    (hroom : ∀ o, (s.objects o).refCount + k < 2 ^ 32) : Safe (onHandles s op) := by
  obtain ⟨new, hserves⟩ := hop
  have hworld : ({ s.handles with calls := [] } : World T Nat Unit) = s.handles := by
    rw [← h.quiet]
  have hcalls : (op s.handles).calls = new := by
    rw [hserves.calls, h.quiet, List.append_nil]
  have heq : SharedMemory.onHandles s op =
      new.foldr deliver { s with handles := { op s.handles with calls := [] } } := by
    unfold SharedMemory.onHandles
    dsimp only
    rw [hworld, hcalls]
  have hstart : Lasting (live s.handles) { s with handles := { op s.handles with calls := [] } } :=
    h.lasting.trim
  obtain ⟨hdone, hhandles⟩ := hstart.deliveries hserves.backed fun o => by
    have hall := hroom o
    have hretains := hserves.retains
    show (s.objects o).refCount + new.countP Event.isRetain < 2 ^ 32
    omega
  rw [heq]
  refine ⟨?_, ?_, ?_⟩ <;> rw [hhandles]
  · refine hdone.mono fun o => ?_
    have hcovered := hserves.covered o
    rw [Pi.zero_apply, add_zero] at hcovered
    exact hcovered
  · exact hserves.held.of_entries rfl

/-- The same without retains, where the counts always have room. -/
theorem Safe.onHandles_zero (op : World T Nat Unit → World T Nat Unit)
    (hop : ∃ new, Serves s.handles new (op s.handles) 0 0) : Safe (SharedMemory.onHandles s op) :=
  h.onHandles op hop h.lasting.bounded

/-- What `getObject` finds is referred to. -/
theorem Safe.getObject {t : T} {handle : Handle} {expected : Handles.HandleType}
    {rights : BitVec 32} {o : Nat}
    (hget : Handles.getObject s.handles t handle expected rights = some o) :
    1 ≤ live s.handles o := by
  obtain ⟨t, slot, hopen, hobject⟩ := getObject_some hget
  exact h.held.live hopen hobject

theorem Safe.allocatePID : Safe (allocatePID s).2 :=
  h.keep rfl h.lasting.trim

theorem Safe.asProcess {pid : Nat} {act : Process T → System T}
    (hact : ∀ process, s.processes pid = some process → process.pid = pid →
      Safe (act process)) : Safe (s.asProcess pid act) := by
  unfold System.asProcess
  split
  · rename_i process hprocess
    exact hact process hprocess (h.lasting.named pid process hprocess)
  · exact h

end

theorem Safe.boot : Safe (.boot : System T) where
  lasting :=
    { counted := fun o => by simp [System.boot, live, World.fresh]
      bounded := fun o => by simp [System.boot]
      unused := fun o _ => ⟨rfl, rfl⟩
      made := fun o ⟨_, _, hmem⟩ => by cases hmem
      registered := fun i o hi => by cases hi
      once := fun i j o hi _ => by cases hi
      recorded := fun t page frame hpage => by cases hpage
      apart := fun o o' frame ho => absurd ho.1 (Nat.not_lt_zero o)
      named := fun pid process hp => by cases hp
      orderly := trivial }
  held := fun t slot => .inl rfl
  quiet := rfl

end

/-! ## The calls of a process -/

section

variable [DecidableEq T] [Fintype T] {s : System T}

/-- A page table loses pages. -/
theorem Safe.setTable (h : Safe s) (t : T) {table : PageTable}
    (hless : ∀ page frame, table page = some frame → s.pageTable t page = some frame) :
    Safe (s.setTable t table) := by
  refine h.keep rfl (h.lasting.trim fun t' page frame hpage => ?_)
  by_cases ht : t' = t
  · subst ht
    refine hless page frame ?_
    simpa using hpage
  · simpa [update_of_ne ht] using hpage

variable {process : Process T}

theorem Safe.sysSharedMap (h : Safe s)
    (hprocess : s.processes process.pid = some process) (handle : Handle)
    (mapped : Nat → Bool) : Safe (sysSharedMap s process handle mapped).2 := by
  unfold SharedMemory.sysSharedMap
  split
  · exact h
  rename_i o hget
  have hmap := h.lasting.mapInto (h.lasting.alive (h.getObject hget)) hprocess mapped
  refine h.keep ?_ hmap
  unfold mapInto
  dsimp only
  split
  · rfl
  · split <;> rfl

/-- The handle that names the object keeps it while it is unmapped. -/
theorem Safe.sysSharedFree (h : Safe s)
    (hprocess : s.processes process.pid = some process) (handle : Handle) :
    Safe (sysSharedFree s process handle).2 := by
  unfold SharedMemory.sysSharedFree
  dsimp only
  split
  · exact h
  rename_i o hget
  have hone := h.getObject hget
  have hcounted := h.lasting.counted o
  obtain ⟨hlasting, hspares⟩ := h.lasting.unmapAllFrom (h.lasting.alive hone) hprocess
    fun _ => .inl (by omega)
  have hunmapped : Safe (unmapAllFrom s o process) := h.keep hspares.handles hlasting
  dsimp only
  refine hunmapped.onHandles_zero _ ?_
  exact closeExpecting_serves hunmapped.held _ _ _

theorem Safe.sysClose (h : Safe s) (process : Process T) (handle : Handle) :
    Safe (sysClose s process handle) := by
  unfold SharedMemory.sysClose
  dsimp only
  split
  · exact h
  split
  · refine h.onHandles_zero _ ?_
    exact closeExpecting_serves h.held _ _ _
  · refine h.onHandles_zero _ ?_
    exact close_serves h.held _ _

/-- No count is near its end: one operation adds at most a reference for each slot. -/
def System.Roomy (s : System T) : Prop :=
  ∀ o, (s.objects o).refCount + Handles.maxHandles < 2 ^ 32

theorem Safe.sysDup (h : Safe s) (hroom : s.Roomy) (process : Process T) (handle : Handle) :
    Safe (sysDup s process handle) := by
  unfold SharedMemory.sysDup
  refine h.onHandles _ ?_ hroom
  exact duplicate_serves h.held _ _

theorem Safe.sysDup2 (h : Safe s) (hroom : s.Roomy) (process : Process T)
    (oldHandle newHandle : Handle) : Safe (sysDup2 s process oldHandle newHandle) := by
  unfold SharedMemory.sysDup2
  refine h.onHandles _ ?_ hroom
  exact duplicateTo_serves h.held _ _ _

theorem Safe.sysMunmap (h : Safe s) (process : Process T) (addr length : Nat) :
    Safe (sysMunmap s process addr length) := by
  unfold SharedMemory.sysMunmap
  split
  · exact h
  · exact h.setTable _ fun page frame hpage => (unmapRangeFrom_some hpage).1

/-- The frames of a new object belong to no other. -/
def System.Free (s : System T) (object : SharedMemoryObject) : Prop :=
  ∀ o, s.Alive o → ∀ frame ∈ (s.objects o).frames, frame ∉ object.frames

/-- The handle takes over the first reference; without a free slot it is given back, and
that is the end of the object. -/
theorem Safe.sysSharedAlloc (h : Safe s) (process : Process T) (size : Nat) (phys : Option Nat)
    (node : Bool) (hfree : ∀ physBase, phys = some physBase →
      s.Free (.new (Vma.alignUp size pageSize) physBase)) :
    Safe (sysSharedAlloc s process size phys node).2 := by
  unfold SharedMemory.sysSharedAlloc createSharedMemory
  by_cases hsize : size = 0
  · rw [if_pos hsize]
    exact h
  rw [if_neg hsize]
  cases hphys : phys with
  | none => exact h
  | some physBase =>
    cases node with
    | false => exact h
    | true =>
      dsimp only
      have hmade := h.lasting.create (.new (Vma.alignUp size pageSize) physBase) rfl
        (hfree physBase hphys)
      generalize hnext : registerSharedObject ({ s with created := s.created + 1 }.setObject
        s.created (.new (Vma.alignUp size pageSize) physBase)) s.created = next at hmade ⊢
      have hhandles : next.handles = s.handles := by
        rw [← hnext, registerSharedObject_eq]
        rfl
      have hworld : ({ next.handles with calls := [] } : World T Nat Unit) = s.handles := by
        rw [hhandles, ← h.quiet]
      -- No handle refers to the object before this one does.
      have hdead : live s.handles s.created ≤ 0 := by
        have hcounted := h.lasting.counted s.created
        rw [(h.lasting.unused s.created fun halive => lt_irrefl _ halive.1).1] at hcounted
        exact hcounted
      have hmoved : ∀ w, Lasting (update (live s.handles) s.created 1)
          { next with handles := w } := fun w =>
        hmade.trim
      rw [hhandles]
      rcases allocate_cases s.handles process.sharedState (sharedEntry s.created) with
        ⟨hfail, hsame⟩ | ⟨hok, htype, hobject, slot, hslot, hput⟩
      · rw [if_pos hfail, onHandles_silent s.handles (by rw [hworld, hsame]) h.quiet]
        refine h.keep (release_handles _ _) (((hmoved _).release ?_).mono fun o => ?_)
        · rw [update_self]
        · by_cases heq : o = s.created
          · rw [heq, update_self, update_self]
            omega
          · rw [update_of_ne heq, update_of_ne heq]
      · rw [if_neg hok, onHandles_silent
          (s.handles.put process.sharedState slot (sharedEntry s.created))
          (by rw [hworld, hput]) h.quiet]
        have he : Handles.Held (sharedEntry s.created) := ⟨htype, rfl, rfl, rfl⟩
        refine ⟨(hmoved _).mono fun o => ?_, h.held.put _ _ (.inr he), h.quiet⟩
        rw [live_put, holds_free hslot]
        by_cases heq : o = s.created
        · rw [heq, update_self, holds_self he rfl]
          omega
        · rw [update_of_ne heq]
          simp [holds, sharedEntry, Ne.symm heq]

/-! ## Processes and threads -/

/-- The table of a new process starts empty; what it held before, if anything, is no longer
counted as held. -/
theorem live_reset (w : World T Nat Unit) (t : T) (o : Nat) :
    live { w with entries := update w.entries t fun _ => .cleared } o ≤ live w o := by
  refine Finset.sum_le_sum fun p _ => ?_
  dsimp only
  by_cases ht : p.1 = t
  · rw [ht, update_self]
    exact holds_nonneg _ _
  · rw [update_of_ne ht]

/-- No mapping names the pid the next process gets. -/
def System.PidFree (s : System T) : Prop :=
  ∀ o, ∀ m ∈ (s.objects o).mappings, m.pid ≠ s.nextPID

section

variable (h : Safe s)

include h

theorem Safe.newProcess (hfree : ∀ o, ∀ m ∈ (s.objects o).mappings, m.pid ≠ process.pid) :
    Safe (newProcess s process) where
  lasting := by
    have hreset : Lasting (live s.handles) (SharedMemory.newProcess s process) := by
      refine (h.lasting.adopt hfree).trim fun t page frame hpage => ?_
      by_cases ht : t = process.sharedState
      · subst ht
        simp at hpage
      · simpa [update_of_ne ht] using hpage
    exact hreset.mono fun o => live_reset s.handles process.sharedState o
  held t slot := by
    by_cases ht : t = process.sharedState
    · subst ht
      exact .inl (by simp [SharedMemory.newProcess, HandleEntry.cleared])
    · have hslot := h.held t slot
      simpa [SharedMemory.newProcess, update_of_ne ht] using hslot
  quiet := h.quiet

theorem Safe.releaseSharedState (t : T) : Safe (releaseSharedState s t) := by
  unfold SharedMemory.releaseSharedState
  dsimp only
  have hless : Safe { s with stateRefs := update s.stateRefs t (s.stateRefs t - 1) } :=
    h.keep rfl h.lasting.trim
  split
  · exact hless
  · refine .setTable ?_ t fun page frame hpage => by cases hpage
    refine hless.onHandles_zero _ ?_
    exact closeAll_serves h.held t

/-- The end of a thread whose mappings are not what keeps an object. -/
theorem Safe.deleteProcess (hprocess : s.processes process.pid = some process)
    (hsteady : ∀ i o, s.sharedObjects i = some o → s.Steady process.pid o) :
    Safe (deleteProcess s process) := by
  obtain ⟨hlasting, hspares⟩ := h.lasting.cleanupProcess hprocess hsteady
  have hclean : Safe (cleanupProcess s process) := h.keep hspares.handles hlasting
  unfold SharedMemory.deleteProcess
  have hforget : ∀ {s : System T}, Safe s →
      Safe { s with processes := update s.processes process.pid none } := by
    intro s h
    refine h.keep rfl (h.lasting.trim (fun _ _ _ hpage => hpage) fun pid other hother => ?_)
    by_cases hpid : pid = process.pid
    · subst hpid
      simp at hother
    · simpa [update_of_ne hpid] using hother
  refine hforget (.releaseSharedState ?_ _)
  cases process.stack with
  | none => exact hclean
  | some stack =>
    exact hclean.setTable _ fun page frame hpage => (unmapRangeFrom_some hpage).1

theorem Safe.spawn (hpid : s.PidFree) (t : T) : Safe (spawn s t) :=
  h.allocatePID.newProcess hpid

theorem Safe.newThread (thread : Process T) (stackSize : Nat)
    (hfree : ∀ o, ∀ m ∈ (s.objects o).mappings, m.pid ≠ thread.pid) :
    Safe (newThread s thread stackSize) := by
  have hadopted : Safe { s with
      processes := update s.processes thread.pid (some thread)
      stateRefs := update s.stateRefs thread.sharedState
        (s.stateRefs thread.sharedState + 1)
      mmapBase := update s.mmapBase thread.sharedState
        (Vma.add64 (s.mmapBase thread.sharedState) stackSize) } :=
    h.keep rfl (h.lasting.adopt hfree).trim
  unfold SharedMemory.newThread
  split
  · exact hadopted.setTable _ fun page frame hpage => (unmapRangeFrom_some hpage).1
  · exact hadopted

/-- A new process has no mappings, so it can be deleted at once. -/
theorem Safe.deleteNew (hprocess : s.processes process.pid = some process)
    (hfree : ∀ o, ∀ m ∈ (s.objects o).mappings, m.pid ≠ process.pid) :
    Safe (SharedMemory.deleteProcess s process) := by
  refine h.deleteProcess hprocess fun i o _ => ?_
  rintro ⟨m, hm, hpid⟩
  exact absurd hpid (hfree o m hm)

end

omit [Fintype T] in
theorem newThread_processes (s : System T) (thread : Process T) (stackSize : Nat) :
    (newThread s thread stackSize).processes thread.pid = some thread ∧
      (newThread s thread stackSize).objects = s.objects := by
  unfold newThread
  split <;> exact ⟨update_self .., rfl⟩

theorem Safe.sysThreadCreate (h : Safe s) (hpid : s.PidFree) (process : Process T)
    (stackSize : Nat) (stack registered : Bool) :
    Safe (sysThreadCreate s process stackSize stack registered) := by
  unfold SharedMemory.sysThreadCreate
  dsimp only
  split
  · exact h
  have hnew := fun thread (hthread : thread.pid = s.nextPID) =>
    h.allocatePID.newThread thread (Vma.stackBytes stackSize) fun o m hm => hthread ▸ hpid o m hm
  split
  · exact hnew _ rfl
  · refine .deleteNew (hnew _ rfl) (newThread_processes ..).1 fun o m hm => ?_
    rw [(newThread_processes ..).2] at hm
    exact hpid o m hm

/-- The process maps no shared page that a fork would copy. -/
def System.Unshared (s : System T) (t : T) : Prop :=
  ∀ page < lowerHalf, s.pageTable t page = none

omit [Fintype T] in
/-- A fork copies nothing from such a process into the new one. -/
theorem copied_pages {t : T} (hunshared : s.Unshared t) {page frame : Nat}
    (hpage : (if page < lowerHalf then (newProcess s process).pageTable t page else none)
      = some frame) : (newProcess s process).pageTable process.sharedState page = some frame := by
  split at hpage
  · rename_i hlow
    by_cases ht : t = process.sharedState
    · rw [ht] at hpage
      exact hpage
    · have hnone := hunshared page hlow
      simp [newProcess, update_of_ne ht, hnone] at hpage
  · cases hpage

/-- The child of a process without shared pages, or a child that is deleted. -/
theorem Safe.sysFork (h : Safe s) (hpid : s.PidFree) (parent : Process T) (t : T) (completed : Bool)
    (hcopy : completed → s.Roomy ∧ s.Unshared parent.sharedState) :
    Safe (sysFork s parent t completed) := by
  have hnew : Safe (SharedMemory.newProcess (SharedMemory.allocatePID s).2 ⟨s.nextPID, t, none⟩) :=
    h.allocatePID.newProcess hpid
  unfold SharedMemory.sysFork
  dsimp only
  split
  · rename_i hcompleted
    obtain ⟨hroom, hunshared⟩ := hcopy hcompleted
    have hcopied := hnew.setTable t fun page frame => copied_pages hunshared
    refine hcopied.onHandles _ ?_ hroom
    exact cloneFrom_serves hcopied.held t parent.sharedState false false
  · exact hnew.deleteNew (update_self ..) hpid

/-! ## Every run -/

/-- What the allocators grant is in no other use: the memory of a new shared state, and the
frames of a new object. -/
def LifeOp.Granted (s : System T) : LifeOp T → Prop
  | .spawn t => s.stateRefs t = 0
  | .fork _ t _ => s.stateRefs t = 0
  | .sharedAlloc _ size phys _ => ∀ physBase, phys = some physBase →
      s.Free (.new (Vma.alignUp size pageSize) physBase)
  | _ => True

/-- The states that runs lead to whose steps all meet `ok`. -/
inductive Lived (ok : System T → LifeOp T → Prop) : System T → Prop
  | boot : Lived ok .boot
  | step {s : System T} (hs : Lived ok s) (op : LifeOp T) (hgranted : op.Granted s)
      (hop : ok s op) : Lived ok (step s op)

/-- Pids do not come again while they are recorded, counts stay away from their end, a
process does not fork while it maps shared memory, and does not exit while its mapping is
all that keeps an object. -/
def LifeOp.Careful (s : System T) : LifeOp T → Prop
  | .spawn _ => s.PidFree
  | .threadCreate .. => s.PidFree
  | .fork pid _ completed => s.PidFree ∧ (completed = true → s.Roomy ∧
      ∀ parent, s.processes pid = some parent → s.Unshared parent.sharedState)
  | .dup .. => s.Roomy
  | .dup2 .. => s.Roomy
  | .exit pid => ∀ i o, s.sharedObjects i = some o → s.Steady pid o
  | _ => True

theorem Safe.step (h : Safe s) (op : LifeOp T) (hgranted : op.Granted s)
    (hop : op.Careful s) : Safe (step s op) := by
  cases op with
  | spawn t => exact h.spawn hop t
  | sharedAlloc pid size phys node =>
    exact h.asProcess fun process _ _ => h.sysSharedAlloc process size phys node hgranted
  | sharedMap pid handle mapped =>
    exact h.asProcess fun process hprocess hpid =>
      h.sysSharedMap (hpid.symm ▸ hprocess) handle mapped
  | sharedFree pid handle =>
    exact h.asProcess fun process hprocess hpid => h.sysSharedFree (hpid.symm ▸ hprocess) handle
  | close pid handle => exact h.asProcess fun process _ _ => h.sysClose process handle
  | dup pid handle => exact h.asProcess fun process _ _ => h.sysDup hop process handle
  | dup2 pid oldHandle newHandle =>
    exact h.asProcess fun process _ _ => h.sysDup2 hop process oldHandle newHandle
  | munmap pid addr length => exact h.asProcess fun process _ _ => h.sysMunmap process addr length
  | threadCreate pid stackSize stack registered =>
    exact h.asProcess fun process _ _ => h.sysThreadCreate hop process stackSize stack registered
  | fork pid t completed =>
    refine h.asProcess fun process hprocess _ => h.sysFork hop.1 process t completed fun hc => ?_
    exact ⟨(hop.2 hc).1, (hop.2 hc).2 process hprocess⟩
  | exit pid =>
    refine h.asProcess fun process hprocess hpid => ?_
    subst hpid
    exact h.deleteProcess hprocess hop

theorem Lived.safe (h : Lived (fun s op => op.Careful s) s) : Safe s := by
  induction h with
  | boot => exact .boot
  | step _ op hgranted hop ih => exact ih.step op hgranted hop

/-- In every careful run an object is destroyed at most once, no method runs on it
afterwards, and no page table maps a frame it returns. -/
theorem shared_memory_lives_orderly (h : Lived (fun s op => op.Careful s) s) : Orderly s.log :=
  h.safe.lasting.orderly

end

/-! ## Logs that are not orderly -/

def LifeEvent.destroys (o : Nat) : LifeEvent T → Bool
  | .call _ => false
  | .destroy o' _ _ => o' == o

/-- The latest event is a call of a destroyed object. -/
def calledAfter (o : Nat) : List (LifeEvent T) → Bool
  | .call o' :: log => o' == o && log.any (LifeEvent.destroys o)
  | _ => false

/-- The latest event returns a frame that is mapped at a page. -/
def returnsMapped (t : T) (page : Nat) : List (LifeEvent T) → Bool
  | .destroy _ frames tables :: _ => (tables t page).any (frames.contains ·)
  | _ => false

variable {log : List (LifeEvent T)}

theorem destroyed_of_any {o : Nat} (h : log.any (LifeEvent.destroys o)) : Destroyed log o := by
  obtain ⟨event, hmem, hevent⟩ := List.any_eq_true.mp h
  cases event with
  | call o' => cases hevent
  | destroy o' frames tables =>
    rw [LifeEvent.destroys, beq_iff_eq] at hevent
    exact ⟨frames, tables, hevent ▸ hmem⟩

theorem calledAfter_spec {o : Nat} (h : calledAfter o log) :
    ∃ rest, log = .call o :: rest ∧ Destroyed rest o := by
  match log, h with
  | .call o' :: rest, h =>
    rw [calledAfter, Bool.and_eq_true, beq_iff_eq] at h
    exact ⟨rest, by rw [h.1], destroyed_of_any h.2⟩

theorem returnsMapped_spec {t : T} {page : Nat} (h : returnsMapped t page log) :
    ∃ o frames tables rest frame, log = .destroy o frames tables :: rest ∧
      tables t page = some frame ∧ frame ∈ frames := by
  match log, h with
  | .destroy o frames tables :: rest, h =>
    rw [returnsMapped] at h
    cases hframe : tables t page with
    | none => simp [hframe] at h
    | some frame =>
      rw [hframe, Option.any_some, List.contains_iff_mem] at h
      exact ⟨o, frames, tables, rest, frame, rfl, hframe, h⟩

/-! A page of shared memory, and the handle its process has for it. -/

def sampleHandle : Handle := 0x0009000000000003

/-- The page is allocated. -/
def sampleAlloc (pid : Nat) : LifeOp Bool := .sharedAlloc pid 4096 (some 0x100000) true

def sampleMap (pid : Nat) : LifeOp Bool := .sharedMap pid sampleHandle fun _ => true

def sampleSpawned : System Bool := step .boot (.spawn false)

def sampleShared : System Bool := step sampleSpawned (sampleAlloc 1)

def sampleMapped : System Bool := step sampleShared (sampleMap 1)

/-- The process gives its mapping and its handle back, and the object is destroyed. -/
def sampleFreed : System Bool := step sampleMapped (.sharedFree 1 sampleHandle)

set_option maxRecDepth 4096 in
theorem shared_memory_lives_orderly_sample :
    sampleFreed.log.any (LifeEvent.destroys 0) = true ∧ Orderly sampleFreed.log := by
  have hspawned : Lived (fun s op => op.Careful s) sampleSpawned :=
    .step .boot (.spawn false) rfl fun o m hm => by cases hm
  have hshared : Lived (fun s op => op.Careful s) sampleShared :=
    hspawned.step (sampleAlloc 1) (fun _ _ o ho => absurd ho.1 (Nat.not_lt_zero o)) trivial
  have hmapped : Lived (fun s op => op.Careful s) sampleMapped :=
    hshared.step (sampleMap 1) trivial trivial
  have hfreed : Lived (fun s op => op.Careful s) sampleFreed :=
    hmapped.step (.sharedFree 1 sampleHandle) trivial trivial
  have horderly := shared_memory_lives_orderly hfreed
  exact ⟨by decide +kernel, horderly⟩

/-- A second thread of the process. -/
def sampleThreaded : System Bool := step sampleSpawned (.threadCreate 1 0x10000 true true)

/-- It maps the page and closes the handle, so that the mapping alone keeps the object. -/
def sampleKept : System Bool :=
  step (step (step sampleThreaded (sampleAlloc 2)) (sampleMap 2)) (.close 2 sampleHandle)

/-- The child has the page, but no mapping in the object. -/
def sampleForked : System Bool := step sampleMapped (.fork 1 true true)

/-- Its parent frees the page, and the child closes its handle. -/
def sampleAbandoned : System Bool :=
  step (step sampleForked (.sharedFree 1 sampleHandle)) (.close 2 sampleHandle)

set_option maxRecDepth 20000 in
/-- When the thread exits, `unmapFrom` destroys the object inside the loop of `unmapAllFrom`,
which then calls it once more; and the child's `close` returns the frame its page maps. -/
theorem shared_memory_outlived :
    (¬ ∀ s : System Bool, Lived (fun _ _ => True) s → ∀ o log, s.log = .call o :: log →
      ¬ Destroyed log o) ∧ ¬ ∀ s : System Bool, Lived (fun _ _ => True) s → ∀ o frames tables log,
      s.log = .destroy o frames tables :: log →
        ∀ t page frame, tables t page = some frame → frame ∉ frames := by
  have hspawned : Lived (fun _ _ => True) sampleSpawned := .step .boot (.spawn false) rfl trivial
  constructor <;> intro h
  · have hthreaded : Lived (fun _ _ => True) sampleThreaded :=
      hspawned.step (.threadCreate 1 0x10000 true true) trivial trivial
    have hshared := hthreaded.step (sampleAlloc 2)
      (fun _ _ o ho => absurd ho.1 (Nat.not_lt_zero o)) trivial
    have hkept : Lived (fun _ _ => True) sampleKept :=
      (hshared.step (sampleMap 2) trivial trivial).step (.close 2 sampleHandle) trivial trivial
    obtain ⟨log, hlog, hdestroyed⟩ := calledAfter_spec
      (show calledAfter 0 (step sampleKept (.exit 2)).log = true by decide +kernel)
    exact h _ (hkept.step (.exit 2) trivial trivial) 0 log hlog hdestroyed
  · have hshared : Lived (fun _ _ => True) sampleShared :=
      hspawned.step (sampleAlloc 1) (fun _ _ o ho => absurd ho.1 (Nat.not_lt_zero o)) trivial
    have hmapped : Lived (fun _ _ => True) sampleMapped :=
      hshared.step (sampleMap 1) trivial trivial
    have hforked : Lived (fun _ _ => True) sampleForked := hmapped.step (.fork 1 true true)
        (show sampleMapped.stateRefs true = 0 by decide +kernel) trivial
    have hfreed := hforked.step (.sharedFree 1 sampleHandle) trivial trivial
    have habandoned : Lived (fun _ _ => True) sampleAbandoned :=
      hfreed.step (.close 2 sampleHandle) trivial trivial
    obtain ⟨o, frames, tables, log, frame, hlog, hframe, hmem⟩ := returnsMapped_spec
      (show returnsMapped true (pageOf Vma.mmapBaseDefault) sampleAbandoned.log = true by
        decide +kernel)
    exact h _ habandoned o frames tables log hlog true _ frame hframe hmem

end InstantOS.SharedMemory
