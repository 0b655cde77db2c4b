import InstantOS.Ipc.SharedMemory
import InstantOS.Process.HandleCalls

/-!
# The lifetime of a shared memory object

Two counts decide when an object is destroyed: the references of its handles and the list
of its mappings.  `Lasting` says what they have to do with the rest of the system: every
reference an open handle holds is counted, every shared page of a page table lies in the
range of a recorded mapping, and an object that was destroyed has neither references nor
mappings.  The methods of an object keep it as long as `unmapFrom` leaves the object
something to live on; `release` may then destroy, because no page maps its frames.
-/

namespace InstantOS.SharedMemory

open Function List

open Pmm (pageSize)
open Handles (net)

variable {T : Type}

/-! ## What a log must look like -/

/-- The object has been destroyed. -/
def Destroyed (log : List (LifeEvent T)) (o : Nat) : Prop :=
  ∃ frames tables, .destroy o frames tables ∈ log

/-- The events of an orderly life, the latest first: nothing happens to an object after its
`destroy`, and then no page table maps any of the frames it returns. -/
def Orderly : List (LifeEvent T) → Prop
  | [] => True
  | .call o :: log => ¬ Destroyed log o ∧ Orderly log
  | .destroy o frames tables :: log =>
    ¬ Destroyed log o ∧ (∀ t page frame, tables t page = some frame → frame ∉ frames) ∧ Orderly log

@[simp] theorem destroyed_call (log : List (LifeEvent T)) (o o' : Nat) :
    Destroyed (.call o' :: log) o ↔ Destroyed log o := by
  simp [Destroyed]

theorem destroyed_destroy {log : List (LifeEvent T)} {o o' : Nat} {frames : List Nat}
    {tables : T → PageTable} :
    Destroyed (.destroy o' frames tables :: log) o ↔ o = o' ∨ Destroyed log o := by
  constructor
  · rintro ⟨frames', tables', hmem⟩
    rcases mem_cons.mp hmem with heq | hmem
    · cases heq
      exact .inl rfl
    · exact .inr ⟨frames', tables', hmem⟩
  · rintro (rfl | ⟨frames', tables', hmem⟩)
    · exact ⟨frames, tables, mem_cons_self⟩
    · exact ⟨frames', tables', mem_cons_of_mem _ hmem⟩

@[simp] theorem setObject_self (s : System T) (o : Nat) (object : SharedMemoryObject) :
    (s.setObject o object).objects o = object := update_self ..

theorem setObject_ne (s : System T) {o o' : Nat} (object : SharedMemoryObject) (hne : o' ≠ o) :
    (s.setObject o object).objects o' = s.objects o' := update_of_ne hne _ _

/-! ## The invariant -/

/-- An object that exists. -/
def System.Alive (s : System T) (o : Nat) : Prop := o < s.created ∧ ¬ Destroyed s.log o

@[simp] theorem alive_note {s : System T} {o o' : Nat} :
    (s.note (.call o')).Alive o ↔ s.Alive o := by
  simp only [System.Alive, System.note, destroyed_call]

/-- The frame at a page belongs to an object that has a mapping for it, made for a process
of this page table. -/
def System.Recorded (s : System T) (t : T) (page frame : Nat) : Prop :=
  ∃ o, ∃ m ∈ (s.objects o).mappings, frame ∈ (s.objects o).frames ∧
    page ∈ rangePages m.address (s.objects o).pages ∧
    ∀ process, s.processes m.pid = some process → process.sharedState = t

/-- The system while the open handles hold `refs` references of each object. -/
structure Lasting (refs : Nat → Int) (s : System T) : Prop where
  counted : ∀ o, refs o ≤ (s.objects o).refCount
  bounded : ∀ o, (s.objects o).refCount < 2 ^ 32
  unused : ∀ o, ¬ s.Alive o → (s.objects o).refCount = 0 ∧ (s.objects o).mappings = []
  made : ∀ o, Destroyed s.log o → o < s.created
  registered : ∀ i o, s.sharedObjects i = some o → s.Alive o
  once : ∀ i j o, s.sharedObjects i = some o → s.sharedObjects j = some o → i = j
  recorded : ∀ t page frame, s.pageTable t page = some frame → s.Recorded t page frame
  apart : ∀ o o' frame, s.Alive o → s.Alive o' → frame ∈ (s.objects o).frames →
    frame ∈ (s.objects o').frames → o = o'
  named : ∀ pid process, s.processes pid = some process → process.pid = pid
  orderly : Orderly s.log

namespace Lasting

variable {refs : Nat → Int} {s : System T} {o : Nat}

section

variable (h : Lasting refs s)

include h

/-- What a handle refers to exists. -/
theorem alive (ho : 1 ≤ refs o) : s.Alive o := by
  by_contra hdead
  have hcounted := h.counted o
  have hnone := (h.unused o hdead).1
  omega

/-- What is mapped exists. -/
theorem alive_of_mem {m : Mapping} (hm : m ∈ (s.objects o).mappings) : s.Alive o := by
  by_contra hdead
  rw [(h.unused o hdead).2] at hm
  exact not_mem_nil hm

variable {page frame : Nat}

/-- No page maps a frame of an object without mappings. -/
theorem unmapped (ho : s.Alive o) (hnone : (s.objects o).mappings = []) {t : T}
    (hpage : s.pageTable t page = some frame) : frame ∉ (s.objects o).frames := by
  intro hframe
  obtain ⟨o', m, hm, hframe', -⟩ := h.recorded t page frame hpage
  have hsame := h.apart o o' frame ho (h.alive_of_mem hm) hframe hframe'
  rw [← hsame, hnone] at hm
  exact not_mem_nil hm

/-- Pages and processes may go, and what no object knows of may change. -/
theorem trim {handles : Handles.World T Nat Unit} {nextPID : Nat} {stateRefs mmapBase : T → Nat}
    {processes : Nat → Option (Process T)} {pageTable : T → PageTable}
    (hpages : ∀ t page frame, pageTable t page = some frame → s.pageTable t page = some frame
      := by exact fun _ _ _ hpage => hpage)
    (hprocesses : ∀ pid process, processes pid = some process → s.processes pid = some process
      := by exact fun _ _ hp => hp) :
    Lasting refs { s with handles, nextPID, stateRefs, mmapBase, processes, pageTable } :=
  { h with
    recorded := fun t page frame hpage => by
      obtain ⟨o, m, hm, hframe, hrange, hstate⟩ :=
        h.recorded t page frame (hpages t page frame hpage)
      exact ⟨o, m, hm, hframe, hrange, fun process hp => hstate process (hprocesses _ _ hp)⟩
    named := fun pid process hp => h.named pid process (hprocesses pid process hp) }

/-- A new process takes a pid that no process has and no mapping names. -/
theorem adopt {process : Process T}
    (hfree : ∀ o, ∀ m ∈ (s.objects o).mappings, m.pid ≠ process.pid) : Lasting refs { s with
      processes := update s.processes process.pid (some process) } := by
  refine { h with recorded := fun t page frame hpage => ?_, named := fun pid other hother => ?_ }
  · obtain ⟨o, m, hm, hframe, hrange, hstate⟩ := h.recorded t page frame hpage
    refine ⟨o, m, hm, hframe, hrange, fun other hother => hstate other ?_⟩
    dsimp only at hother
    rwa [update_of_ne (hfree o m hm)] at hother
  · dsimp only at hother
    by_cases hpid : pid = process.pid
    · rw [hpid, update_self, Option.some.injEq] at hother
      rw [hpid, hother]
    · rw [update_of_ne hpid] at hother
      exact h.named pid other hother

/-- A method starts on an object that exists. -/
theorem call (ho : s.Alive o) : Lasting refs (s.note (.call o)) := by
  have halive : (s.note (.call o)).Alive = s.Alive := funext fun _ => propext alive_note
  refine ⟨h.counted, h.bounded, ?_, ?_, ?_, h.once, h.recorded, ?_, h.named, ho.2, h.orderly⟩
  · rw [halive]
    exact h.unused
  · intro o' hdestroyed
    exact h.made o' ((destroyed_call _ _ _).mp hdestroyed)
  · rw [halive]
    exact h.registered
  · rw [halive]
    exact h.apart

/-- The object `o` gets other references and mappings, and the page tables follow. -/
theorem edit (ho : s.Alive o) (object : SharedMemoryObject)
    (tables : T → PageTable) (refs' : Nat → Int)
    (hframes : object.frames = (s.objects o).frames) (hcounted : refs' o ≤ object.refCount)
    (hbounded : object.refCount < 2 ^ 32) (hother : ∀ o', o' ≠ o → refs' o' ≤ refs o')
    (hrecorded : ∀ t page frame, tables t page = some frame →
      ({ s with pageTable := tables }.setObject o object).Recorded t page frame) :
    Lasting refs' ({ s with pageTable := tables }.setObject o object) := by
  have hsame : ∀ o', (({ s with pageTable := tables }.setObject o object).objects o').frames =
      (s.objects o').frames := by
    intro o'
    by_cases heq : o' = o
    · rw [heq, setObject_self, hframes]
    · rw [setObject_ne _ _ heq]
  refine ⟨fun o' => ?_, fun o' => ?_, fun o' hdead => ?_, h.made, h.registered, h.once, hrecorded,
    fun o1 o2 frame h1 h2 hframe1 hframe2 => ?_, h.named, h.orderly⟩
  · by_cases heq : o' = o
    · rw [heq, setObject_self]
      exact hcounted
    · rw [setObject_ne _ _ heq]
      exact (hother o' heq).trans (h.counted o')
  · by_cases heq : o' = o
    · rw [heq, setObject_self]
      exact hbounded
    · rw [setObject_ne _ _ heq]
      exact h.bounded o'
  · have heq : o' ≠ o := by
      rintro rfl
      exact hdead ho
    rw [setObject_ne _ _ heq]
    exact h.unused o' hdead
  · rw [hsame] at hframe1 hframe2
    exact h.apart o1 o2 frame h1 h2 hframe1 hframe2

end

/-- A page stays recorded when the mapping behind it stays. -/
theorem recorded_edit {object : SharedMemoryObject} {tables : T → PageTable} {t : T}
    (hpages : object.pages = (s.objects o).pages)
    (hframes : object.frames = (s.objects o).frames) (hpage : s.Recorded t page frame)
    (hkept : ∀ m ∈ (s.objects o).mappings, page ∈ rangePages m.address (s.objects o).pages →
      (∀ process, s.processes m.pid = some process → process.sharedState = t) →
      m ∈ object.mappings) :
    ({ s with pageTable := tables }.setObject o object).Recorded t page frame := by
  obtain ⟨o', m, hm, hframe, hrange, hstate⟩ := hpage
  by_cases heq : o' = o
  · subst heq
    refine ⟨o', m, ?_, ?_, ?_, hstate⟩ <;> rw [setObject_self]
    · exact hkept m hm hrange hstate
    · rwa [hframes]
    · rwa [hpages]
  · refine ⟨o', m, ?_, ?_, ?_, hstate⟩ <;> rw [setObject_ne _ _ heq]
    · exact hm
    · exact hframe
    · exact hrange

/-- Another count of references. -/
theorem recount (h : Lasting refs s) (n : Nat) (refs' : Nat → Int) (ho : s.Alive o)
    (hn : refs' o ≤ n) (hbound : n < 2 ^ 32) (hother : ∀ o', o' ≠ o → refs' o' ≤ refs o') :
    Lasting refs' (s.setObject o { s.objects o with refCount := n }) :=
  h.edit ho { s.objects o with refCount := n } s.pageTable refs' rfl hn hbound hother
    fun t page frame hpage =>
      recorded_edit rfl rfl (h.recorded t page frame hpage) fun _ hm _ _ => hm

/-! ## References -/

/-- One more reference of `o`, or one less. -/
theorem retain (h : Lasting refs s) (ho : 1 ≤ refs o)
    (hroom : (s.objects o).refCount + 1 < 2 ^ 32) :
    Lasting (update refs o (refs o + 1)) (retain s o) := by
  have halive := h.alive ho
  have hcounted := h.counted o
  have hcount : ((s.objects o).refCount + 1) % 2 ^ 32 = (s.objects o).refCount + 1 :=
    Nat.mod_eq_of_lt hroom
  unfold SharedMemory.retain
  refine (h.call halive).recount _ _ (alive_note.mpr halive) ?_ (Nat.mod_lt _ (by decide))
    fun o' hne => by rw [update_of_ne hne]
  rw [update_self]
  show refs o + 1 ≤ (((s.objects o).refCount + 1) % 2 ^ 32 : Nat)
  rw [hcount]
  push_cast
  omega

/-- The object leaves the registry. -/
theorem forget_registry (h : Lasting refs s) (o : Nat) (i : Fin maxSharedObjects) :
    (forgetSharedObject s o).sharedObjects i =
      if s.sharedObjects i = some o then none else s.sharedObjects i := by
  unfold forgetSharedObject
  cases hfind : (finRange maxSharedObjects).find? fun i => s.sharedObjects i = some o with
  | none =>
    have hnone := find?_eq_none.mp hfind i (mem_finRange i)
    simp only [decide_eq_true_eq] at hnone
    rw [if_neg hnone]
  | some j =>
    have hfound := find?_some hfind
    simp only [decide_eq_true_eq] at hfound
    by_cases hi : s.sharedObjects i = some o
    · rw [if_pos hi, h.once i j o hi hfound]
      exact update_self ..
    rw [if_neg hi]
    refine update_of_ne ?_ _ _
    rintro rfl
    exact hi hfound

/-- Besides the registry `forgetSharedObject` changes nothing. -/
theorem forget_eq (s : System T) (o : Nat) : forgetSharedObject s o =
    { s with sharedObjects := (forgetSharedObject s o).sharedObjects } := by
  unfold forgetSharedObject
  split <;> rfl

/-- An object without references and mappings is destroyed. -/
theorem destroy (h : Lasting refs s) (ho : s.Alive o)
    (hdone : (s.objects o).canDestroy) : Lasting refs (destroy s o) := by
  simp only [SharedMemoryObject.canDestroy, decide_eq_true_eq, length_eq_zero_iff] at hdone
  have hregistry := h.forget_registry o
  have heq : SharedMemory.destroy s o =
      { s with
        sharedObjects := (forgetSharedObject s o).sharedObjects
        log := .destroy o (s.objects o).frames s.pageTable :: s.log } := by
    unfold SharedMemory.destroy
    rw [forget_eq]
    rfl
  rw [heq]
  have halive : ∀ o', System.Alive { s with
      sharedObjects := (forgetSharedObject s o).sharedObjects
      log := .destroy o (s.objects o).frames s.pageTable :: s.log } o' ↔ o' ≠ o ∧ s.Alive o' := by
    intro o'
    simp only [System.Alive, destroyed_destroy]
    tauto
  refine ⟨h.counted, h.bounded, fun o' hdead => ?_, fun o' hdestroyed => ?_, fun i o' hi => ?_,
    fun i j o' hi hj => ?_, h.recorded, fun o1 o2 frame h1 h2 => ?_, h.named, ho.2, ?_, h.orderly⟩
  · by_cases hsame : o' = o
    · rw [hsame]
      exact hdone
    · exact h.unused o' fun hlive => hdead ((halive o').mpr ⟨hsame, hlive⟩)
  · rcases destroyed_destroy.mp hdestroyed with rfl | hbefore
    · exact ho.1
    · exact h.made o' hbefore
  · rw [hregistry] at hi
    split at hi
    · cases hi
    rename_i hne
    refine (halive o').mpr ⟨?_, h.registered i o' hi⟩
    rintro rfl
    exact hne hi
  · rw [hregistry] at hi hj
    split at hi
    · cases hi
    · split at hj
      · cases hj
      · exact h.once i j o' hi hj
  · exact h.apart o1 o2 frame ((halive o1).mp h1).2 ((halive o2).mp h2).2
  · exact fun t page frame hpage => h.unmapped ho hdone.2 hpage

/-- A reference that is held is given back; the last one of an unmapped object ends it. -/
theorem release (h : Lasting refs s) (ho : 1 ≤ refs o) :
    Lasting (update refs o (refs o - 1)) (release s o) := by
  have halive := h.alive ho
  have hcounted := h.counted o
  have hbounded := h.bounded o
  have hlive : (s.note (.call o)).Alive o := alive_note.mpr halive
  have hpositive : (s.objects o).refCount ≠ 0 := by omega
  have hless := (h.call halive).recount ((s.objects o).refCount - 1)
    (update refs o (refs o - 1)) hlive
    (by rw [update_self]; omega) (by omega)
    fun o' hne => by rw [update_of_ne hne]
  rw [show SharedMemory.release s o = destroyIfUnused ((s.note (.call o)).setObject o
    { (s.note (.call o)).objects o with refCount := (s.objects o).refCount - 1 }) o from
      if_neg hpositive]
  unfold destroyIfUnused
  split
  · rename_i hdone
    exact hless.destroy hlive hdone
  · exact hless

end Lasting

/-! ## Mappings -/

/-- A page that `MapRangeInto` leaves was there, or is one of the range and maps a frame of
the object. -/
theorem mapRangeInto_some {table : PageTable} {address physBase pages : Nat} {mapped : Nat → Bool}
    (h : mapRangeInto table address physBase pages mapped page = some frame) :
    table page = some frame ∨ (page ∈ rangePages address pages ∧
      frame ∈ (List.range pages).map fun i => (physBase + i * pageSize) / pageSize) := by
  induction pages with
  | zero => exact .inl h
  | succ n ih =>
    simp only [mapRangeInto, range_succ, foldl_append, foldl_cons, foldl_nil] at h ih
    simp only [rangePages, range_succ, map_append, mem_append]
    split at h
    · by_cases hpage : page = pageOf (Vma.add64 address (n * pageSize))
      · rw [hpage, update_self, Option.some.injEq] at h
        exact .inr ⟨.inr (by simp [hpage]), .inr (by simp [← h])⟩
      · rw [update_of_ne hpage] at h
        exact (ih h).imp id fun hin => ⟨.inl hin.1, .inl hin.2⟩
    · exact (ih h).imp id fun hin => ⟨.inl hin.1, .inl hin.2⟩

theorem unmapRangeFrom_some {table : PageTable} {address pages page frame : Nat}
    (h : unmapRangeFrom table address pages page = some frame) :
    table page = some frame ∧ page ∉ rangePages address pages := by
  unfold unmapRangeFrom at h
  split at h
  · cases h
  · rename_i hout
    exact ⟨h, hout⟩

/-- A mapping other than the removed one stays in the list. -/
theorem mem_removeSlot {mappings : List Mapping} {slot : Fin mappings.length} {m : Mapping}
    (hm : m ∈ mappings) (hne : m ≠ mappings.get slot) : m ∈ removeSlot mappings slot := by
  obtain ⟨front, last, rfl⟩ : ∃ front last, mappings = front ++ [last] :=
    ⟨_, _, (dropLast_append_getLast (ne_nil_of_mem hm)).symm⟩
  simp only [removeSlot, getLast?_append, getLast?_singleton, Option.some_or]
  obtain ⟨slot, hslot⟩ := slot
  simp only [length_append, length_singleton] at hslot
  simp only [get_eq_getElem] at hne
  by_cases hfront : slot < front.length
  · -- The last mapping moves into `slot`; the others are where they were.
    rw [set_append_left _ _ hfront, dropLast_concat]
    rw [getElem_append_left hfront] at hne
    rcases mem_append.mp hm with hin | hin
    · obtain ⟨i, hi, rfl⟩ := getElem_of_mem hin
      refine mem_iff_getElem.mpr ⟨i, by simpa using hi, ?_⟩
      refine getElem_set_ne (fun heq => hne ?_) _
      subst heq
      rfl
    · rw [mem_singleton.mp hin]
      exact mem_iff_getElem.mpr ⟨slot, by simpa using hfront, getElem_set_self _⟩
  · have hlast : slot = front.length := by omega
    subst hlast
    simp only [getElem_concat_length] at hne
    rw [set_append_right _ _ (le_refl _), Nat.sub_self, set_cons_zero, dropLast_concat]
    exact (mem_append.mp hm).resolve_right fun hin => hne (mem_singleton.mp hin)

/-- And nothing else comes in. -/
theorem mem_of_mem_removeSlot {mappings : List Mapping} {slot : Nat} {m : Mapping}
    (hm : m ∈ removeSlot mappings slot) : m ∈ mappings := by
  unfold removeSlot at hm
  split at hm
  · exact absurd hm not_mem_nil
  rename_i last hlast
  rcases mem_or_eq_of_mem_set (mem_of_mem_dropLast hm) with hin | heq
  · exact hin
  · rw [heq]
    exact mem_of_getLast? hlast

theorem findMappingSlot_some {object : SharedMemoryObject} {pid : Nat}
    {slot : Fin object.mappings.length} (h : object.findMappingSlot pid = some slot) :
    (object.mappings.get slot).pid = pid := by
  have hfound := find?_some h
  simpa only [decide_eq_true_eq] using hfound

section

variable [DecidableEq T] {refs : Nat → Int} {s : System T} {o : Nat} {process : Process T}

/-- `mapInto` records the pages it maps. -/
theorem Lasting.mapInto (h : Lasting refs s) (ho : s.Alive o)
    (hprocess : s.processes process.pid = some process) (mapped : Nat → Bool) :
    Lasting refs (mapInto s o process mapped).2 := by
  have hcall := h.call ho
  unfold SharedMemory.mapInto
  dsimp only
  split
  · exact hcall
  split
  · exact hcall
  -- The cursor moves first, then the range is mapped and the mapping recorded.
  generalize hbase : update (s.note (.call o)).mmapBase process.sharedState _ = base
  have hmoved : Lasting refs { s.note (.call o) with mmapBase := base } :=
    hcall.trim
  refine hmoved.edit (alive_note.mpr ho) _ _ refs rfl (h.counted o) (h.bounded o)
    (fun _ _ => le_refl _) fun t page frame hpage => ?_
  by_cases ht : t = process.sharedState
  · subst ht
    rw [update_self] at hpage
    rcases mapRangeInto_some hpage with hold | ⟨hrange, hframe⟩
    · exact Lasting.recorded_edit rfl rfl (hmoved.recorded _ page frame hold)
        fun m hm _ _ => mem_append_left _ hm
    refine ⟨o, ⟨process.pid, s.mmapBase process.sharedState⟩, ?_, ?_, ?_, fun other hother => ?_⟩
    · rw [setObject_self]
      exact mem_append_right _ (mem_singleton_self _)
    · rw [setObject_self]
      exact hframe
    · rw [setObject_self]
      exact hrange
    · rw [show s.processes process.pid = some other from hother, Option.some.injEq] at hprocess
      rw [hprocess]
  · rw [update_of_ne ht] at hpage
    exact Lasting.recorded_edit rfl rfl (hmoved.recorded t page frame hpage)
      fun m hm _ _ => mem_append_left _ hm

/-- Something besides the mappings of `pid` keeps the object, or it has none of these. -/
def System.Steady (s : System T) (pid o : Nat) : Prop :=
  (∃ m ∈ (s.objects o).mappings, m.pid = pid) →
    0 < (s.objects o).refCount ∨ ∃ m ∈ (s.objects o).mappings, m.pid ≠ pid

/-- What `unmapAllFrom` leaves alone: the handles, the registry and the processes, the
references, and the mappings of other pids.  It destroys nothing. -/
structure Spares (pid : Nat) (s s' : System T) : Prop where
  handles : s'.handles = s.handles
  processes : s'.processes = s.processes
  sharedObjects : s'.sharedObjects = s.sharedObjects
  alive : ∀ o, s.Alive o → s'.Alive o
  refCount : ∀ o, (s'.objects o).refCount = (s.objects o).refCount
  mappings : ∀ o, ∀ m ∈ (s'.objects o).mappings, m ∈ (s.objects o).mappings
  others : ∀ o, ∀ m ∈ (s.objects o).mappings, m.pid ≠ pid → m ∈ (s'.objects o).mappings

omit [DecidableEq T] in
theorem Spares.refl (pid : Nat) (s : System T) : Spares pid s s :=
  ⟨rfl, rfl, rfl, fun _ h => h, fun _ => rfl, fun _ _ h => h, fun _ _ h _ => h⟩

omit [DecidableEq T] in
theorem Spares.trans {pid : Nat} {s1 s2 s3 : System T} (h1 : Spares pid s1 s2)
    (h2 : Spares pid s2 s3) : Spares pid s1 s3 where
  handles := h2.handles.trans h1.handles
  processes := h2.processes.trans h1.processes
  sharedObjects := h2.sharedObjects.trans h1.sharedObjects
  alive o ho := h2.alive o (h1.alive o ho)
  refCount o := (h2.refCount o).trans (h1.refCount o)
  mappings o m hm := h1.mappings o m (h2.mappings o m hm)
  others o m hm hne := h2.others o m (h1.others o m hm hne) hne

omit [DecidableEq T] in
theorem Spares.steady {pid : Nat} {s s' : System T} (h : Spares pid s s')
    (hsteady : s.Steady pid o) : s'.Steady pid o := by
  rintro ⟨m, hm, hpid⟩
  rw [h.refCount]
  refine (hsteady ⟨m, h.mappings o m hm, hpid⟩).imp id ?_
  rintro ⟨other, hother, hne⟩
  exact ⟨other, h.others o other hother hne, hne⟩

omit [DecidableEq T] in
theorem spares_call (pid : Nat) (s : System T) (o : Nat) : Spares pid s (s.note (.call o)) :=
  ⟨rfl, rfl, rfl, fun _ => alive_note.mpr, fun _ => rfl, fun _ _ h => h, fun _ _ h _ => h⟩

/-- One turn of the loop takes the pages of the mapping it removes. -/
theorem Lasting.unmapFrom (h : Lasting refs s) (ho : s.Alive o)
    (hprocess : s.processes process.pid = some process) (hsteady : s.Steady process.pid o) :
    Lasting refs (unmapFrom s o process).2 ∧ Spares process.pid s (unmapFrom s o process).2 := by
  have hcall := h.call ho
  have hspares := spares_call process.pid s o
  unfold SharedMemory.unmapFrom
  dsimp only
  split
  · exact ⟨hcall, hspares⟩
  rename_i slot hslot
  have hpid := findMappingSlot_some hslot
  -- What keeps the object is still there when the mapping is gone.
  have hkeeps : 0 < (s.objects o).refCount ∨ removeSlot (s.objects o).mappings slot ≠ [] := by
    refine (hsteady ⟨_, get_mem _ slot, hpid⟩).imp id ?_
    rintro ⟨other, hother, hne⟩
    refine ne_nil_of_mem (mem_removeSlot hother ?_)
    rintro rfl
    exact hne hpid
  rw [destroyIfUnused, if_neg]
  · refine ⟨hcall.edit (alive_note.mpr ho) _ _ refs rfl (h.counted o) (h.bounded o)
      (fun _ _ => le_refl _) fun t page frame hpage => ?_, hspares.trans ?_⟩
    · by_cases ht : t = process.sharedState
      · subst ht
        rw [update_self] at hpage
        obtain ⟨hold, hout⟩ := unmapRangeFrom_some hpage
        refine Lasting.recorded_edit rfl rfl (hcall.recorded _ page frame hold)
          fun m hm hrange _ => mem_removeSlot hm ?_
        rintro rfl
        exact hout hrange
      · rw [update_of_ne ht] at hpage
        refine Lasting.recorded_edit rfl rfl (hcall.recorded t page frame hpage)
          fun m hm _ hstate => mem_removeSlot hm ?_
        rintro rfl
        exact ht (hstate process (by rw [hpid]; exact hprocess)).symm
    · refine ⟨rfl, rfl, rfl, fun _ halive => halive, fun o' => ?_, fun o' => ?_, fun o' => ?_⟩ <;>
        by_cases heq : o' = o
      all_goals first | rw [setObject_ne _ _ heq] | rw [heq, setObject_self]
      · rfl
      · exact fun _ => mem_of_mem_removeSlot
      · exact fun _ hm => hm
      · rintro m hm hne
        refine mem_removeSlot hm ?_
        rintro rfl
        exact hne hpid
      · exact fun _ hm _ => hm
  · rw [setObject_self]
    simp only [SharedMemoryObject.canDestroy, decide_eq_true_eq, length_eq_zero_iff]
    rintro ⟨hzero, hempty⟩
    exact hkeeps.elim (fun hpos => absurd hzero hpos.ne') fun hsome => hsome hempty

/-- The loop goes on with an object that exists. -/
theorem Lasting.unmapLoop (fuel : Nat) : ∀ {s : System T}, Lasting refs s → s.Alive o →
      s.processes process.pid = some process → s.Steady process.pid o →
      Lasting refs (unmapLoop o process fuel s) ∧
        Spares process.pid s (unmapLoop o process fuel s) := by
  induction fuel with
  | zero => exact fun h _ _ _ => ⟨h, .refl _ _⟩
  | succ fuel ih =>
    intro s h ho hprocess hsteady
    obtain ⟨hturn, hspares⟩ := h.unmapFrom ho hprocess hsteady
    unfold SharedMemory.unmapLoop
    dsimp only
    split
    · obtain ⟨hrest, hspares'⟩ := ih hturn (hspares.alive o ho)
        (hspares.processes ▸ hprocess) (hspares.steady hsteady)
      exact ⟨hrest, hspares.trans hspares'⟩
    · exact ⟨hturn, hspares⟩

theorem Lasting.unmapAllFrom (h : Lasting refs s) (ho : s.Alive o)
    (hprocess : s.processes process.pid = some process) (hsteady : s.Steady process.pid o) :
    Lasting refs (unmapAllFrom s o process) ∧ Spares process.pid s (unmapAllFrom s o process) := by
  have hspares := spares_call process.pid s o
  obtain ⟨hrest, hspares'⟩ := Lasting.unmapLoop (((s.note (.call o)).objects o).mappings.length + 1)
    (h.call ho) (hspares.alive o ho) hprocess (hspares.steady hsteady)
  exact ⟨hrest, hspares.trans hspares'⟩

/-- `cleanupProcess` when every registered object it meets is steady. -/
theorem Lasting.cleanupProcess (h : Lasting refs s)
    (hprocess : s.processes process.pid = some process)
    (hsteady : ∀ i o, s.sharedObjects i = some o → s.Steady process.pid o) :
    Lasting refs (cleanupProcess s process) ∧ Spares process.pid s (cleanupProcess s process) := by
  unfold SharedMemory.cleanupProcess
  -- The registry does not change, so the loop meets the objects that were there.
  generalize finRange maxSharedObjects = slots
  induction slots generalizing s with
  | nil => exact ⟨h, .refl _ _⟩
  | cons i slots ih =>
    rw [foldl_cons]
    cases hi : s.sharedObjects i with
    | none => exact ih h hprocess hsteady
    | some o =>
      obtain ⟨hturn, hspares⟩ := h.unmapAllFrom (h.registered i o hi) hprocess (hsteady i o hi)
      obtain ⟨hrest, hspares'⟩ := ih hturn (hspares.processes ▸ hprocess) fun j o' hj =>
        hspares.steady (hsteady j o' (hspares.sharedObjects ▸ hj))
      exact ⟨hrest, hspares.trans hspares'⟩

end

end InstantOS.SharedMemory
