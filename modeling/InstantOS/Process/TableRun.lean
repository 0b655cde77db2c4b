import InstantOS.Memory.VmmTranslation
import InstantOS.Process.AddressSpace

/-!
# Page tables over the life of an address space

An address space is created, edited by `MapPageInto` and `UnmapRangeFrom`, and
torn down.  In a run whose calls are `Sound` every table frame that was taken
is found again: it is reachable from the root, and the teardown gives it back.

A call of `MapPageInto` that finds an upper entry missing is not `Sound`.  It
enters a new table without the private-table bit, `clone_table_if_needed` takes
it for a shared one and replaces it, and the first table is lost.
-/

namespace InstantOS.Vmm

variable {R : Family} {m m' : Machine} {r root : Frame}

/-! ## Calls on an address space -/

inductive TableCall where
  | map (va physAddr flags : BitVec 64)
  | unmap (virtualBase : BitVec 64) (pageCount : Nat)

def TableCall.run (root : Frame) (m : Machine) : TableCall → Machine
  | map va physAddr flags => (mapPageInto root va physAddr flags).exec m
  | unmap virtualBase pageCount => unmapRangeFrom m root virtualBase pageCount

/-- Calls on the lower half after which no table is lost.  For `MapPageInto`: all
entries above the leaf are present, those of levels 3 and 2 are user entries or
become user entries, and the frame allocator can supply the tables of one call.
For `UnmapRangeFrom`: the entries of levels 3 and 2 that are present are user
entries. -/
def TableCall.Sound (root : Frame) (m : Machine) : TableCall → Prop
  | map va _ flags =>
    (pml4Index va).toNat < 256 ∧
    (∀ e ∈ m.walk root (upperPath va), has e present = true) ∧
    (∀ e ∈ (m.walk root (upperPath va)).drop 1, has (e ||| flags) userSuper = true) ∧
    supplies m.pmm 3 = true
  | unmap virtualBase pageCount =>
    ∀ k, k < pageCount →
      (pml4Index (virtualBase + BitVec.ofNat 64 (k * 4096))).toNat < 256 ∧
      ∀ e ∈ (m.walk root (upperPath (virtualBase + BitVec.ofNat 64 (k * 4096)))).drop 1,
        has e present = true → has e userSuper = true

/-- The states that sound calls lead to. -/
inductive TableRun (root : Frame) (m : Machine) : Machine → Prop
  | start : TableRun root m m
  | call {m' : Machine} (run : TableRun root m m') (c : TableCall) (sound : c.Sound root m') :
      TableRun root m (c.run root m')

/-- The user bit of the flags is among the promoted bits. -/
private theorem userSuper_upperPromote (e flags : BitVec 64) :
    has (e ||| ((flags &&& userSuper) ||| (flags &&& readWrite))) userSuper =
      has (e ||| flags) userSuper := by
  rw [has_userSuper, has_userSuper]
  simp [userSuper, readWrite]

section

variable {base : List Frame} {s0 : Pmm.State} (hr : root ∈ R.procs) (hkernel : R.kernel ≠ root)
  (hscope : ∀ i, R.scope i ↔ i.toNat < 256)

include hr hkernel hscope

/-- A sound call keeps the ledger. -/
theorem TableCall.ledger {c : TableCall} (hL : Ledger R root base s0 m) (hbatch : m.deferred = [])
    (hc : c.Sound root m) :
    Ledger R root base s0 (c.run root m) ∧ (c.run root m).deferred = [] := by
  cases c with
  | map va physAddr flags =>
    obtain ⟨hlow, hall, huser, hs⟩ := hc
    have hin := (hscope _).mpr hlow
    refine ⟨mapPageInto_ledger hr hkernel hL va physAddr flags hin hall ?_ hs, ?_⟩
    · intro e he _
      rw [userSuper_upperPromote]
      exact huser e he
    · exact (mapPageInto_mapped hL.space hr va physAddr flags hin).change.quiet.deferred.trans
        hbatch
  | unmap virtualBase pageCount =>
    have hin := fun k hk => (hscope _).mpr (hc k hk).1
    refine ⟨unmapRangeFrom_ledger hr hkernel hL virtualBase pageCount hin ?_,
      (unmapRangeFrom_spec hL.space hr virtualBase pageCount hin).2⟩
    intro k hk e he hp
    rw [BitVec.or_zero]
    exact (hc k hk).2 e he hp

/-- Sound calls keep the ledger. -/
theorem TableRun.ledger (h : TableRun root m m') (hL : Ledger R root base s0 m)
    (hbatch : m.deferred = []) : Ledger R root base s0 m' ∧ m'.deferred = [] := by
  induction h with
  | start => exact ⟨hL, hbatch⟩
  | call _ c sound ih => exact TableCall.ledger hr hkernel hscope ih.1 ih.2 sound

end

/-- **Page-table frames are conserved** in every run of sound calls on a new
address space: each recorded table was recorded before the creation or is
reached from the root, and `FreeAddressSpace` brings back the records from before
and leaves no frame used that was free. -/
theorem page_tables_conserved (hS : Space R m) (hscope : ∀ i, R.scope i ↔ i.toNat < 256)
    (hprocs : R.kernel ∉ R.procs)
    (htop : ∀ i, i.toNat < 256 → has (m.mem R.kernel i) present = true →
      has (m.mem R.kernel i) largePage = false) (hbase : m.trace.tables.Nodup)
    (hused : ∀ f ∈ m.trace.tables, Pmm.testFrame m.pmm f.toNat = true) (hbatch : m.deferred = [])
    {m₁ m₂ : Machine} (hcreate : initializeAddressSpace m = (some root, m₁))
    (hrun : TableRun root m₁ m₂) :
    (∀ f ∈ m₂.trace.tables, f ∈ m.trace.tables ∨ ∃ p, m₂.tableAt root p = some f) ∧
      (freeAddressSpace m₂ root).trace.tables = m.trace.tables ∧
      ∀ k, Pmm.testFrame (freeAddressSpace m₂ root).pmm k = true →
        Pmm.testFrame m.pmm k = true := by
  have hcreated := initializeAddressSpace_spec hS hscope hprocs htop hbase hused hbatch
  rw [hcreate] at hcreated
  obtain ⟨copy, hN⟩ := hcreated
  have hkernel : R.kernel ≠ root := by
    rintro rfl
    exact hN.spare.unreached ⟨R.kernel, [], .inl rfl, rfl⟩
  have hr : root ∈ (R.add root).procs := List.mem_cons_self
  obtain ⟨hL, hempty⟩ := hrun.ledger hr hkernel hscope (hN.ledger hscope hprocs) hN.batch
  refine ⟨?_, hL.torn_down hkernel hr (fun i => (hscope i).trans mem_lowIndices.symm) hempty⟩
  intro f hf
  obtain ⟨new, hB⟩ := hL.books
  rw [hB.tables, List.mem_append] at hf
  rcases hf with hf | hf
  · rcases (hB.held f).mp hf with ⟨p, hO⟩ | hdef
    · exact .inr ⟨p, hO.reached⟩
    · rw [hempty] at hdef
      cases hdef
  · exact .inl hf

/-! ## Address spaces as maps -/

namespace TableCall

/-- The addresses whose translation a call sets. -/
def Sets : TableCall → BitVec 64 → Prop
  | map va _ _, a => virtualPage a = virtualPage va
  | unmap virtualBase pageCount, a => ∃ k, k < pageCount ∧
      virtualPage a = virtualPage (virtualBase + BitVec.ofNat 64 (k * 4096))

/-- What it sets them to. -/
def value : TableCall → BitVec 64 → BitVec 64
  | map _ physAddr _, a => (physAddr &&& addrMask) + BitVec.ofNat 64 (a.toNat % 4096)
  | unmap _ _, _ => 0#64

open Classical in
/-- A call on an address space as an update of the translations of all of them. -/
noncomputable def update (T : Frame → BitVec 64 → BitVec 64) (call : Frame × TableCall) (r : Frame)
    (a : BitVec 64) : BitVec 64 :=
  if r = call.1 ∧ call.2.Sets a then call.2.value a else T r a

theorem spec (hS : Space R m) (hr : root ∈ R.procs) {c : TableCall}
    (hscope : ∀ a, c.Sets a → R.scope (pml4Index a)) : Space R (c.run root m) ∧
    (m.trace.tableFailure → (c.run root m).trace.tableFailure) ∧
    ((c.run root m).trace.tableFailure = false →
      (∀ a, c.Sets a → virtualToPhysicalIn (c.run root m) root a = c.value a) ∧
      ∀ r a, R.Root r → ¬ (r = root ∧ c.Sets a) →
        virtualToPhysicalIn (c.run root m) r a = virtualToPhysicalIn m r a) := by
  have hne : root ≠ 0 := (hS.backed root ⟨root, [], .inr hr, rfl⟩).nonzero
  cases c with
  | map va physAddr flags =>
    have h := mapPageInto_mapped hS hr va physAddr flags (hscope va rfl)
    exact ⟨h.change.space, h.change.quiet.failure, h.translation hne⟩
  | unmap virtualBase pageCount =>
    have h := (unmapRangeFrom_spec hS hr virtualBase pageCount fun k hk => hscope _ ⟨k, hk, rfl⟩).1
    exact ⟨h.space, h.confined.failure, h.translation hne⟩

end TableCall

def runCalls (m : Machine) (calls : List (Frame × TableCall)) : Machine :=
  calls.foldl (fun m call => call.2.run call.1 m) m

/-- **The page tables implement the address spaces** over calls on any processes: they keep their
form, and while no table is missing a call updates its translations and no other of any root. -/
theorem calls_update (hS : Space R m) (calls : List (Frame × TableCall)) (hcalls : ∀ call ∈ calls,
      call.1 ∈ R.procs ∧ ∀ a, call.2.Sets a → R.scope (pml4Index a)) :
    Space R (runCalls m calls) ∧ ((runCalls m calls).trace.tableFailure = false → ∀ r a, R.Root r →
      virtualToPhysicalIn (runCalls m calls) r a =
        calls.foldl TableCall.update (virtualToPhysicalIn m) r a) := by
  -- from the last call back, as a failure of any call is still seen in the end
  induction calls using List.reverseRecOn with
  | nil => exact ⟨hS, fun _ _ _ _ => rfl⟩
  | append_singleton calls call ih =>
    obtain ⟨hS', hdone⟩ := ih fun c hc => hcalls c (List.mem_append_left _ hc)
    obtain ⟨hr, hscope⟩ := hcalls call (by simp)
    obtain ⟨hspace, hsticks, hdoes⟩ := TableCall.spec hS' hr hscope
    rw [runCalls, List.foldl_append, List.foldl_append]
    refine ⟨hspace, fun hok r a hroot => ?_⟩
    have hbefore := Bool.eq_false_iff.mpr (mt hsticks (Bool.eq_false_iff.mp hok))
    change _ = TableCall.update _ call r a
    unfold TableCall.update
    split_ifs with hin
    · rw [hin.1]
      exact (hdoes hok).1 a hin.2
    · exact ((hdoes hok).2 r a hroot hin).trans (hdone hbefore r a hroot)

theorem calls_update_sample : virtualToPhysicalIn (runCalls sampleMachine
    [(2#40, .map 0x5000#64 0x9000#64 7#64), (2#40, .unmap 0x6000#64 1)]) 2#40 0x5123#64 =
      0x9123#64 := by
  rw [(calls_update sampleMachine_space _ (by simp)).2 (by decide +kernel) _ _ (.inr (by decide))]
  simp only [List.foldl, TableCall.update, TableCall.Sets, TableCall.value]
  decide +kernel

/-! ## A kernel with one identity leaf -/

theorem sampleKernel_space : Space ⟨1#40, [], fun i => i.toNat < 256⟩ sampleMachine :=
  sampleMachine_space.restrict rfl (fun r hr => by cases hr) (fun _ _ => trivial)

private theorem eq_of_fst {α β : Type} {x : α × β} {a : α} (h : x.1 = a) : x = (a, x.2) := by
  rw [← h]

theorem sampleKernel_create : (initializeAddressSpace sampleMachine).1 = some 4#40 := by
  decide +kernel

theorem sampleKernel_top (i : Index) (hp : has (sampleMachine.mem 1#40 i) present) :
    has (sampleMachine.mem 1#40 i) largePage = false := by
  by_cases hi : i = 0#9
  · subst hi
    decide
  · rw [show sampleMachine.mem 1#40 i = 0#64 from if_neg hi] at hp
    cases hp

/-- The new address space, and what a page mapped into the identity leaf makes of
it: the leaf is split twice. -/
def sampleSpace : Machine := (initializeAddressSpace sampleMachine).2

def sampleCall : TableCall := .map 0x5000#64 0xF000#64 7#64

theorem sampleCall_sound : sampleCall.Sound 4#40 sampleSpace := by
  have hpresent : ((sampleSpace.walk 4#40 (upperPath 0x5000#64)).all fun e => has e present) =
      true := by decide +kernel
  have huser : (((sampleSpace.walk 4#40 (upperPath 0x5000#64)).drop 1).all fun e =>
      has (e ||| 7#64) userSuper) := by decide +kernel
  have hsupplies : supplies sampleSpace.pmm 3 := by decide +kernel
  exact ⟨by decide, List.all_eq_true.mp hpresent, List.all_eq_true.mp huser, hsupplies⟩

theorem sampleUnmap_sound :
    (TableCall.unmap 0x5000#64 1).Sound 4#40 (sampleCall.run 4#40 sampleSpace) := by
  have huser : ((((sampleCall.run 4#40 sampleSpace).walk 4#40 (upperPath 0x5000#64)).drop 1).all
      fun e => has e userSuper) := by decide +kernel
  intro k hk
  obtain rfl : k = 0 := by omega
  exact ⟨by decide, fun e he _ => List.all_eq_true.mp huser e he⟩

theorem page_tables_conserved_sample :
    (freeAddressSpace ((TableCall.unmap 0x5000#64 1).run 4#40 (sampleCall.run 4#40 sampleSpace))
      4#40).trace.tables = [] :=
  (page_tables_conserved sampleKernel_space (fun _ => .rfl) (by decide)
    (fun i _ => sampleKernel_top i) List.nodup_nil (fun f hf => by cases hf) rfl
    (eq_of_fst sampleKernel_create)
    (.call (.call .start sampleCall sampleCall_sound) _ sampleUnmap_sound)).2.1

set_option maxRecDepth 1000000 in
/-- A page is mapped where the kernel has no table: of the six tables taken for
it three are left after the teardown. -/
theorem mapPageInto_loses_tables : sampleMachine.trace.tables = [] ∧
      (initializeAddressSpace sampleMachine).1 = some 4#40 ∧
      (freeAddressSpace ((mapPageInto 4#40 0x600000000000#64 0xF000#64 7#64).exec
        (initializeAddressSpace sampleMachine).2) 4#40).trace.tables = [10#40, 8#40, 6#40] :=
  ⟨rfl, sampleKernel_create, by decide +kernel⟩

end InstantOS.Vmm
