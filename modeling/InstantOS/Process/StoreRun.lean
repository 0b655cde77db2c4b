import InstantOS.Process.StoreCalls

/-!
# The life of a process that maps files

The steps of one process from its image to its end: memory calls, page faults, stores its
page tables permit, forks, after which the story goes on with the parent or the child, the
ends of threads and the exit.  A store to a copy-on-write page takes the fault that makes the
page private and writable first.

`shared_stores_reach_the_file` says that no store through a shared file mapping is lost in a
run of careful steps.  Two ways to lose one that a process can go at any time are
`fixed_mmap_loses_stores` and, by `StaysWritable`, taking the write protection away before
the mapping goes.
-/

namespace InstantOS.Vma

open Function

open Pmm (pageSize)

variable {File Obj : Type}

/-- A process: its address space and what has been seen of it. -/
structure Story (File Obj : Type) where
  space : Space File Obj
  log : List (Event File)

/-- A step of the process.  A fork tells which of the two processes the story follows, the end
of a thread names its stack if that is backed by the kernel heap, an exit lists the pages that
are present. -/
inductive StoryOp (File Obj : Type)
  | call (op : MemCall File Obj)
  | store (va i : Nat) (byte : BitVec 8)
  | fork (child : Bool) (stopped : Option Nat)
  | endThread (base pages : Nat)
  | exit (pages : List Nat)

/-- The flags of a page that takes a store, after `HandleCowFault` if it was copy-on-write. -/
def LeafFlags.stored (flags : LeafFlags) : LeafFlags :=
  if flags.readWrite then flags else { flags with readWrite := true, cow := false }

/-- One step. -/
def Story.step (canWrite : File → Bool) (st : Story File Obj) : StoryOp File Obj → Story File Obj
  | .call op =>
    ⟨(op.run canWrite st.space).space, st.log ++ (op.run canWrite st.space).events⟩
  | .store va i byte =>
    match st.space.pages va with
    | none => st
    | some page =>
      if i < pageSize && (page.flags.readWrite || page.flags.cow) then
        ⟨{ st.space with
            pages := update st.space.pages va
              (some { bytes := update page.bytes i byte, flags := page.flags.stored }) },
          st.log ++ [.store va i byte]⟩
      else st
  | .fork child stopped =>
    let (parent, forked) := sysFork st.space stopped
    ⟨if child then forked.getD parent else parent, st.log⟩
  | .endThread base pages =>
    -- `~Process` unmaps the stack and writes nothing back
    ⟨st.space.without (userPages base pages), st.log ++ st.space.drops (userPages base pages)⟩
  | .exit pages =>
    ⟨{ regions := [], mmapBase := st.space.mmapBase, pages := fun _ => none },
      st.log ++ releaseSharedState canWrite st.space pages⟩

/-- The condition of each call: its region nodes are allocated; a mapping without a fixed
address goes where no page is present; a fixed `sys_mmap` drops no page of a writable shared
file mapping; a shared file mapping has a file that can be written, a protection, and no file
position behind `2 ^ 64`; `sys_mprotect` does not take the write protection of such a mapping
away; the ranges end within the 48 bits a walk reads. -/
def MemCall.Careful (canWrite : File → Bool) (s : Space File Obj) : MemCall File Obj → Prop
  | .mmap allocs addr length _ =>
    allocs = .granted ∧ (addr = 0 → s.Vacant s.mmapBase (pageCount length * pageSize)) ∧
      (addr ≠ 0 → s.Unshared addr (pageCount length))
  | .mmapFile allocs addr length prot shared fd offset =>
    allocs = .granted ∧ (addr = 0 → s.Vacant s.mmapBase (pageCount length * pageSize)) ∧
      offset + pageCount length * pageSize ≤ 2 ^ 64 ∧
      ∀ d, fd = some d → shared = true → canWrite d.file = true ∧ prot ≠ 0
  | .msync _ _ => True
  | .mprotect allocs addr length prot =>
    allocs = .granted ∧ addr + pageCount length * pageSize ≤ 2 ^ 48 ∧
      s.StaysWritable addr (pageCount length * pageSize) prot
  | .munmap allocs addr length =>
    allocs = .granted ∧ addr + pageCount length * pageSize ≤ 2 ^ 48
  | .fault _ _ _ => True
  | .thread stackSize _ _ => s.StackRoom (stackBytes stackSize)

/-- The exit frees every present page. -/
def StoryOp.Complete (s : Space File Obj) : StoryOp File Obj → Prop
  | .exit pages => ∀ va, (s.pages va).isSome → va ∈ pages
  | .call _ | .store _ _ _ | .fork _ _ | .endThread _ _ => True

/-- Calls are careful, and no writable shared file mapping has taken the place of a stack that
`~Process` unmaps. -/
def StoryOp.Careful (canWrite : File → Bool) (s : Space File Obj) : StoryOp File Obj → Prop
  | .call op => op.Careful canWrite s
  | .endThread base pages => s.Unshared base pages
  | .store _ _ _ | .fork _ _ | .exit _ => True

/-- The stories of processes whose steps all have `ok`. -/
inductive Told (canWrite : File → Bool) (ok : Space File Obj → StoryOp File Obj → Prop) :
    Story File Obj → Prop
  | start (image : Nat → Option Page)
      (himage : ∀ va, (image va).isSome → va % pageSize = 0 ∧ va < 2 ^ 48) :
      Told canWrite ok ⟨Space.load image, []⟩
  | step {st : Story File Obj} (h : Told canWrite ok st) (op : StoryOp File Obj)
      (hop : ok st.space op) : Told canWrite ok (st.step canWrite op)

/-! ## The invariant along a story -/

section

variable {canWrite : File → Bool} {s : Space File Obj} {log : List (Event File)}

theorem tidy_load {image : Nat → Option Page}
    (himage : ∀ va, (image va).isSome → va % pageSize = 0 ∧ va < 2 ^ 48) :
    Tidy canWrite (Space.load image : Space File Obj) [] := by
  refine ⟨placed_nil, (by decide : mmapBaseDefault % pageSize = 0), ?_, ?_, fun _ _ _ => rfl,
    ?_, ?_, ?_⟩
  · intro va hva
    simp only [Space.load, Space.mapStack] at hva
    split at hva
    case isTrue hmem =>
      obtain ⟨hkey, -, hhi⟩ := (mem_userPages_iff (by decide) (by decide)).mp hmem
      exact ⟨hkey, hhi.trans_le (by decide)⟩
    case isFalse => exact himage va hva
  · intro before va backing after heq
    simp at heq
  · intro va i page byte _ hbyte
    cases hbyte
  · intro va v _ hv
    cases hv
  · intro va page v _ hv
    cases hv

theorem Tidy.run (h : Tidy canWrite s log) {op : MemCall File Obj} (hop : op.Careful canWrite s) :
    TidyAfter canWrite log (op.run canWrite s) := by
  cases op with
  | mmap allocs addr length prot =>
    obtain ⟨rfl, hvacant, hunshared⟩ := hop
    exact h.sysMmap prot hvacant hunshared
  | mmapFile allocs addr length prot shared fd offset =>
    obtain ⟨rfl, hvacant, hoffset, hdurable⟩ := hop
    exact h.sysMmapFile hvacant hoffset hdurable
  | msync addr length => exact h.sysMsync addr length
  | mprotect allocs addr length prot =>
    obtain ⟨rfl, hfit, hstays⟩ := hop
    exact h.sysMprotect hfit hstays
  | munmap allocs addr length =>
    obtain ⟨rfl, hfit⟩ := hop
    exact h.sysMunmap hfit
  | fault read frame addr =>
    simp only [MemCall.run, TidyAfter, List.append_nil]
    exact h.handleDemandFault read frame addr
  | thread stackSize stack registered =>
    simp only [MemCall.run, TidyAfter, List.append_nil]
    exact h.sysThreadCreate stackSize stack registered hop

/-- A store leaves its value both in the page and at the end of the history; its page is not
locked, so its mapping allows writing. -/
theorem Tidy.store (h : Tidy canWrite s log) {va i : Nat} {byte : BitVec 8} {page : Page}
    (hpage : s.pages va = some page) (hopen : ¬ page.flags.Locked) (flags : LeafFlags) :
    Tidy canWrite
      { s with
        pages := update s.pages va
          (some { bytes := update page.bytes i byte, flags := flags }) }
      (log ++ [.store va i byte]) := by
  have hlast : ∀ x j, lastStore x j (log ++ [.store va i byte]) =
      if va = x ∧ i = j then some byte else lastStore x j log := by
    intro x j
    rw [lastStore_append]
    rfl
  refine ⟨h.placed, h.cursor, ?_, ?_, ?_, ?_, h.mapped, ?_⟩
  · intro x hx
    by_cases hsame : x = va
    · exact h.keys x (by simp [hsame, hpage])
    · exact h.keys x (by simpa [update_of_ne hsame] using hx)
  · exact h.kept.append_of_no_drop (by simp)
  · intro x j hgone
    by_cases hsame : x = va
    · simp [hsame] at hgone
    · rw [hlast, if_neg fun heq => hsame heq.1.symm]
      exact h.absent x j (by simpa [update_of_ne hsame] using hgone)
  · intro x j page' byte' hpage' hbyte
    rw [hlast] at hbyte
    by_cases hsame : x = va
    · subst hsame
      simp only [update_self, Option.some.injEq] at hpage'
      rw [← hpage']
      by_cases hindex : i = j
      · rw [if_pos ⟨rfl, hindex⟩, Option.some.injEq] at hbyte
        rw [← hindex, ← hbyte]
        exact update_self ..
      · rw [if_neg fun heq => hindex heq.2] at hbyte
        exact (update_of_ne (Ne.symm hindex) ..).trans (h.content x j page byte' hpage hbyte)
    · rw [if_neg fun heq => hsame heq.1.symm] at hbyte
      exact h.content x j page' byte' (by simpa [update_of_ne hsame] using hpage') hbyte
  · intro x page' v hpage' hv hshared hprot
    by_cases hsame : x = va
    · subst hsame
      exact absurd (h.quiet x page v hpage hv hshared hprot).1 hopen
    · obtain ⟨hlocked, hquiet⟩ :=
        h.quiet x page' v (by simpa [update_of_ne hsame] using hpage') hv hshared hprot
      exact ⟨hlocked, fun j => by rw [hlast, if_neg fun heq => hsame heq.1.symm]; exact hquiet j⟩

theorem cloneFlags_locked {va : Nat} {flags : LeafFlags} (h : flags.Locked) :
    cloneFlags va flags = flags := by
  simp [cloneFlags, h.1, h.2]

/-- A fork changes the flags of pages that are not locked, and nothing else. -/
theorem Tidy.downgraded (h : Tidy canWrite s log) (bound : Nat) :
    Tidy canWrite (s.downgraded bound) log := by
  have hpages : ∀ va page, (s.downgraded bound).pages va = some page →
      ∃ old, s.pages va = some old ∧ page.bytes = old.bytes ∧
        (old.flags.Locked → page.flags.Locked) := by
    intro va page hpage
    simp only [Space.downgraded] at hpage
    split at hpage
    · obtain ⟨old, hold, rfl⟩ := Option.map_eq_some_iff.mp hpage
      refine ⟨old, hold, rfl, fun hlocked => ?_⟩
      rw [cloneFlags_locked hlocked]
      exact hlocked
    · exact ⟨page, hpage, rfl, id⟩
  refine ⟨h.placed, h.cursor, ?_, h.kept, ?_, ?_, h.mapped, ?_⟩
  · intro va hva
    obtain ⟨page, hpage⟩ := Option.isSome_iff_exists.mp hva
    obtain ⟨old, hold, _⟩ := hpages va page hpage
    exact h.keys va (by simp [hold])
  · intro va i hgone
    refine h.absent va i ?_
    simp only [Space.downgraded] at hgone
    split at hgone
    · simpa using hgone
    · exact hgone
  · intro va i page byte hpage hbyte
    obtain ⟨old, hold, hbytes, _⟩ := hpages va page hpage
    rw [hbytes]
    exact h.content va i old byte hold hbyte
  · intro va page v hpage hv hshared hprot
    obtain ⟨old, hold, _, hlocked⟩ := hpages va page hpage
    obtain ⟨hbefore, hquiet⟩ := h.quiet va old v hold hv hshared hprot
    exact ⟨hlocked hbefore, hquiet⟩

/-- An address space without pages can lose its regions. -/
theorem Tidy.emptied (h : Tidy canWrite s log) (hempty : ∀ va, s.pages va = none) : Tidy canWrite
      { regions := [], mmapBase := s.mmapBase, pages := fun _ => none : Space File Obj } log :=
  ⟨placed_nil, h.cursor, fun _ hva => (nomatch hva), h.kept,
    fun va i _ => h.absent va i (hempty va),
    fun _ _ _ _ hpage => (nomatch hpage), fun _ _ _ hv => (nomatch hv),
    fun _ _ _ hpage => (nomatch hpage)⟩

theorem Tidy.exit (h : Tidy canWrite s log) {pages : List Nat}
    (hpages : ∀ va, (s.pages va).isSome → va ∈ pages) :
    Tidy canWrite
      { regions := [], mmapBase := s.mmapBase, pages := fun _ => none : Space File Obj }
      (log ++ releaseSharedState canWrite s pages) := by
  have hwrites : ∀ e ∈ s.regions.flatMap (vmaWritebackRegion canWrite s),
      ∃ file pos bytes, e = .write file pos bytes := by
    intro e he
    obtain ⟨r, _, hr⟩ := List.mem_flatMap.mp he
    exact writeback_writes e hr
  have hdropped := h.drop hwrites (by
    intro va (_ : va ∈ pages) r v hr _ _ _ _ _ e he
    exact List.mem_flatMap.mpr ⟨r, hr, he⟩)
  refine hdropped.emptied fun va => ?_
  simp only [Space.without]
  split
  · rfl
  case isFalse hout => exact Option.not_isSome_iff_eq_none.mp fun hpage => hout (hpages va hpage)

theorem Tidy.step {st : Story File Obj} (h : Tidy canWrite st.space st.log) {op : StoryOp File Obj}
    (hcomplete : op.Complete st.space) (hcareful : op.Careful canWrite st.space) :
    Tidy canWrite (st.step canWrite op).space (st.step canWrite op).log := by
  cases op with
  | call op => exact h.run hcareful
  | store va i byte =>
    rw [Story.step]
    split
    · exact h
    case h_2 page hpage =>
      split
      case isTrue hopen =>
        refine h.store hpage (fun hlocked => ?_) _
        simp [hlocked.1, hlocked.2] at hopen
      case isFalse => exact h
  | fork child stopped =>
    cases stopped with
    | some bound =>
      have hparent := h.downgraded bound
      cases child <;> exact hparent
    | none =>
      have hparent := h.downgraded userEnd
      cases child with
      | false => exact hparent
      | true => exact hparent.setCursor (by decide)
  | endThread base pages => exact h.dropUnshared hcareful
  | exit pages => exact h.exit hcomplete

end

theorem Told.tidy {canWrite : File → Bool} {st : Story File Obj}
    (h : Told canWrite (fun s op => op.Complete s ∧ op.Careful canWrite s) st) :
    Tidy canWrite st.space st.log := by
  induction h with
  | start image himage => exact tidy_load himage
  | step _ op hop ih => exact ih.step hop.1 hop.2

/-- In every story of careful steps, whenever a page of a shared file mapping is dropped, every
byte of it inside the file window has been written to the file with its last stored value. -/
theorem shared_stores_reach_the_file {canWrite : File → Bool} {st : Story File Obj}
    (h : Told canWrite (fun s op => op.Complete s ∧ op.Careful canWrite s) st) : Kept st.log :=
  h.tidy.kept

/-! ## A store that survives and one that does not -/

/-- A process without an image. -/
def bareStory : Story Unit Unit := ⟨Space.load fun _ => none, []⟩

/-- A page of a file of 4096 bytes, mapped shared, readable and writable at the cursor, a fault on
it and a store to its first byte. -/
def storedStory : Story Unit Unit :=
  ((bareStory.step (fun _ => true)
    (.call (.mmapFile .granted 0 4096 3 true (some ⟨(), some 4096, none⟩) 0))).step (fun _ => true)
    (.call (.fault (fun _ _ _ => []) true 0x600000000000))).step (fun _ => true)
    (.store 0x600000000000 0 7)

theorem bareStory_vacant : bareStory.space.Vacant bareStory.space.mmapBase 4096 := by
  intro va _ _ hhi
  have hout : va ∉ userPages userStackBase 32 := by
    intro hmem
    have hlo := (mem_userPages (by decide) hmem).1
    have hbase : bareStory.space.mmapBase + 4096 < userStackBase := by decide
    omega
  exact if_neg hout

theorem storedStory_told :
    Told (fun _ => true) (fun s op => op.Complete s ∧ op.Careful (fun _ => true) s)
      storedStory := by
  have hmap : (StoryOp.call (.mmapFile .granted 0 4096 3 true (some ⟨(), some 4096, none⟩) 0) :
      StoryOp Unit Unit).Careful (fun _ => true) bareStory.space :=
    ⟨rfl, fun _ => bareStory_vacant, by decide, fun _ _ _ => ⟨rfl, by decide⟩⟩
  exact .step (.step (.step (.start (fun _ => none) fun _ hva => (nomatch hva)) _ ⟨trivial, hmap⟩) _
    ⟨trivial, trivial⟩) _ ⟨trivial, trivial⟩

/-- `sys_munmap` writes the page back before it drops it. -/
theorem shared_stores_reach_the_file_sample :
    Kept (storedStory.step (fun _ => true) (.call (.munmap .granted 0x600000000000 4096))).log :=
  shared_stores_reach_the_file (.step storedStory_told _ ⟨trivial, rfl, by decide⟩)

/-- A fixed `sys_mmap` over the mapping drops the page and writes nothing. -/
theorem fixed_mmap_loses_stores :
    ¬ ∀ st : Story Unit Unit, Told (fun _ => true) (fun s op => op.Complete s) st →
      Kept st.log := by
  intro h
  have htold : Told (fun _ => true) (fun s op => StoryOp.Complete s op) storedStory :=
    .step (.step (.step (.start (fun _ => none) fun _ hva => (nomatch hva)) _ trivial) _ trivial)
      _ trivial
  have hkept := h _ (.step htold (.call (.mmap .granted 0x600000000000 4096 3)) trivial)
  have hlog : (storedStory.step (fun _ => true)
      (.call (.mmap .granted 0x600000000000 4096 3))).log =
        [.store 0x600000000000 0 7] ++ .drop 0x600000000000 (some ⟨(), 0, 4096⟩) :: [] := by
    decide +kernel
  obtain ⟨start, bytes, hwrite, _⟩ :=
    hkept _ _ _ _ hlog 0 (by decide) [] 7 [] rfl (fun _ he => (nomatch he))
  cases hwrite

end InstantOS.Vma
