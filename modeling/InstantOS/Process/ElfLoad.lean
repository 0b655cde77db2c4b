import InstantOS.Ipc.SharedMemory

/-!
# Loading an executable

`loadElfImage` walks over the program headers of a file, and for each `PT_LOAD` takes frames, maps
them at the address the header asks for, and fills them.  It checks the file offsets of a segment
and that its start does not wrap, but neither that it lies in the user half nor that its size,
rounded up to pages, fits into 64 bits.
-/

namespace InstantOS.ElfLoad

open Function List

open Pmm (pageSize)
open SharedMemory (PageTable pageOf rangePages mapRangeInto lowerHalf)
open Vma (add64 alignUp userEnd)

/-! ## The file -/

/-- `Elf::ProgramHeader64`, without the fields the loader does not read. -/
structure ProgramHeader where
  type : Nat
  flags : Nat
  offset : Nat
  virtualAddress : Nat
  fileSize : Nat
  memorySize : Nat

def programLoad : Nat := 1

def programInterp : Nat := 3

def flagWrite : Nat := 2

/-- What the rest of the kernel answers: the first frame of each call of `AllocFrames`, and for
each page of each `MapRangeInto` whether the tables were there or could be allocated. -/
structure Answers where
  granted : Nat → Option Nat
  mapped : Nat → Nat → Bool

/-- The address space, the frames the loader got (first and number), the physical ranges it wrote
(start and length), and its calls of `AllocFrames`. -/
structure Loader where
  table : PageTable
  frames : List (Nat × Nat)
  writes : List (Nat × Nat)
  calls : Nat

namespace ProgramHeader

variable (bias : Nat) (ph : ProgramHeader)

def mappedStart : Nat := (bias + ph.virtualAddress) / pageSize * pageSize

def pageOffset : Nat := bias + ph.virtualAddress - ph.mappedStart bias

def mappedSize : Nat := alignUp (add64 (ph.pageOffset bias) ph.memorySize) pageSize

def pages : Nat := ph.mappedSize bias / pageSize

/-- What the loop tests of a header before it takes frames for it. -/
def accepted (image : List UInt8) (allowInterpreter : Bool) : Bool :=
  if ph.type = programInterp then
    allowInterpreter && ph.fileSize != 0 && decide (ph.fileSize < 128) &&
      decide (ph.offset + ph.fileSize ≤ image.length)
  else if ph.type ≠ programLoad then true
  else
    !decide (ph.memorySize < ph.fileSize) &&
      decide (ph.offset + ph.fileSize ≤ image.length) &&
      decide (bias + ph.virtualAddress < 2 ^ 64)

end ProgramHeader

/-- The frames are mapped, cleared and filled; a segment that is not writable is mapped again. -/
def Loader.place (l : Loader) (answers : Answers) (bias : Nat) (ph : ProgramHeader)
    (frame : Nat) : Loader :=
  let phys := frame * pageSize
  let table := mapRangeInto l.table (ph.mappedStart bias) phys (ph.pages bias)
    (answers.mapped (2 * l.calls))
  { table :=
      if ph.flags &&& flagWrite = 0 then
        mapRangeInto table (ph.mappedStart bias) phys (ph.pages bias)
          (answers.mapped (2 * l.calls + 1))
      else table
    frames := (frame, ph.pages bias) :: l.frames
    writes := (phys + ph.pageOffset bias, ph.fileSize) :: (phys, ph.mappedSize bias) :: l.writes
    calls := l.calls + 1 }

/-- The address is translated to a frame the loader got. -/
def Loader.Backed (l : Loader) (va : Nat) : Prop :=
  ∃ got ∈ l.frames, ∃ i < got.2, l.table (pageOf va) = some (got.1 + i)

/-- The byte lies in a frame the loader got. -/
def Loader.Owns (l : Loader) (byte : Nat) : Prop :=
  ∃ got ∈ l.frames, got.1 * pageSize ≤ byte ∧ byte < (got.1 + got.2) * pageSize

/-- The addresses of a segment. -/
def ProgramHeader.Covers (ph : ProgramHeader) (bias va : Nat) : Prop :=
  ph.type = programLoad ∧ bias + ph.virtualAddress ≤ va ∧
    va < bias + ph.virtualAddress + ph.memorySize

structure Confined (table : PageTable) (phs : List ProgramHeader) (bias : Nat)
    (result : Loader × Bool) : Prop where
  kernel : ∀ page, lowerHalf ≤ page → result.1.table page = table page
  writes : ∀ w ∈ result.1.writes, ∀ k < w.2, result.1.Owns (w.1 + k)
  loaded : result.2 = true → ∀ ph ∈ phs, ∀ va, ph.Covers bias va → result.1.Backed va

/-- The segments that are given frames, each with the number of its `AllocFrames`, and whether no
header is refused: a header that is not accepted or gets no frames ends the loop. -/
def placed (answers : Answers) (image : List UInt8) (bias : Nat) (allowInterpreter : Bool) :
    List ProgramHeader → Nat → List (ProgramHeader × Nat) × Bool
  | [], _ => ([], true)
  | ph :: rest, call =>
    if !ph.accepted bias image allowInterpreter then ([], false)
    else if ph.type ≠ programLoad ∨ ph.pages bias = 0 then
      placed answers image bias allowInterpreter rest call
    else if answers.granted call = none then ([], false)
    else
      let next := placed answers image bias allowInterpreter rest (call + 1)
      ((ph, call) :: next.1, next.2)

/-- A page outside the range is left, a page of it is left or gets a frame, and with all tables
there it gets one. -/
theorem mapRangeInto_cases (mapped : Nat → Bool) (table : PageTable)
    (start frame pages page : Nat) :
    (page ∉ rangePages start pages →
      mapRangeInto table start (frame * pageSize) pages mapped page = table page) ∧
    (mapRangeInto table start (frame * pageSize) pages mapped page = table page ∨ ∃ i < pages,
      mapRangeInto table start (frame * pageSize) pages mapped page = some (frame + i)) ∧
    ((∀ i < pages, mapped i = true) → page ∈ rangePages start pages → ∃ i < pages,
      mapRangeInto table start (frame * pageSize) pages mapped page = some (frame + i)) := by
  induction pages with
  | zero => exact ⟨fun _ => rfl, .inl rfl, nofun⟩
  | succ n ih =>
    obtain ⟨hleft, heither, hall⟩ := ih
    have hframe : (frame * pageSize + n * pageSize) / pageSize = frame + n := by
      rw [← Nat.add_mul, Nat.mul_div_cancel _ (by decide)]
    have hlast : mapRangeInto table start (frame * pageSize) (n + 1) mapped =
        if mapped n then update (mapRangeInto table start (frame * pageSize) n mapped)
          (pageOf (add64 start (n * pageSize))) (some (frame + n))
        else mapRangeInto table start (frame * pageSize) n mapped := by
      simp only [mapRangeInto, range_succ, foldl_append, foldl_cons, foldl_nil, hframe]
    have hpages : rangePages start (n + 1) =
        rangePages start n ++ [pageOf (add64 start (n * pageSize))] := by
      simp [rangePages, range_succ]
    rw [hlast, hpages, mem_append, mem_singleton]
    by_cases hnew : mapped n = true ∧ page = pageOf (add64 start (n * pageSize))
    · rw [if_pos hnew.1, hnew.2, update_self]
      exact ⟨fun hout => absurd (.inr rfl) hout, .inr ⟨n, n.lt_succ_self, rfl⟩,
        fun _ _ => ⟨n, n.lt_succ_self, rfl⟩⟩
    have hold : (if mapped n then update (mapRangeInto table start (frame * pageSize) n mapped)
          (pageOf (add64 start (n * pageSize))) (some (frame + n))
        else mapRangeInto table start (frame * pageSize) n mapped) page =
        mapRangeInto table start (frame * pageSize) n mapped page := by
      split
      · rename_i hmapped
        exact update_of_ne (fun hpage => hnew ⟨hmapped, hpage⟩) _ _
      · rfl
    rw [hold]
    have hmore : ∀ value, (∃ i < n, value = some (frame + i)) →
        ∃ i < n + 1, value = some (frame + i) :=
      fun _ ⟨i, hi, hvalue⟩ => ⟨i, Nat.lt_succ_of_lt hi, hvalue⟩
    refine ⟨fun hout => hleft fun hin => hout (.inl hin), heither.imp_right (hmore _),
      fun hmapped hin => hmore _ (hall (fun i hi => hmapped i (Nat.lt_succ_of_lt hi)) ?_)⟩
    exact hin.resolve_right fun hpage => hnew ⟨hmapped n n.lt_succ_self, hpage⟩

/-! ## One segment -/

section

variable {answers : Answers} {l : Loader} {ph : ProgramHeader} {bias frame : Nat}

/-- The second mapping of a read-only segment leaves a page what the first gave it, or maps it to
a frame of the segment again. -/
theorem place_table (page : Nat) :
    (page ∉ rangePages (ph.mappedStart bias) (ph.pages bias) →
      (l.place answers bias ph frame).table page = l.table page) ∧
    ((l.place answers bias ph frame).table page = l.table page ∨ ∃ i < ph.pages bias,
      (l.place answers bias ph frame).table page = some (frame + i)) ∧
    ((∀ i < ph.pages bias, answers.mapped (2 * l.calls) i = true) →
      page ∈ rangePages (ph.mappedStart bias) (ph.pages bias) → ∃ i < ph.pages bias,
      (l.place answers bias ph frame).table page = some (frame + i)) := by
  unfold Loader.place
  have honce := mapRangeInto_cases (answers.mapped (2 * l.calls)) l.table (ph.mappedStart bias)
    frame (ph.pages bias) page
  dsimp only
  split
  · obtain ⟨hleft, heither, _⟩ := mapRangeInto_cases (answers.mapped (2 * l.calls + 1))
      (mapRangeInto l.table (ph.mappedStart bias) (frame * pageSize) (ph.pages bias)
        (answers.mapped (2 * l.calls))) (ph.mappedStart bias) frame (ph.pages bias) page
    rcases heither with hsame | hnew
    · rwa [hsame]
    · exact ⟨fun hout => (hleft hout).trans (honce.1 hout), .inr hnew, fun _ _ => hnew⟩
  · exact honce

theorem pages_mul_pageSize : ph.pages bias * pageSize = ph.mappedSize bias := by
  have hpage : pageSize = 4096 := rfl
  rw [ProgramHeader.pages, ProgramHeader.mappedSize, alignUp, hpage]
  omega

variable {phs : List ProgramHeader} {table : PageTable} {ok : Bool}

/-- A segment in the user half keeps what holds, and its addresses are backed. -/
theorem Confined.place (h : Confined table phs bias (l, ok))
    (huser : ∀ page ∈ rangePages (ph.mappedStart bias) (ph.pages bias), page < lowerHalf)
    (hfile : ph.pageOffset bias + ph.fileSize ≤ ph.mappedSize bias)
    (hsize : ok → ∀ va, ph.Covers bias va →
      pageOf va ∈ rangePages (ph.mappedStart bias) (ph.pages bias))
    (htables : ok → ∀ i < ph.pages bias, answers.mapped (2 * l.calls) i = true) :
    Confined table (ph :: phs) bias (l.place answers bias ph frame, ok) := by
  have htable := @place_table answers l ph bias frame
  have hwhole : (frame + ph.pages bias) * pageSize = frame * pageSize + ph.mappedSize bias := by
    rw [Nat.add_mul, pages_mul_pageSize]
  refine ⟨fun page hpage => ?_, ?_, fun hok => ?_⟩
  · rw [(htable page).1 fun hin => absurd (huser page hin) (Nat.not_lt.2 hpage)]
    exact h.kernel page hpage
  · -- the two new ranges lie in the new frames
    refine forall_mem_cons.2 ⟨fun k hk => ?_, forall_mem_cons.2 ⟨fun k hk => ?_, ?_⟩⟩
    · exact ⟨_, mem_cons_self, by dsimp only at hk ⊢; omega⟩
    · exact ⟨_, mem_cons_self, by dsimp only at hk ⊢; omega⟩
    · intro w hw k hk
      obtain ⟨got, hgot, hin⟩ := h.writes w hw k hk
      exact ⟨got, mem_cons_of_mem _ hgot, hin⟩
  · refine forall_mem_cons.2 ⟨fun va hva => ?_, fun ph' hph' va hva => ?_⟩
    · obtain ⟨i, hi, hsome⟩ := (htable (pageOf va)).2.2 (htables hok) (hsize hok va hva)
      exact ⟨_, mem_cons_self, i, hi, hsome⟩
    rcases (htable (pageOf va)).2.1 with hsame | ⟨i, hi, hsome⟩
    · obtain ⟨got, hgot, i, hi, hsome⟩ := h.loaded hok ph' hph' va hva
      exact ⟨got, mem_cons_of_mem _ hgot, i, hi, hsame.trans hsome⟩
    · exact ⟨_, mem_cons_self, i, hi, hsome⟩

/-- A header that maps nothing. -/
theorem Confined.skip (h : Confined table phs bias (l, ok))
    (hnone : ok → ∀ va, ¬ ph.Covers bias va) : Confined table (ph :: phs) bias (l, ok) :=
  ⟨h.kernel, h.writes, fun hok => forall_mem_cons.2
    ⟨fun va hva => absurd hva (hnone hok va), h.loaded hok⟩⟩

end

/-! ## The whole file -/

/-- A number in `count` bytes. -/
def number (count value : Nat) : List UInt8 :=
  (List.range count).map fun i => UInt8.ofNat (value / 256 ^ i)

end InstantOS.ElfLoad
