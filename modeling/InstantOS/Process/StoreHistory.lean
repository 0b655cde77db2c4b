import InstantOS.Process.UserMemory

/-!
# Histories of stores, writes and drops

A history lists the stores of a process, the writes to backing vnodes and the drops of
its pages, in their order.  `Saved` says that the last store to a byte of a page has
reached a position of a file, and `Kept` that this holds of every byte of a shared file
mapping at the moment its page is dropped.

`lastStore` reads the pending value of a byte off the history.  A drop ends the life of a
page: what was stored before it concerns no later page at the address.
-/

namespace InstantOS.Vma

open Event
open List hiding drop

variable {File : Type}

/-- How one event changes the last value stored to byte `i` of the page at `va`. -/
def noteStore (va i : Nat) (last : Option (BitVec 8)) : Event File → Option (BitVec 8)
  | .store va' i' byte => if va' = va ∧ i' = i then some byte else last
  | .drop va' _ => if va' = va then none else last
  | .write _ _ _ => last

/-- The last value stored to byte `i` of the page at `va`, if one was stored since the page
came. -/
def lastStore (va i : Nat) (log : List (Event File)) : Option (BitVec 8) :=
  log.foldl (noteStore va i) none

/-- The event does not concern byte `i` of the page at `va`. -/
def Event.Leaves (va i : Nat) : Event File → Prop
  | .store va' i' _ => ¬ (va' = va ∧ i' = i)
  | .drop va' _ => va' ≠ va
  | .write _ _ _ => True

/-- The last store to byte `i` of the page at `va`, if there is one, was written to position
`pos` of `file` after it was made. -/
def Saved (log : List (Event File)) (va i : Nat) (file : File) (pos : Nat) : Prop :=
  ∀ before byte after, log = before ++ .store va i byte :: after →
    (∀ e ∈ after, e.Leaves va i) →
      ∃ start bytes, .write file start bytes ∈ after ∧ start ≤ pos ∧ bytes[pos - start]? = some byte

/-- When a page of a shared file mapping was dropped, every byte of it inside the file window
had been written to the file with its last stored value. -/
def Kept (log : List (Event File)) : Prop :=
  ∀ before va backing after, log = before ++ .drop va (some backing) :: after →
    ∀ i < backing.bytes, Saved before va i backing.file (backing.pos + i)

/-! ## The last store -/

theorem lastStore_append (va i : Nat) (log events : List (Event File)) :
    lastStore va i (log ++ events) = events.foldl (noteStore va i) (lastStore va i log) := by
  rw [lastStore, foldl_append]
  rfl

variable {events : List (Event File)} {va i : Nat}

/-- Events that do not concern the byte do not change its last value. -/
theorem foldl_noteStore_of_leaves (h : ∀ e ∈ events, e.Leaves va i) (last : Option (BitVec 8)) :
    events.foldl (noteStore va i) last = last := by
  refine foldlRecOn (motive := (· = last)) events _ rfl ?_
  rintro _ rfl e he
  have hleaves := h e he
  cases e with
  | store va' i' byte => exact if_neg hleaves
  | write file pos bytes => rfl
  | drop va' backing => exact if_neg hleaves

/-- Events that contain no store leave a byte without a last value alone. -/
theorem foldl_noteStore_none (h : ∀ va' i' byte, store va' i' byte ∉ events) :
    events.foldl (noteStore va i) none = none := by
  refine foldlRecOn (motive := (· = none)) events _ rfl ?_
  rintro _ rfl e he
  cases e with
  | store va' i' byte => exact absurd he (h va' i' byte)
  | write file pos bytes => rfl
  | drop va' backing => exact ite_self none

variable {log : List (Event File)}

/-- A drop of the page among events without stores leaves no last value. -/
theorem lastStore_of_drop
    {backing : Option (SharedBytes File)} (hstores : ∀ va' i' byte, store va' i' byte ∉ events)
    (hdrop : drop va backing ∈ events) : lastStore va i (log ++ events) = none := by
  obtain ⟨before, after, rfl⟩ := append_of_mem hdrop
  have hafter : ∀ va' i' byte, store va' i' byte ∉ after := fun va' i' byte hmem =>
    hstores va' i' byte (mem_append_right _ (mem_cons_of_mem _ hmem))
  rw [lastStore_append, foldl_append, foldl_cons, noteStore, if_pos rfl,
    foldl_noteStore_none hafter]

/-- The decomposition `Saved` speaks of determines the last value. -/
theorem lastStore_eq_some {before after : List (Event File)} {byte : BitVec 8}
    (h : ∀ e ∈ after, e.Leaves va i) :
    lastStore va i (before ++ .store va i byte :: after) = some byte := by
  rw [lastStore_append, foldl_cons, noteStore, if_pos ⟨rfl, rfl⟩, foldl_noteStore_of_leaves h]

/-! ## Longer histories -/

/-- A history with new events behind it is cut in front of an event that either is one of the
new ones or an old one. -/
theorem append_eq_cons_cases {log before after : List (Event File)} {e : Event File}
    (h : log ++ events = before ++ e :: after) :
    (∃ middle, log = before ++ e :: middle ∧ after = middle ++ events) ∨
      ∃ middle, before = log ++ middle ∧ events = middle ++ e :: after := by
  rcases append_eq_append_iff.mp h with ⟨middle, hbefore, hevents⟩ | ⟨rest, hlog, hrest⟩
  · exact .inr ⟨middle, hbefore, hevents⟩
  cases rest with
  | nil =>
    rw [append_nil] at hlog
    exact .inr ⟨[], by rw [hlog, append_nil], hrest.symm⟩
  | cons e' middle =>
    obtain ⟨rfl, hafter⟩ := cons_eq_cons.mp hrest
    exact .inl ⟨middle, hlog, hafter⟩

/-- A byte is saved by events without stores if its last value is written by one of them. -/
theorem saved_of_written {file : File} {pos : Nat}
    (hstores : ∀ va' i' byte, store va' i' byte ∉ events)
    (hwritten : ∀ byte, lastStore va i log = some byte →
      ∃ start bytes, write file start bytes ∈ events ∧ start ≤ pos ∧
        bytes[pos - start]? = some byte) : Saved (log ++ events) va i file pos := by
  intro before byte after heq hleaves
  rcases append_eq_cons_cases heq with ⟨middle, hlog, hafter⟩ | ⟨middle, _, hevents⟩
  · have hlast : lastStore va i log = some byte := by
      rw [hlog]
      exact lastStore_eq_some fun e he => hleaves e (hafter ▸ mem_append_left _ he)
    obtain ⟨start, bytes, hmem, hbounds⟩ := hwritten byte hlast
    exact ⟨start, bytes, hafter ▸ mem_append_right _ hmem, hbounds⟩
  · exact absurd (hevents ▸ mem_append_right _ (mem_cons_self ..)) (hstores va i byte)

/-- A history is kept if it was and the new drops find their bytes saved. -/
theorem Kept.append (h : Kept log)
    (hdrops : ∀ before va backing after, events = before ++ .drop va (some backing) :: after →
      ∀ i < backing.bytes, Saved (log ++ before) va i backing.file (backing.pos + i)) :
    Kept (log ++ events) := by
  intro before va backing after heq i hi
  rcases append_eq_cons_cases heq with ⟨middle, hlog, _⟩ | ⟨middle, hbefore, hevents⟩
  · exact h before va backing middle hlog i hi
  · rw [hbefore]
    exact hdrops middle va backing after hevents i hi

/-- Events without drops keep a history. -/
theorem Kept.append_of_no_drop (h : Kept log)
    (hdrops : ∀ va backing, drop va backing ∉ events) : Kept (log ++ events) :=
  h.append fun _ va backing _ heq =>
    absurd (heq ▸ mem_append_right _ (mem_cons_self ..)) (hdrops va (some backing))

/-- Writes and then drops keep a history if the writes contain the last value of every byte
of the dropped pages. -/
theorem Kept.append_writes_drops {log writes drops : List (Event File)} (h : Kept log)
    (hwrites : ∀ e ∈ writes, ∃ file pos bytes, e = .write file pos bytes)
    (hdrops : ∀ e ∈ drops, ∃ va backing, e = .drop va backing)
    (hsaved : ∀ va backing, drop va (some backing) ∈ drops → ∀ i < backing.bytes,
      ∀ byte, lastStore va i log = some byte →
        ∃ start bytes, write backing.file start bytes ∈ writes ∧ start ≤ backing.pos + i ∧
          bytes[backing.pos + i - start]? = some byte) : Kept (log ++ (writes ++ drops)) := by
  refine h.append fun before va backing after heq i hi => ?_
  rcases append_eq_cons_cases heq with ⟨middle, hin, _⟩ | ⟨middle, hbefore, hin⟩
  · obtain ⟨file, pos, bytes, hwrite⟩ :=
      hwrites _ (hin ▸ mem_append_right _ (mem_cons_self ..))
    cases hwrite
  rw [hbefore]
  have hmem : drop va (some backing) ∈ drops :=
    hin ▸ mem_append_right _ (mem_cons_self ..)
  refine saved_of_written ?_ ?_
  · intro va' i' byte hstore
    rcases mem_append.mp hstore with hw | hd
    · obtain ⟨file, pos, bytes, hwrite⟩ := hwrites _ hw
      cases hwrite
    · obtain ⟨va'', backing', hdrop⟩ := hdrops _ (hin ▸ mem_append_left _ hd)
      cases hdrop
  · intro byte hlast
    obtain ⟨start, bytes, hw, hbounds⟩ := hsaved va backing hmem i hi byte hlast
    exact ⟨start, bytes, mem_append_left _ hw, hbounds⟩

end InstantOS.Vma
