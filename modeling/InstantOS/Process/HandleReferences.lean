import InstantOS.Process.Handles
import Mathlib.Algebra.BigOperators.Ring.Finset
import Mathlib.Data.Fintype.Prod
import Mathlib.Tactic.Linarith

/-!
# References held by the handle tables

An open entry owns one reference to its object.  The balance of an object is
what was handed over or retained, less what was released and less what the
open entries hold; the tables keep references right when it stays zero.

Every operation is built from three moves: a `retain` call raises the balance,
a write into a free slot lowers it, and a release followed by the clearing of
the slot leaves it alone.  The operations go wrong only where a slot is written
that is not free: when `close` refuses the name under which the slot is to be
freed, or when the slot freed is the one that is copied.  `Op.Sound` rules
these out, and `references_conserved` is the invariant of every run of sound
operations.
-/

namespace InstantOS.Handles

open Event

/-! ## Names of slots -/

variable {type : HandleType}

theorem decodeHandle_encodeHandle {slot : Slot} (htype : type ≠ .none)
    (hslot : firstAllocHandle ≤ slot.val) :
    decodeHandle (encodeHandle type slot) = some (type, slot) := by
  have hmin : minSlot type ≤ firstAllocHandle := by
    unfold minSlot; split <;> simp
  have hcode := type.code_lt
  have hbound : slot.val < 1024 := slot.isLt
  have hword : (encodeHandle type slot).toNat = type.code * 2 ^ 48 + slot.val := by
    rw [encodeHandle, if_neg htype, if_neg (by omega), BitVec.toNat_or, BitVec.toNat_shiftLeft,
      BitVec.toNat_ofNat, BitVec.toNat_ofNat, Nat.mod_eq_of_lt (by omega : type.code < 2 ^ 64),
      Nat.mod_eq_of_lt (by omega : slot.val < 2 ^ 64), typeShift, Nat.shiftLeft_eq,
      Nat.mod_eq_of_lt (by omega), ← Nat.shiftLeft_eq,
      ← Nat.shiftLeft_add_eq_or_of_lt (by omega), Nat.shiftLeft_eq]
  have hraw : (encodeHandle type slot >>> typeShift).toNat = type.code := by
    rw [BitVec.toNat_ushiftRight, typeShift]
    omega
  have hlow : (encodeHandle type slot &&& slotMask).toNat = slot.val := by
    have hmask : slotMask.toNat = 2 ^ 32 - 1 := rfl
    rw [BitVec.toNat_and, hmask, Nat.and_two_pow_sub_one_eq_mod]
    omega
  simp only [decodeHandle, hraw, HandleType.ofCode_code, if_neg htype, hlow]
  rw [dif_pos slot.isLt, if_neg (by omega)]

section

variable {T Obj Fn : Type} {w : World T Obj Fn} {t : T} {entry : HandleEntry Obj Fn} {slot : Slot}
  {handle : Handle}

/-! ## Small steps -/

@[simp] theorem note_entries (w : World T Obj Fn) (event : Event Obj Fn) :
    (w.note event).entries = w.entries := rfl

@[simp] theorem retainEntry_entries (w : World T Obj Fn) (entry : HandleEntry Obj Fn) :
    (retainEntry w entry).entries = w.entries := by
  unfold retainEntry; split <;> rfl

@[simp] theorem releaseEntry_entries (w : World T Obj Fn) (entry : HandleEntry Obj Fn) :
    (releaseEntry w entry).entries = w.entries := by
  unfold releaseEntry; split <;> rfl

/-- An open entry holds an object and the two functions that count its
references. -/
structure Held (entry : HandleEntry Obj Fn) : Prop where
  typed : entry.type ≠ .none
  object : entry.object.isSome
  retain : entry.retain.isSome
  release : entry.release.isSome

theorem Held.parts (he : Held entry) : ∃ fn o, entry.release = some fn ∧ entry.object = some o :=
  ⟨_, _, (Option.some_get he.release).symm, (Option.some_get he.object).symm⟩

/-- Every slot is free or holds a reference. -/
def WellHeld (w : World T Obj Fn) : Prop :=
  ∀ t slot, (w.entries t slot).type = .none ∨ Held (w.entries t slot)

theorem WellHeld.held (hw : WellHeld w) (hopen : (w.entries t slot).type ≠ .none) :
    Held (w.entries t slot) :=
  (hw t slot).resolve_left hopen

variable {w' : World T Obj Fn}

theorem WellHeld.of_entries (hw : WellHeld w) (he : w'.entries = w.entries) : WellHeld w' := by
  intro t slot
  rw [he]
  exact hw t slot

/-- A handle that `get` accepts names an open entry of its own type. -/
theorem get_some (h : get w t handle = some slot) :
    decodeHandle handle = some ((w.entries t slot).type, slot) ∧
      (w.entries t slot).type ≠ .none := by
  unfold get at h
  split at h
  · cases h
  rename_i type slot' hdecode
  dsimp only at h
  split at h
  · cases h
  rename_i hopen
  cases h
  simp only [not_or, Decidable.not_not] at hopen
  exact ⟨by rw [hdecode, hopen.2], hopen.1⟩

theorem getObject_some {expected : HandleType} {rights : BitVec 32} {object : Obj}
    (h : getObject w t handle expected rights = some object) :
    ∃ t slot, (w.entries t slot).type ≠ .none ∧ (w.entries t slot).object = some object := by
  unfold getObject at h
  split at h
  · cases h
  rename_i slot hslot
  dsimp only at h
  split at h
  · cases h
  · split at h
    · cases h
    · exact ⟨t, slot, (get_some hslot).2, h⟩

/-- The `release` of `entry` is among `calls`, with the object of `entry`. -/
def ReleasedIn (calls : List (Event Obj Fn)) (entry : HandleEntry Obj Fn) : Prop :=
  ∃ fn object, entry.release = some fn ∧ entry.object = some object ∧
    .release fn (some object) ∈ calls

/-- From `w` to `w'` no open entry disappears without its release. -/
def Kept (w w' : World T Obj Fn) : Prop :=
  ∃ new, w'.calls = new ++ w.calls ∧
    ∀ t slot, (w.entries t slot).type ≠ .none →
      w'.entries t slot = w.entries t slot ∨ ReleasedIn new (w.entries t slot)

theorem Kept.of_entries (new : List (Event Obj Fn))
    (hcalls : w'.calls = new ++ w.calls) (he : w'.entries = w.entries) : Kept w w' :=
  ⟨new, hcalls, fun t slot _ => .inl (by rw [he])⟩

theorem Kept.trans {w1 w2 w3 : World T Obj Fn} (h1 : Kept w1 w2) (h2 : Kept w2 w3) :
    Kept w1 w3 := by
  obtain ⟨new1, hcalls1, hkept1⟩ := h1
  obtain ⟨new2, hcalls2, hkept2⟩ := h2
  refine ⟨new2 ++ new1, by rw [hcalls2, hcalls1, List.append_assoc], fun t slot hopen => ?_⟩
  rcases hkept1 t slot hopen with hsame | ⟨fn, object, hfn, hobject, hmem⟩
  · rcases hkept2 t slot (hsame ▸ hopen) with hsame' | ⟨fn, object, hfn, hobject, hmem⟩
    · exact .inl (hsame'.trans hsame)
    · exact .inr ⟨fn, object, hsame ▸ hfn, hsame ▸ hobject, List.mem_append_left _ hmem⟩
  · exact .inr ⟨fn, object, hfn, hobject, List.mem_append_right _ hmem⟩

/-! ## What the operations come to -/

section

variable [DecidableEq T]

theorem put_apply (t' : T) (slot' : Slot) : (w.put t slot entry).entries t' slot' =
      if t' = t ∧ slot' = slot then entry else w.entries t' slot' := rfl

@[simp] theorem put_self : (w.put t slot entry).entries t slot = entry := by
  simp [put_apply]

@[simp] theorem put_calls : (w.put t slot entry).calls = w.calls := rfl

theorem WellHeld.put (hw : WellHeld w) (t : T) (slot : Slot)
    (he : entry.type = .none ∨ Held entry) :
    WellHeld (w.put t slot entry) := by
  intro t' slot'
  rw [put_apply]
  split
  · exact he
  · exact hw t' slot'

section

variable (w : World T Obj Fn) (t : T)

/-- A handle that `close` accepts loses its entry. -/
theorem close_cases (handle : Handle) :
    (close w t handle).2 = w ∨ ∃ type slot, decodeHandle handle = some (type, slot) ∧
      (w.entries t slot).type ≠ .none ∧
      (close w t handle).2 = clearEntry (releaseEntry w (w.entries t slot)) t slot := by
  unfold close
  split
  · exact .inl rfl
  rename_i type slot hdecode
  dsimp only
  split
  · exact .inl rfl
  · rename_i h
    exact .inr ⟨type, slot, hdecode, fun hnone => h (.inl hnone), rfl⟩

theorem closeExpecting_cases (handle : Handle)
    (expected : HandleType) : (closeExpecting w t handle expected).2 = w ∨
      (closeExpecting w t handle expected).2 = (close w t handle).2 := by
  unfold closeExpecting
  split
  · exact .inl rfl
  · split
    · exact .inl rfl
    · exact .inr rfl

/-- A call of `allocate` fails and does nothing, or fills a free slot. -/
theorem allocate_cases (entry : HandleEntry Obj Fn) :
    ((allocate w t entry).1 = invalidHandle ∧ (allocate w t entry).2 = w) ∨
      ((allocate w t entry).1 ≠ invalidHandle ∧ entry.type ≠ .none ∧ entry.object ≠ none ∧
        ∃ slot, (w.entries t slot).type = .none ∧ (allocate w t entry).2 = w.put t slot entry) := by
  unfold allocate
  split
  · exact .inl ⟨rfl, rfl⟩
  rename_i hargs
  split
  · rename_i slot hfind
    have hfound := List.find?_some hfind
    simp only [Bool.and_eq_true, decide_eq_true_eq] at hfound
    simp only [not_or] at hargs
    have hdecode := decodeHandle_encodeHandle hargs.1 hfound.1
    refine .inr ⟨?_, hargs.1, hargs.2, slot, hfound.2, ?_⟩
    · intro hinvalid
      simp only [allocateAt, hdecode, ne_eq, not_true_eq_false, hargs.1, hargs.2, or_self,
        if_false] at hinvalid
      rw [hinvalid] at hdecode
      cases hdecode
    · simp [allocateAt, hdecode, hargs.1, hargs.2, hfound.2]
  · exact .inl ⟨rfl, rfl⟩

end

/-- A copy is given up when there is no free slot. -/
theorem duplicate_cases (hw : WellHeld w) (t : T) (handle : Handle) :
    (duplicate w t handle).2 = w ∨ ∃ slot, (w.entries t slot).type ≠ .none ∧
      ((duplicate w t handle).2 =
          releaseEntry (retainEntry w (w.entries t slot)) (w.entries t slot) ∨
        ∃ free, (w.entries t free).type = .none ∧ (duplicate w t handle).2 =
          (retainEntry w (w.entries t slot)).put t free
            { w.entries t slot with closeOnExec := false }) := by
  unfold duplicate
  split
  · exact .inl rfl
  rename_i slot hget
  dsimp only
  split
  · have hopen := (get_some hget).2
    refine .inr ⟨slot, hopen, ?_⟩
    rcases allocate_cases (retainEntry w (w.entries t slot)) t
        { w.entries t slot with closeOnExec := false } with
      ⟨hfail, hsame⟩ | ⟨hok, _, _, free, hfree, hput⟩
    · obtain ⟨fn, o, hfn, ho⟩ := (hw.held hopen).parts
      rw [if_pos hfail, hsame, releaseEntry, hfn, ho]
      exact .inl rfl
    · rw [if_neg hok, hput]
      exact .inr ⟨free, by rwa [retainEntry_entries] at hfree, rfl⟩
  · exact .inl rfl

/-- The new slot is closed before the old one is read again and copied. -/
theorem duplicateTo_cases (w : World T Obj Fn) (t : T) (oldHandle newHandle : Handle) :
    (duplicateTo w t oldHandle newHandle).2 = w ∨
      ∃ slot newSlot v w', get w t oldHandle = some slot ∧ oldHandle ≠ newHandle ∧
        decodeHandle newHandle = some ((w.entries t slot).type, newSlot) ∧
        retainEntry w (w.entries t slot) = v ∧
        (if (v.entries t newSlot).type ≠ .none then (close v t newHandle).2 else v) = w' ∧
        (duplicateTo w t oldHandle newHandle).2 =
          w'.put t newSlot { w'.entries t slot with closeOnExec := false } := by
  unfold duplicateTo
  split
  · exact .inl rfl
  rename_i slot hget
  dsimp only
  split
  · exact .inl rfl
  split
  · exact .inl rfl
  rename_i hne
  split
  · exact .inl rfl
  rename_i newType newSlot hdecode
  split
  · exact .inl rfl
  · rename_i htype
    rw [Decidable.not_not] at htype
    exact .inr ⟨slot, newSlot, _, _, hget, hne, htype ▸ hdecode, rfl, rfl, rfl⟩

/-- Two names of one entry are one word. -/
def Unaliased (oldHandle newHandle : Handle) : Prop :=
  ∀ d, decodeHandle oldHandle = some d → decodeHandle newHandle = some d → oldHandle = newHandle

variable {oldHandle newHandle : Handle}

/-- `duplicateTo` onto the slot of the old handle, under a name `Unaliased`
allows, leaves the tables as they are. -/
theorem duplicateTo_own_slot (halias : Unaliased oldHandle newHandle)
    (hget : get w t oldHandle = some slot) (hnew : decodeHandle newHandle = some (type, slot)) :
    (duplicateTo w t oldHandle newHandle).2 = w := by
  refine (duplicateTo_cases w t oldHandle newHandle).resolve_right ?_
  rintro ⟨slot', newSlot, _, _, hget', hne, hdecode, -⟩
  cases hget.symm.trans hget'
  cases hnew.symm.trans hdecode
  exact hne (halias _ (get_some hget).1 hdecode)

theorem cloneSlot_cases (skipCloseOnExec filesOnly : Bool) (source dest : T)
    (w : World T Obj Fn) (slot : Slot) :
    cloneSlot skipCloseOnExec filesOnly source dest w slot = w ∨
      (w.entries source slot).type ≠ .none ∧ ∃ v w', retainEntry w (w.entries source slot) = v ∧
        (if (v.entries dest slot).type ≠ .none then
          clearEntry (releaseEntry v (v.entries dest slot)) dest slot else v) = w' ∧
        cloneSlot skipCloseOnExec filesOnly source dest w slot =
          w'.put dest slot (w'.entries source slot) := by
  unfold cloneSlot
  dsimp only
  split
  · rename_i hsrc
    simp only [cloneable, Bool.and_eq_true, decide_eq_true_eq] at hsrc
    exact .inr ⟨hsrc.1.1.1, _, _, rfl, rfl, rfl⟩
  · exact .inl rfl

end

/-! ## The balance of an object -/

variable [DecidableEq Obj]

/-- The references an entry holds on `object`: one if it is open on it. -/
def holds (entry : HandleEntry Obj Fn) (object : Obj) : Int :=
  if entry.type ≠ .none ∧ entry.object = some object then 1 else 0

variable [Fintype T]

/-- The number of open entries that hold `object`, over all tables. -/
def live (w : World T Obj Fn) (object : Obj) : Int :=
  ∑ p : T × Slot, holds (w.entries p.1 p.2) object

/-- How an event counts for `object`. -/
def Event.handed (object : Obj) : Event Obj Fn → Int
  | .handOver o => if o = object then 1 else 0
  | _ => 0

def Event.retained (object : Obj) : Event Obj Fn → Int
  | .retain _ o => if o = some object then 1 else 0
  | _ => 0

def Event.released (object : Obj) : Event Obj Fn → Int
  | .release _ o => if o = some object then 1 else 0
  | _ => 0

/-- References handed over by the callers of `allocate` and `allocateAt`. -/
def handedOver (w : World T Obj Fn) (object : Obj) : Int :=
  (w.calls.map (Event.handed object)).sum

/-- Calls of `retain` for `object`. -/
def retainCalls (w : World T Obj Fn) (object : Obj) : Int :=
  (w.calls.map (Event.retained object)).sum

/-- Calls of `release` for `object`. -/
def releaseCalls (w : World T Obj Fn) (object : Obj) : Int :=
  (w.calls.map (Event.released object)).sum

/-- References that were granted and are neither released nor held. -/
def balance (w : World T Obj Fn) (object : Obj) : Int :=
  handedOver w object + retainCalls w object - releaseCalls w object - live w object

theorem balance_note (event : Event Obj Fn) (object : Obj) : balance (w.note event) object =
      balance w object + event.handed object + event.retained object - event.released object := by
  simp only [balance, handedOver, retainCalls, releaseCalls, live, World.note, List.map_cons,
    List.sum_cons]
  omega

theorem balance_retainEntry (he : Held entry) (object : Obj) :
    balance (retainEntry w entry) object = balance w object + holds entry object := by
  obtain ⟨fn, hfn⟩ := Option.isSome_iff_exists.mp he.retain
  simp only [retainEntry, hfn, balance_note, handed, retained, released, holds,
    he.typed, ne_eq, not_false_eq_true, true_and]
  omega

theorem balance_releaseEntry (he : Held entry) (object : Obj) :
    balance (releaseEntry w entry) object = balance w object - holds entry object := by
  obtain ⟨fn, o, hfn, ho⟩ := he.parts
  simp only [releaseEntry, hfn, ho, balance_note, handed, retained, released,
    holds, he.typed, ne_eq, not_false_eq_true, true_and]
  omega

@[simp] theorem holds_cleared (object : Obj) :
    holds (.cleared : HandleEntry Obj Fn) object = 0 := by
  simp [holds, HandleEntry.cleared]

theorem holds_free (h : entry.type = .none) (object : Obj) : holds entry object = 0 := by
  simp [holds, h]

/-! ## What an operation may do -/

/-- A piece of an operation: it keeps the tables well held, moves the balance
of each object by `d`, and loses no open entry silently. -/
structure Moves (w w' : World T Obj Fn) (d : Obj → Int) : Prop where
  held : WellHeld w'
  balance : ∀ object, balance w' object = balance w object + d object
  kept : Kept w w'

/-- A piece that leaves every balance as it was. -/
abbrev Settles (w w' : World T Obj Fn) : Prop := Moves w w' 0

theorem Moves.refl (hw : WellHeld w) : Settles w w := ⟨hw, fun _ => by simp, .of_entries [] rfl rfl⟩

theorem Moves.of_eq (hw : WellHeld w) (h : w' = w) : Settles w w' := by
  rw [h]
  exact .refl hw

theorem Moves.trans {w1 w2 w3 : World T Obj Fn} {d e : Obj → Int} (h1 : Moves w1 w2 d)
    (h2 : Moves w2 w3 e) : Moves w1 w3 (d + e) where
  held := h2.held
  balance object := by rw [h2.balance, h1.balance, Pi.add_apply, add_assoc]
  kept := h1.kept.trans h2.kept

theorem Moves.cast {d e : Obj → Int} (h : Moves w w' d) (hd : d = e) : Moves w w' e := hd ▸ h

theorem retainEntry_moves (hw : WellHeld w)
    (he : Held entry) : Moves w (retainEntry w entry) (holds entry) where
  held := hw.of_entries (retainEntry_entries w entry)
  balance := balance_retainEntry he
  kept := by
    obtain ⟨fn, hfn⟩ := Option.isSome_iff_exists.mp he.retain
    refine .of_entries [.retain fn entry.object] ?_ (retainEntry_entries w entry)
    simp [retainEntry, hfn, World.note]

/-- A reference that was retained for a copy is given back. -/
theorem releaseEntry_moves (hw : WellHeld w) (he : Held entry) :
    Moves w (releaseEntry w entry) (-holds entry) where
  held := hw.of_entries (releaseEntry_entries w entry)
  balance := balance_releaseEntry he
  kept := by
    obtain ⟨fn, o, hfn, ho⟩ := he.parts
    refine .of_entries [.release fn (some o)] ?_ (releaseEntry_entries w entry)
    simp [releaseEntry, hfn, ho, World.note]

/-- A loop over slots settles when each of its turns does. -/
theorem foldl_settles {step : World T Obj Fn → Slot → World T Obj Fn}
    (hstep : ∀ w slot, WellHeld w → Settles w (step w slot)) (slots : List Slot)
    (hw : WellHeld w) : Settles w (slots.foldl step w) := by
  induction slots generalizing w with
  | nil => exact .refl hw
  | cons slot slots ih =>
    have hone := hstep w slot hw
    exact (hone.trans (ih hone.held)).cast (add_zero 0)

variable [DecidableEq T]

theorem live_put (object : Obj) : live (w.put t slot entry) object =
    live w object - holds (w.entries t slot) object + holds entry object := by
  have hupdate : (fun p : T × Slot => holds ((w.put t slot entry).entries p.1 p.2) object) =
      Function.update (fun p : T × Slot => holds (w.entries p.1 p.2) object) (t, slot)
        (holds entry object) := by
    funext p
    by_cases hp : p = (t, slot)
    · subst hp; simp
    · have : ¬ (p.1 = t ∧ p.2 = slot) := fun h => hp (Prod.ext h.1 h.2)
      simp [put_apply, this, Function.update_of_ne hp]
  have hsplit := Finset.add_sum_erase Finset.univ
    (fun p : T × Slot => holds (w.entries p.1 p.2) object) (Finset.mem_univ (t, slot))
  rw [live, hupdate, Finset.sum_update_of_mem (Finset.mem_univ _), Finset.sdiff_singleton_eq_erase]
  simp only [live] at hsplit ⊢
  omega

theorem balance_put (object : Obj) : balance (w.put t slot entry) object =
    balance w object + holds (w.entries t slot) object - holds entry object := by
  simp only [balance, handedOver, retainCalls, releaseCalls, put_calls, live_put]
  omega

section

variable (hw : WellHeld w)

include hw

/-- A write into a free slot. -/
theorem put_moves (hfree : (w.entries t slot).type = .none) (entry : HandleEntry Obj Fn)
    (he : Held entry) : Moves w (w.put t slot entry) (-holds entry) where
  held := hw.put t slot (.inr he)
  balance object := by
    rw [balance_put, holds_free hfree, Pi.neg_apply]
    omega
  kept := by
    refine ⟨[], rfl, fun t' slot' hopen => .inl ?_⟩
    rw [put_apply, if_neg]
    rintro ⟨rfl, rfl⟩
    exact hopen hfree

/-- The release of an open entry and the clearing of its slot. -/
theorem drop_settles (hopen : (w.entries t slot).type ≠ .none) :
    Settles w (clearEntry (releaseEntry w (w.entries t slot)) t slot) := by
  have he := hw.held hopen
  refine ⟨(hw.of_entries (releaseEntry_entries w _)).put t slot (.inl rfl), fun object => ?_, ?_⟩
  · rw [clearEntry, balance_put, balance_releaseEntry he, releaseEntry_entries, holds_cleared,
      Pi.zero_apply]
    omega
  · obtain ⟨fn, o, hfn, ho⟩ := he.parts
    refine ⟨[.release fn (some o)], ?_, fun t' slot' _ => ?_⟩
    · simp [clearEntry, releaseEntry, hfn, ho, World.note]
    · by_cases hslot : t' = t ∧ slot' = slot
      · obtain ⟨rfl, rfl⟩ := hslot
        exact .inr ⟨fn, o, hfn, ho, by simp⟩
      · exact .inl (by rw [clearEntry, put_apply, if_neg hslot, releaseEntry_entries])

/-! ## The operations -/

theorem close_settles (t : T) (handle : Handle) : Settles w (close w t handle).2 := by
  rcases close_cases w t handle with heq | ⟨_, _, _, hopen, heq⟩
  · exact .of_eq hw heq
  · rw [heq]
    exact drop_settles hw hopen

theorem closeExpecting_settles (t : T) (handle : Handle)
    (expected : HandleType) : Settles w (closeExpecting w t handle expected).2 := by
  rcases closeExpecting_cases w t handle expected with heq | heq
  · exact .of_eq hw heq
  · rw [heq]
    exact close_settles hw t handle

theorem closeWhere_settles (chosen : HandleEntry Obj Fn → Bool) (t : T) :
    Settles w (closeWhere chosen w t) := by
  refine foldl_settles (fun w slot hw => ?_) _ hw
  dsimp only
  split
  · exact close_settles hw t _
  · exact .refl hw

/-- The name `handle` can free the slot it names: the slot is free, or open
with the type the name carries. -/
def Vacatable (w : World T Obj Fn) (t : T) (handle : Handle) : Prop :=
  ∀ type slot, decodeHandle handle = some (type, slot) →
    (w.entries t slot).type = .none ∨ (w.entries t slot).type = type

/-- What the overwriting operations do before they write: the slot is freed
and every other slot is left alone. -/
structure Vacated (w : World T Obj Fn) (t : T) (slot : Slot) (w' : World T Obj Fn) : Prop
    extends Settles w w' where
  free : (w'.entries t slot).type = .none
  other : ∀ t' slot', ¬ (t' = t ∧ slot' = slot) → w'.entries t' slot' = w.entries t' slot'

theorem drop_vacated (hopen : (w.entries t slot).type ≠ .none) :
    Vacated w t slot (clearEntry (releaseEntry w (w.entries t slot)) t slot) where
  toMoves := drop_settles hw hopen
  free := by rw [clearEntry, put_self]; rfl
  other t' slot' h := by rw [clearEntry, put_apply, if_neg h, releaseEntry_entries]

theorem close_vacated (hdecode : decodeHandle handle = some (type, slot))
    (hvac : Vacatable w t handle) :
    Vacated w t slot (if (w.entries t slot).type ≠ .none then (close w t handle).2 else w) := by
  by_cases hopen : (w.entries t slot).type = .none
  · rw [if_neg (not_not.mpr hopen)]
    exact ⟨.refl hw, hopen, fun _ _ _ => rfl⟩
  have htype := (hvac type slot hdecode).resolve_left hopen
  have hclose : (close w t handle).2 = clearEntry (releaseEntry w (w.entries t slot)) t slot := by
    simp [close, hdecode, htype, htype ▸ hopen]
  rw [if_pos hopen, hclose]
  exact drop_vacated hw hopen

/-- The call fails and does nothing, or puts the entry down. -/
def Allocates (w : World T Obj Fn) (entry : HandleEntry Obj Fn)
    (result : Handle × World T Obj Fn) : Prop :=
  (result.1 = invalidHandle ∧ result.2 = w) ∨
    (result.1 ≠ invalidHandle ∧ Held entry ∧ Moves w result.2 (-holds entry))

theorem allocateAt_moves (hretain : entry.retain.isSome) (hrelease : entry.release.isSome)
    (hvac : Vacatable w t handle) : Allocates w entry (allocateAt w t handle entry) := by
  unfold allocateAt
  split
  · exact .inl ⟨rfl, rfl⟩
  rename_i handleType slot hdecode
  split
  · exact .inl ⟨rfl, rfl⟩
  rename_i hargs
  simp only [not_or] at hargs
  have he : Held entry := ⟨hargs.2.1, Option.isSome_iff_ne_none.mpr hargs.2.2, hretain, hrelease⟩
  have hvacated := close_vacated hw hdecode hvac
  refine .inr ⟨?_, he, ?_⟩
  · rintro rfl
    cases hdecode
  · exact (hvacated.toMoves.trans (put_moves hvacated.held hvacated.free _ he)).cast (zero_add _)

/-- The same of `allocate`, which looks for a free slot itself. -/
theorem allocate_moves (t : T) (entry : HandleEntry Obj Fn) (hretain : entry.retain.isSome)
    (hrelease : entry.release.isSome) : Allocates w entry (allocate w t entry) := by
  refine (allocate_cases w t entry).imp_right fun ⟨hok, htype, hobject, slot, hfree, heq⟩ => ?_
  have he : Held entry := ⟨htype, Option.isSome_iff_ne_none.mpr hobject, hretain, hrelease⟩
  exact ⟨hok, he, heq ▸ put_moves hw hfree entry he⟩

theorem duplicate_settles (t : T) (handle : Handle) : Settles w (duplicate w t handle).2 := by
  rcases duplicate_cases hw t handle with heq | ⟨slot, hopen, hcases⟩
  · exact .of_eq hw heq
  have he := hw.held hopen
  have hretained := retainEntry_moves hw he
  rcases hcases with heq | ⟨free, hfree, heq⟩
  · rw [heq]
    exact (hretained.trans (releaseEntry_moves hretained.held he)).cast (add_neg_cancel _)
  rw [heq]
  have hput := put_moves hretained.held (by rwa [retainEntry_entries])
    { w.entries t slot with closeOnExec := false } { he with }
  -- The copy holds what the entry holds; only `closeOnExec` differs.
  exact (hretained.trans hput).cast (add_neg_cancel _)

theorem duplicateExpecting_settles (t : T) (handle : Handle) (expected : HandleType) :
    Settles w (duplicateExpecting w t handle expected).2 := by
  unfold duplicateExpecting
  split
  · exact .refl hw
  · split
    · exact .refl hw
    · exact duplicate_settles hw t handle

/-- The reference taken for a copy goes to the slot that was freed for it. -/
theorem copy_settles {t' : T} {slot' : Slot} (hopen : (w.entries t slot).type ≠ .none)
    (hvacated : Vacated (retainEntry w (w.entries t slot)) t' slot' w')
    (hcopy : Held entry) (hsame : holds entry = holds (w.entries t slot)) :
    Settles w (w'.put t' slot' entry) := by
  refine (((retainEntry_moves hw (hw.held hopen)).trans hvacated.toMoves).trans
    (put_moves hvacated.held hvacated.free _ hcopy)).cast ?_
  rw [add_zero, hsame]
  exact add_neg_cancel _

theorem duplicateTo_settles (halias : Unaliased oldHandle newHandle)
    (hvac : oldHandle = newHandle ∨ Vacatable w t newHandle) :
    Settles w (duplicateTo w t oldHandle newHandle).2 := by
  rcases duplicateTo_cases w t oldHandle newHandle with
    heq | ⟨slot, newSlot, _, w', hget, hne, hdecode, rfl, hw', heq⟩
  · exact .of_eq hw heq
  · obtain ⟨hold, hopen⟩ := get_some hget
    have he := hw.held hopen
    have hslot : newSlot ≠ slot := by
      rintro rfl
      exact hne (halias _ hold hdecode)
    have hvacated := close_vacated (retainEntry_moves hw he).held hdecode (by
      intro type' slot' h
      rw [retainEntry_entries]
      exact hvac.resolve_left hne type' slot' h)
    rw [hw'] at hvacated
    rw [heq, hvacated.other t slot fun h => hslot h.2.symm, retainEntry_entries]
    exact copy_settles hw hopen hvacated { he with } rfl

/-- The typed form looks at the type of the new slot itself. -/
theorem duplicateToExpecting_settles
    (halias : Unaliased oldHandle newHandle) (expected : HandleType) :
    Settles w (duplicateToExpecting w t oldHandle newHandle expected).2 := by
  unfold duplicateToExpecting
  split
  · exact .refl hw
  split
  · exact .refl hw
  split
  · exact .refl hw
  rename_i newType newSlot hdecode
  split
  · exact .refl hw
  rename_i htype
  split
  · exact .refl hw
  rename_i hslot
  refine duplicateTo_settles hw halias (.inr fun type slot h => ?_)
  rw [hdecode] at h
  cases h
  by_cases hnone : (w.entries t newSlot).type = .none
  · exact .inl hnone
  · exact .inr ((Decidable.not_not.mp fun h => hslot ⟨hnone, h⟩).trans
      (Decidable.not_not.mp htype).symm)

end

theorem cloneSlot_settles (skipCloseOnExec filesOnly : Bool) {source dest : T}
    (hne : dest ≠ source) (hw : WellHeld w) (slot : Slot) :
    Settles w (cloneSlot skipCloseOnExec filesOnly source dest w slot) := by
  rcases cloneSlot_cases skipCloseOnExec filesOnly source dest w slot with
    heq | ⟨hopen, _, w', rfl, hw', heq⟩
  · exact .of_eq hw heq
  · have he := hw.held hopen
    have hretained := retainEntry_moves hw he
    have hvacated : Vacated (retainEntry w (w.entries source slot)) dest slot w' := by
      subst hw'
      split_ifs with hold
      · exact drop_vacated hretained.held hold
      · exact ⟨.refl hretained.held, Decidable.not_not.mp hold, fun _ _ _ => rfl⟩
    rw [heq, hvacated.other source slot fun h => hne h.1.symm, retainEntry_entries]
    exact copy_settles hw hopen hvacated he rfl

theorem cloneFrom_settles (hw : WellHeld w) {source dest : T}
    (hne : dest ≠ source) (skipCloseOnExec filesOnly : Bool) :
    Settles w (cloneFrom w dest source skipCloseOnExec filesOnly) :=
  foldl_settles (fun _ slot hw => cloneSlot_settles skipCloseOnExec filesOnly hne hw slot) _ hw

end

/-! ## Runs -/

section

variable {T Obj Fn : Type} [DecidableEq T]

/-- A call of the handle tables.  The arguments of `allocate` and `allocateAt`
are the fields of the entry they write. -/
inductive Op (T Obj Fn : Type)
  | allocate (t : T) (entry : HandleEntry Obj Fn)
  | allocateAt (t : T) (handle : Handle) (entry : HandleEntry Obj Fn)
  | close (t : T) (handle : Handle)
  | closeExpecting (t : T) (handle : Handle) (expected : HandleType)
  | closeAll (t : T)
  | closeAllFiles (t : T)
  | closeOnExecHandles (t : T)
  | duplicate (t : T) (handle : Handle)
  | duplicateExpecting (t : T) (handle : Handle) (expected : HandleType)
  | duplicateTo (t : T) (oldHandle newHandle : Handle)
  | duplicateToExpecting (t : T) (oldHandle newHandle : Handle) (expected : HandleType)
  | cloneFrom (dest source : T) (skipCloseOnExec filesOnly : Bool)

/-- A caller hands its reference over when the allocation succeeds. -/
def handOver (entry : HandleEntry Obj Fn) (result : Handle × World T Obj Fn) :
    World T Obj Fn :=
  match entry.object with
  | some object => if result.1 = invalidHandle then result.2 else result.2.note (.handOver object)
  | none => result.2

def step (w : World T Obj Fn) : Op T Obj Fn → World T Obj Fn
  | .allocate t entry => handOver entry (allocate w t entry)
  | .allocateAt t handle entry => handOver entry (allocateAt w t handle entry)
  | .close t handle => (close w t handle).2
  | .closeExpecting t handle expected => (closeExpecting w t handle expected).2
  | .closeAll t => closeAll w t
  | .closeAllFiles t => closeAllFiles w t
  | .closeOnExecHandles t => closeOnExecHandles w t
  | .duplicate t handle => (duplicate w t handle).2
  | .duplicateExpecting t handle expected => (duplicateExpecting w t handle expected).2
  | .duplicateTo t oldHandle newHandle => (duplicateTo w t oldHandle newHandle).2
  | .duplicateToExpecting t oldHandle newHandle expected =>
    (duplicateToExpecting w t oldHandle newHandle expected).2
  | .cloneFrom dest source skipCloseOnExec filesOnly =>
    cloneFrom w dest source skipCloseOnExec filesOnly

/-- The calls that stay away from the holes of the table: a reference comes
with the two functions that count it, an overwritten slot can be freed under
the name it is overwritten by, an entry is not copied onto itself under
another name, and a table is not cloned from itself. -/
def Op.Sound (w : World T Obj Fn) : Op T Obj Fn → Prop
  | .allocate _ entry => entry.retain.isSome ∧ entry.release.isSome
  | .allocateAt t handle entry =>
    entry.retain.isSome ∧ entry.release.isSome ∧ Vacatable w t handle
  | .duplicateTo t oldHandle newHandle =>
    Unaliased oldHandle newHandle ∧ (oldHandle = newHandle ∨ Vacatable w t newHandle)
  | .duplicateToExpecting _ oldHandle newHandle _ => Unaliased oldHandle newHandle
  | .cloneFrom dest source _ _ => dest ≠ source
  | _ => True

/-- The states of the runs whose calls are sound. -/
inductive Reached : World T Obj Fn → Prop
  | fresh : Reached .fresh
  | step {w : World T Obj Fn} (hw : Reached w) (op : Op T Obj Fn) (hop : op.Sound w) :
      Reached (step w op)

variable [Fintype T] [DecidableEq Obj] {w : World T Obj Fn}

omit [DecidableEq T] in
theorem handOver_settles (hw : WellHeld w) {entry : HandleEntry Obj Fn}
    {result : Handle × World T Obj Fn} (h : Allocates w entry result) :
    Settles w (handOver entry result) := by
  rcases h with ⟨hfail, hsame⟩ | ⟨hok, he, hput⟩
  · have : handOver entry result = w := by
      unfold handOver
      split
      · rw [if_pos hfail, hsame]
      · exact hsame
    rw [this]
    exact .refl hw
  · obtain ⟨o, ho⟩ := Option.isSome_iff_exists.mp he.object
    have hnote : Moves result.2 (result.2.note (.handOver o)) (holds entry) := by
      refine ⟨hput.held, fun object => ?_, .of_entries [.handOver o] rfl rfl⟩
      rw [balance_note]
      simp [handed, retained, released, holds, he.typed, ho]
    have : handOver entry result = result.2.note (.handOver o) := by
      simp [handOver, ho, hok]
    rw [this]
    exact (hput.trans hnote).cast (neg_add_cancel _)

/-- One sound call. -/
theorem step_settles (hw : WellHeld w) {op : Op T Obj Fn}
    (hop : op.Sound w) : Settles w (step w op) := by
  cases op with
  | allocate t entry => exact handOver_settles hw (allocate_moves hw t entry hop.1 hop.2)
  | allocateAt t handle entry =>
    exact handOver_settles hw (allocateAt_moves hw hop.1 hop.2.1 hop.2.2)
  | close t handle => exact close_settles hw t handle
  | closeExpecting t handle expected => exact closeExpecting_settles hw t handle expected
  | closeAll t | closeAllFiles t | closeOnExecHandles t =>
    rw [step]
    exact closeWhere_settles hw _ t
  | duplicate t handle => exact duplicate_settles hw t handle
  | duplicateExpecting t handle expected => exact duplicateExpecting_settles hw t handle expected
  | duplicateTo t oldHandle newHandle => exact duplicateTo_settles hw hop.1 hop.2
  | duplicateToExpecting t oldHandle newHandle expected =>
    exact duplicateToExpecting_settles hw hop expected
  | cloneFrom dest source skip files => exact cloneFrom_settles hw hop skip files

/-- Along a run of sound calls nothing is granted that is not held or released. -/
theorem Reached.settled (h : Reached w) : WellHeld w ∧ ∀ object, balance w object = 0 := by
  induction h with
  | fresh =>
    refine ⟨fun _ _ => .inl rfl, fun object => ?_⟩
    simp [balance, handedOver, retainCalls, releaseCalls, live, World.fresh]
  | step _ op hop ih =>
    have hstep := step_settles ih.1 hop
    exact ⟨hstep.held, fun object => by rw [hstep.balance, ih.2 object]; rfl⟩

/-- The references of every object are conserved: in every state reached by
sound calls the open entries on it are the references handed over and retained
and not yet released; the next sound call overwrites or clears no open slot
without the call of its release function; and `duplicateTo` onto the own slot
of an open handle leaves the entry as it is. -/
theorem references_conserved {w : World T Obj Fn} (hw : Reached w) : (∀ object, live w object =
      handedOver w object + retainCalls w object - releaseCalls w object) ∧
    (∀ op : Op T Obj Fn, op.Sound w → Kept w (step w op)) ∧
    (∀ t oldHandle newHandle slot type, (Op.duplicateTo t oldHandle newHandle).Sound w →
      get w t oldHandle = some slot → decodeHandle newHandle = some (type, slot) →
      (step w (.duplicateTo t oldHandle newHandle)).entries t slot = w.entries t slot) := by
  obtain ⟨hheld, hbalance⟩ := hw.settled
  refine ⟨fun object => ?_, fun op hop => (step_settles hheld hop).kept, ?_⟩
  · have h := hbalance object
    simp only [balance] at h
    omega
  · intro t oldHandle newHandle slot type hsound hget hnew
    rw [step, duplicateTo_own_slot hsound.1 hget hnew]

end

/-- An open file. -/
def sampleEntry : HandleEntry Unit Unit :=
  { type := .file, rights := handleRightDuplicate, object := some (), retain := some ()
    release := some (), closeOnExec := false }

/-- The file handle of slot 3. -/
def sampleHandle : Handle := 0x0001000000000003

/-- Another name of the same slot: bit 32 is set. -/
def sampleAlias : Handle := 0x0001000100000003

/-- Two processes open the file; the first one copies its handle and closes it. -/
def sampleWorld : World Bool Unit Unit :=
  [.allocate false sampleEntry, .allocate true sampleEntry, .duplicate false sampleHandle,
    .close false sampleHandle].foldl step .fresh

theorem references_conserved_sample :
    live sampleWorld () = 2 ∧ handedOver sampleWorld () = 2 ∧ retainCalls sampleWorld () = 1 ∧
      releaseCalls sampleWorld () = 1 ∧ Kept sampleWorld (step sampleWorld (.closeAll false)) := by
  have hreached : Reached sampleWorld := by
    rw [sampleWorld]
    simp only [List.foldl_cons, List.foldl_nil]
    refine .step (.step (.step (.step .fresh _ ?_) _ ?_) _ ?_) _ ?_
    exacts [⟨rfl, rfl⟩, ⟨rfl, rfl⟩, trivial, trivial]
  have hall := references_conserved hreached
  have hcalls : handedOver sampleWorld () = 2 ∧ retainCalls sampleWorld () = 1 ∧
      releaseCalls sampleWorld () = 1 := by decide +kernel
  refine ⟨?_, hcalls.1, hcalls.2.1, hcalls.2.2, hall.2.1 _ trivial⟩
  rw [hall.1, hcalls.1, hcalls.2.1, hcalls.2.2]
  rfl

/-- Copying the file handle onto its own slot under the other name closes it:
one reference was handed over, one retained and one released, and no entry is
left to hold the remaining one. -/
theorem duplicateTo_alias_loses_reference :
    ¬ ∀ ops : List (Op Unit Unit Unit), let w := ops.foldl step World.fresh
      live w () = handedOver w () + retainCalls w () - releaseCalls w () := by
  intro h
  have hrun := h [.allocate () sampleEntry, .duplicateTo () sampleHandle sampleAlias]
  revert hrun
  decide +kernel

end InstantOS.Handles
