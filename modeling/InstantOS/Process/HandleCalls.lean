import InstantOS.Process.HandleReferences
import Mathlib.Algebra.Order.BigOperators.Group.Finset

/-!
# The calls of one handle operation

`HandleReferences` balances the references of an object over runs that stay away from
the holes of the table.  This file looks at one operation from the side of the object,
and lets it fall into the holes: a slot that is overwritten, or copied onto itself, loses
its entry but not the reference behind it.  So every operation leaves at most as many
open entries as there are references, and makes each of its calls while an entry is open
that justifies it.
-/

namespace InstantOS.Handles

open Function Event List

section

variable {T Obj Fn : Type} [Fintype T] [DecidableEq Obj] {w : World T Obj Fn}
  {entry : HandleEntry Obj Fn} {slot : Slot}

/-- The object an event is about. -/
def Event.object : Event Obj Fn → Option Obj
  | .handOver o => some o
  | .retain _ o => o
  | .release _ o => o

def Event.isRetain : Event Obj Fn → Bool
  | .retain _ _ => true
  | _ => false

/-- What the calls do to the count of references of `object`. -/
def net (object : Obj) (calls : List (Event Obj Fn)) : Int :=
  (calls.map fun event => event.retained object - event.released object).sum

@[simp] theorem net_nil (object : Obj) : net object ([] : List (Event Obj Fn)) = 0 := rfl

@[simp] theorem net_cons (object : Obj) (event : Event Obj Fn) (calls : List (Event Obj Fn)) :
    net object (event :: calls) =
      event.retained object - event.released object + net object calls := by
  simp [net]

@[simp] theorem net_append (object : Obj) (calls calls' : List (Event Obj Fn)) :
    net object (calls ++ calls') = net object calls + net object calls' := by
  simp [net]

theorem holds_nonneg (entry : HandleEntry Obj Fn) (object : Obj) : 0 ≤ holds entry object := by
  unfold holds
  split <;> omega

theorem holds_self (he : Held entry) {object : Obj}
    (ho : entry.object = some object) : holds entry object = 1 := by
  simp [holds, he.typed, ho]

/-- An open entry is one of those that are counted. -/
theorem holds_le_live (w : World T Obj Fn) (t : T) (slot : Slot) (object : Obj) :
    holds (w.entries t slot) object ≤ live w object :=
  Finset.single_le_sum
    (fun _ _ => holds_nonneg _ _) (Finset.mem_univ (t, slot))

variable {t : T}

theorem WellHeld.live {object : Obj} (hw : WellHeld w)
    (hopen : (w.entries t slot).type ≠ .none) (ho : (w.entries t slot).object = some object) :
    1 ≤ Handles.live w object := by
  have hself := holds_self (hw.held hopen) ho
  have hcounted := holds_le_live w t slot object
  omega

/-- From `w` to `w'` the calls `new` are made, the latest first.  Every call finds an open
entry on its object, counted with the calls before it; at the end `d` references of each
object are to spare; and no more than `k` of the calls are retains. -/
structure Serves (w : World T Obj Fn) (new : List (Event Obj Fn)) (w' : World T Obj Fn)
    (d : Obj → Int) (k : Nat) : Prop where
  held : WellHeld w'
  calls : w'.calls = new ++ w.calls
  covered : ∀ object, live w' object + d object ≤ live w object + net object new
  backed : ∀ later event earlier object, new = later ++ event :: earlier →
    event.object = some object → 1 ≤ live w object + net object earlier
  retains : new.countP Event.isRetain ≤ k

theorem Serves.refl (hw : WellHeld w) (k : Nat) : Serves w [] w 0 k where
  held := hw
  calls := rfl
  covered := by simp
  backed := by simp
  retains := by simp

theorem Serves.of_eq {w' : World T Obj Fn} (hw : WellHeld w) (h : w' = w) (k : Nat) :
    Serves w [] w' 0 k := by
  rw [h]
  exact .refl hw k

theorem Serves.trans {w1 w2 w3 : World T Obj Fn} {new1 new2 : List (Event Obj Fn)}
    {d e : Obj → Int} {k l : Nat} (h1 : Serves w1 new1 w2 d k) (h2 : Serves w2 new2 w3 e l)
    (hd : ∀ object, 0 ≤ d object) : Serves w1 (new2 ++ new1) w3 (d + e) (k + l) where
  held := h2.held
  calls := by rw [h2.calls, h1.calls, append_assoc]
  covered object := by
    have hfirst := h1.covered object
    have hsecond := h2.covered object
    rw [Pi.add_apply, net_append]
    omega
  backed later event earlier object hsplit hobject := by
    -- The call is one of the second part, or of the first.
    rcases append_eq_append_iff.mp hsplit with ⟨mid, hmid, hrest⟩ | ⟨mid, hmid, hrest⟩
    · exact h1.backed mid event earlier object hrest hobject
    cases mid with
    | nil => exact h1.backed [] event earlier object hrest.symm hobject
    | cons first mid =>
      rw [cons_append] at hrest
      obtain ⟨rfl, rfl⟩ := cons.inj hrest
      have hcall := h2.backed later event mid object hmid hobject
      have hfirst := h1.covered object
      have hspare := hd object
      rw [net_append]
      omega
  retains := by
    rw [countP_append]
    have hfirst := h1.retains
    have hsecond := h2.retains
    omega

theorem Serves.cast {w' : World T Obj Fn} {new : List (Event Obj Fn)} {d e : Obj → Int}
    {k l : Nat} (h : Serves w new w' d k) (he : ∀ object, e object ≤ d object) (hk : k ≤ l) :
    Serves w new w' e l :=
  { h with
    covered := fun object => by
      have hcovered := h.covered object
      have hless := he object
      omega
    retains := h.retains.trans hk }

/-! ## The pieces -/

section

variable (hw : WellHeld w)

include hw

/-- One call on behalf of an open entry. -/
theorem note_serves {event : Event Obj Fn} {d : Obj → Int}
    (hevent : ∀ object, event.object = some object → (w.entries t slot).object = some object)
    (hopen : (w.entries t slot).type ≠ .none)
    (hd : ∀ object, d object = event.retained object - event.released object) :
    Serves w [event] (w.note event) d 1 where
  held := hw.of_entries rfl
  calls := rfl
  covered object := by
    rw [hd, net_cons, net_nil, add_zero]
    exact le_refl _
  backed later other earlier object hsplit hobject := by
    cases later with
    | nil =>
      obtain ⟨rfl, rfl⟩ := cons.inj hsplit
      rw [net_nil, add_zero]
      exact hw.live hopen (hevent object hobject)
    | cons first later => simp at hsplit
  retains := countP_le_length

theorem retainEntry_serves (hopen : (w.entries t slot).type ≠ .none) :
    ∃ new, Serves w new (retainEntry w (w.entries t slot)) (holds (w.entries t slot)) 1 := by
  have he := hw.held hopen
  obtain ⟨fn, hfn⟩ := Option.isSome_iff_exists.mp he.retain
  refine ⟨[.retain fn (w.entries t slot).object], ?_⟩
  rw [show retainEntry w (w.entries t slot) =
      w.note (.retain fn (w.entries t slot).object) by simp [retainEntry, hfn]]
  refine note_serves hw (fun object h => h) hopen fun object => ?_
  simp [holds, retained, released, hopen]

/-- A reference that was retained for a copy is given back. -/
theorem undo_serves (hopen : (w.entries t slot).type ≠ .none) (fn : Fn) :
    Serves w [.release fn (w.entries t slot).object]
      (w.note (.release fn (w.entries t slot).object)) (-holds (w.entries t slot)) 1 := by
  refine note_serves hw (fun object h => h) hopen fun object => ?_
  simp [holds, retained, released, hopen]

end

/-- A loop over slots serves when each of its turns does; each turn adds its retains. -/
theorem foldl_serves {step : World T Obj Fn → Slot → World T Obj Fn} {k : Nat}
    (hstep : ∀ w slot, WellHeld w → ∃ new, Serves w new (step w slot) 0 k) (slots : List Slot)
    (hw : WellHeld w) : ∃ new, Serves w new (slots.foldl step w) 0 (slots.length * k) := by
  induction slots generalizing w with
  | nil => exact ⟨[], .refl hw _⟩
  | cons slot slots ih =>
    obtain ⟨first, hfirst⟩ := hstep w slot hw
    obtain ⟨rest, hrest⟩ := ih hfirst.held
    refine ⟨rest ++ first, (hfirst.trans hrest fun _ => le_refl _).cast (fun _ => by simp) ?_⟩
    rw [length_cons, Nat.succ_mul]
    omega

variable [DecidableEq T]

section

variable (hw : WellHeld w)

include hw

/-- A write into a slot, free or not, uses up the references of the new entry. -/
theorem put_serves (t : T) (slot : Slot) (he : entry.type = .none ∨ Held entry) :
    Serves w [] (w.put t slot entry) (-holds entry) 0 where
  held := hw.put t slot he
  calls := rfl
  covered object := by
    have hold := holds_nonneg (w.entries t slot) object
    rw [live_put, Pi.neg_apply, net_nil]
    omega
  backed := by simp
  retains := by simp

theorem drop_serves (hopen : (w.entries t slot).type ≠ .none) :
    ∃ new, Serves w new (clearEntry (releaseEntry w (w.entries t slot)) t slot) 0 0 := by
  have he := hw.held hopen
  obtain ⟨fn, o, hfn, ho⟩ := he.parts
  have hreleased : releaseEntry w (w.entries t slot) =
      w.note (.release fn (w.entries t slot).object) := by
    simp [releaseEntry, hfn, ho]
  have hnote := undo_serves hw hopen fn
  refine ⟨[.release fn (w.entries t slot).object], ?_, ?_, fun object => ?_, hnote.backed, ?_⟩
  · rw [hreleased]
    exact hnote.held.put t slot (.inl rfl)
  · rw [hreleased]
    exact hnote.calls
  · rw [hreleased, clearEntry, live_put, note_entries, holds_cleared, Pi.zero_apply]
    have hcovered := hnote.covered object
    rw [Pi.neg_apply] at hcovered
    omega
  · simp [isRetain]

/-! ## The operations -/

theorem close_serves (t : T) (handle : Handle) : ∃ new, Serves w new (close w t handle).2 0 0 := by
  rcases close_cases w t handle with heq | ⟨_, _, _, hopen, heq⟩
  · exact ⟨[], .of_eq hw heq 0⟩
  · rw [heq]
    exact drop_serves hw hopen

theorem closeExpecting_serves (t : T) (handle : Handle) (expected : HandleType) :
    ∃ new, Serves w new (closeExpecting w t handle expected).2 0 0 := by
  rcases closeExpecting_cases w t handle expected with heq | heq
  · exact ⟨[], .of_eq hw heq 0⟩
  · rw [heq]
    exact close_serves hw t handle

end

theorem closeAll_serves (hw : WellHeld w) (t : T) : ∃ new, Serves w new (closeAll w t) 0 0 := by
  have hturn : ∀ (w : World T Obj Fn) (slot : Slot), WellHeld w →
      ∃ new, Serves w new (if (w.entries t slot).type ≠ .none then
        (close w t (encodeHandle (w.entries t slot).type slot)).2 else w) 0 0 := by
    intro w slot hw
    split
    · exact close_serves hw t _
    · exact ⟨[], .refl hw 0⟩
  obtain ⟨new, h⟩ := foldl_serves hturn (finRange maxHandles) hw
  rw [Nat.mul_zero] at h
  refine ⟨new, ?_⟩
  simpa only [closeAll, closeWhere, decide_eq_true_eq] using h

theorem duplicate_serves (hw : WellHeld w) (t : T) (handle : Handle) :
    ∃ new, Serves w new (duplicate w t handle).2 0 maxHandles := by
  rcases duplicate_cases hw t handle with heq | ⟨slot, hopen, hcases⟩
  · exact ⟨[], .of_eq hw heq _⟩
  have he := hw.held hopen
  obtain ⟨first, hfirst⟩ := retainEntry_serves hw hopen
  rcases hcases with heq | ⟨free, _, heq⟩
  · rw [heq]
    obtain ⟨fn, o, hfn, ho⟩ := he.parts
    rw [← retainEntry_entries w (w.entries t slot)] at hopen
    have hundo := undo_serves hfirst.held hopen fn
    rw [retainEntry_entries, ho] at hundo
    simp only [releaseEntry, hfn, ho]
    exact ⟨_, (hfirst.trans hundo (holds_nonneg _)).cast (fun _ => by simp) (by decide)⟩
  · rw [heq]
    have hwrite := put_serves hfirst.held t free
      (show _ ∨ Held { w.entries t slot with closeOnExec := false } from .inr { he with })
    -- The copy holds what the entry holds; only `closeOnExec` differs.
    refine ⟨_, (hfirst.trans hwrite (holds_nonneg _)).cast (fun object => ?_) (by decide)⟩
    exact (add_neg_cancel (holds (w.entries t slot) object)).ge

/-- The reference taken for a copy is used up by the write, whatever became of the entry it
was taken from. -/
theorem copy_serves {w1 w2 : World T Obj Fn} {first second : List (Event Obj Fn)} {t t' : T}
    {slot' : Slot}
    (hfirst : Serves w first w1 (holds (w.entries t slot)) 1) (hsecond : Serves w1 second w2 0 0)
    (hentry : entry.type = .none ∨ Held entry ∧ holds entry = holds (w.entries t slot)) :
    Serves w (second ++ first) (w2.put t' slot' entry) 0 1 := by
  have hwrite := put_serves hsecond.held t' slot' (hentry.imp id fun h => h.1)
  refine ((hfirst.trans hsecond (holds_nonneg _)).trans hwrite fun object => ?_).cast
    (fun object => ?_) (le_refl _)
  · rw [Pi.add_apply, Pi.zero_apply, add_zero]
    exact holds_nonneg _ _
  · rw [Pi.add_apply, Pi.zero_apply, Pi.neg_apply, add_zero]
    rcases hentry with hnone | ⟨_, hsame⟩
    · rw [holds_free hnone]
      have hspare := holds_nonneg (w.entries t slot) object
      omega
    · rw [hsame]
      omega

theorem duplicateTo_serves (hw : WellHeld w) (t : T) (oldHandle newHandle : Handle) :
    ∃ new, Serves w new (duplicateTo w t oldHandle newHandle).2 0 maxHandles := by
  rcases duplicateTo_cases w t oldHandle newHandle with
    heq | ⟨slot, newSlot, v, _, hget, _, _, hv, rfl, heq⟩
  · exact ⟨[], .of_eq hw heq _⟩
  · have hopen := (get_some hget).2
    have he := hw.held hopen
    obtain ⟨first, hfirst⟩ := retainEntry_serves hw hopen
    rw [hv] at hfirst
    have hsame : v.entries t slot = w.entries t slot := by rw [← hv, retainEntry_entries]
    rw [heq]
    split
    · obtain ⟨second, hsecond⟩ := close_serves hfirst.held t newHandle
      refine ⟨_, (copy_serves hfirst hsecond ?_).cast (fun _ => le_refl _) (by decide)⟩
      rcases close_cases v t newHandle with hclose | ⟨_, closed, _, _, hclose⟩
      · rw [hclose, hsame]
        exact .inr ⟨{ he with }, rfl⟩
      rw [hclose, clearEntry, put_apply, releaseEntry_entries, hsame]
      split
      · exact .inl rfl
      · exact .inr ⟨{ he with }, rfl⟩
    · refine ⟨_, (copy_serves hfirst (.refl hfirst.held 0) ?_).cast (fun _ => le_refl _)
        (by decide)⟩
      rw [hsame]
      exact .inr ⟨{ he with }, rfl⟩

theorem cloneSlot_serves (skipCloseOnExec filesOnly : Bool) (source dest : T)
    (hw : WellHeld w) (slot : Slot) :
    ∃ new, Serves w new (cloneSlot skipCloseOnExec filesOnly source dest w slot) 0 1 := by
  rcases cloneSlot_cases skipCloseOnExec filesOnly source dest w slot with
    heq | ⟨hopen, v, _, hv, rfl, heq⟩
  · exact ⟨[], .of_eq hw heq 1⟩
  · have he := hw.held hopen
    obtain ⟨first, hfirst⟩ := retainEntry_serves hw hopen
    rw [hv] at hfirst
    have hsame : v.entries source slot = w.entries source slot := by rw [← hv, retainEntry_entries]
    rw [heq]
    split
    · rename_i hold
      obtain ⟨second, hsecond⟩ := drop_serves hfirst.held hold
      refine ⟨_, copy_serves hfirst hsecond ?_⟩
      rw [clearEntry, put_apply, releaseEntry_entries, hsame]
      split
      · exact .inl rfl
      · exact .inr ⟨he, rfl⟩
    · refine ⟨_, copy_serves hfirst (.refl hfirst.held 0) ?_⟩
      rw [hsame]
      exact .inr ⟨he, rfl⟩

theorem cloneFrom_serves (hw : WellHeld w) (dest source : T) (skipCloseOnExec filesOnly : Bool) :
    ∃ new, Serves w new (cloneFrom w dest source skipCloseOnExec filesOnly) 0 maxHandles := by
  obtain ⟨new, h⟩ := foldl_serves
    (fun w slot hw => cloneSlot_serves skipCloseOnExec filesOnly source dest hw slot)
    (finRange maxHandles) hw
  refine ⟨new, h.cast (fun _ => le_refl _) ?_⟩
  rw [length_finRange, Nat.mul_one]

/-! ## Delivering the calls -/

section

variable {S : Type} {deliver : Event Obj Fn → S → S} {P : (Obj → Int) → S → Prop}
  {count : S → Obj → Nat} {room : Nat}
  (hhand : ∀ o s, deliver (.handOver o) s = s)
  (hnone : ∀ fn s, deliver (.retain fn none) s = s ∧ deliver (.release fn none) s = s)
  (hmono : ∀ {refs refs' s}, P refs s → (∀ o, refs' o ≤ refs o) → P refs' s)
  (hretain : ∀ {refs s fn o}, P refs s → 1 ≤ refs o → count s o + 1 < room →
    P (update refs o (refs o + 1)) (deliver (.retain fn (some o)) s) ∧
      ∀ o', count (deliver (.retain fn (some o)) s) o' ≤ count s o' + 1)
  (hrelease : ∀ {refs s fn o}, P refs s → 1 ≤ refs o →
    P (update refs o (refs o - 1)) (deliver (.release fn (some o)) s) ∧
      ∀ o', count (deliver (.release fn (some o)) s) o' ≤ count s o')

include hhand hnone hmono hretain hrelease

/-- One call, if its object is referred to and the count has room for it. -/
theorem delivery {refs : Obj → Int} {s : S} (h : P refs s) {event : Event Obj Fn}
    (hbacked : ∀ o, event.object = some o → 1 ≤ refs o)
    (hroom : ∀ o, count s o + [event].countP isRetain < room) :
    P (fun o => refs o + (event.retained o - event.released o)) (deliver event s) ∧
      ∀ o, count (deliver event s) o ≤ count s o + [event].countP isRetain := by
  cases event with
  | handOver o => simpa [hhand, retained, released] using h
  | retain fn object =>
    cases object with
    | none => simpa [(hnone fn s).1, retained, released] using h
    | some o =>
      refine (hretain h (hbacked o rfl) (hroom o)).imp_left fun hnow => hmono hnow fun o' => ?_
      by_cases heq : o' = o
      · subst heq
        simp [retained, released]
      · simp [retained, released, update_of_ne heq, Ne.symm heq]
  | release fn object =>
    cases object with
    | none => simpa [(hnone fn s).2, retained, released] using h
    | some o =>
      refine (hrelease h (hbacked o rfl)).imp_left fun hnow => hmono hnow fun o' => ?_
      by_cases heq : o' = o
      · subst heq
        simp [retained, released]
      · simp [retained, released, update_of_ne heq, Ne.symm heq]

/-- What a retain and a release keep, the calls of an operation keep: `P` says what holds with the
given references of each object, and `count` grows by the retains at most. -/
theorem deliveries_induction {refs : Obj → Int} {s : S} (h : P refs s) {new : List (Event Obj Fn)}
    (hbacked : ∀ later event earlier o, new = later ++ event :: earlier →
      event.object = some o → 1 ≤ refs o + net o earlier)
    (hroom : ∀ o, count s o + new.countP isRetain < room) :
    P (fun o => refs o + net o new) (new.foldr deliver s) ∧
      ∀ o, count (new.foldr deliver s) o ≤ count s o + new.countP isRetain := by
  induction new with
  | nil => exact ⟨by simpa using h, fun o => Nat.le_refl _⟩
  | cons event rest ih =>
    have hcount : (event :: rest).countP isRetain =
        rest.countP isRetain + [event].countP isRetain := by
      rw [countP_cons, countP_singleton]
    obtain ⟨hrest, hbound⟩ := ih
      (fun later e earlier o hsplit => hbacked (event :: later) e earlier o (by rw [hsplit]; rfl))
      fun o => by
        have hall := hroom o
        omega
    have hspace : ∀ o, count (rest.foldr deliver s) o + [event].countP isRetain < room := by
      intro o
      have hall := hroom o
      have hbefore := hbound o
      omega
    obtain ⟨hnow, hthis⟩ := @delivery Obj Fn _ S deliver P count room hhand hnone hmono hretain
      hrelease _ _ hrest event
      (fun o ho => hbacked [] event rest o rfl ho) hspace
    rw [foldr_cons]
    refine ⟨hmono hnow fun o => ?_, fun o => ?_⟩
    · rw [net_cons]
      omega
    · have hone := hthis o
      have hbefore := hbound o
      omega

end

end

end InstantOS.Handles
