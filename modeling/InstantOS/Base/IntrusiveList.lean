import Mathlib.Algebra.Ring.Nat
import Mathlib.Data.List.Nodup

/-!
# Intrusive singly linked lists

A list whose nodes carry their own successor: a `next` pointer for every node there is, and
a head.  Several lists share one `next`, so an operation on one of them says which pointers
it leaves alone.  `Linked next head l` relates the pointers to the list of nodes they form;
it is what makes the walks below end, and a walk that runs out of fuel is a loop that does
not.
-/

namespace InstantOS.IntrusiveList

open Function List

variable {α : Type}

/-- From `head` on the pointers lead through the nodes of the list and then end. -/
def Linked (next : α → Option α) : Option α → List α → Prop
  | head, [] => head = none
  | head, a :: l => head = some a ∧ Linked next (next a) l

@[simp] theorem linked_nil {next : α → Option α} {head : Option α} :
    Linked next head [] ↔ head = none := Iff.rfl

variable {a : α}

@[simp] theorem linked_cons {next : α → Option α} {head : Option α} {l : List α} :
    Linked next head (a :: l) ↔ head = some a ∧ Linked next (next a) l := Iff.rfl

namespace Linked

variable {next next' : α → Option α} {head : Option α} {l : List α}

theorem unique (h : Linked next head l) {l' : List α} (h' : Linked next head l') : l = l' := by
  induction l generalizing head l' with
  | nil =>
    cases l' with
    | nil => rfl
    | cons b l' =>
      rw [h] at h'
      cases h'.1
  | cons a l ih =>
    cases l' with
    | nil =>
      rw [h'] at h
      cases h.1
    | cons b l' =>
      have hab : a = b := Option.some.inj (h.1.symm.trans h'.1)
      subst hab
      rw [ih h.2 h'.2]

variable {pre post : List α}

/-- What follows a node is again a list. -/
theorem drop (h : Linked next head (pre ++ a :: post)) : Linked next (next a) post := by
  induction pre generalizing head with
  | nil => exact h.2
  | cons b pre ih => exact ih h.2

theorem next_mid {a b : α} (h : Linked next head (pre ++ a :: b :: post)) :
    next a = some b := h.drop.1

/-- The lists that start at a node twice would be a list and its proper part. -/
theorem nodup (h : Linked next head l) : l.Nodup := by
  induction l generalizing head with
  | nil => exact nodup_nil
  | cons a l ih =>
    refine nodup_cons.mpr ⟨fun hmem => ?_, ih h.2⟩
    obtain ⟨pre, post, hsplit⟩ := append_of_mem hmem
    have hwhole : Linked next (next a) (pre ++ a :: post) := hsplit ▸ h.2
    have hsame := congrArg length (hwhole.unique hwhole.drop)
    simp at hsame
    omega

/-- The first node is not met again. -/
theorem head_ne {a c : α} (h : Linked next head (c :: pre ++ a :: post)) : c ≠ a := by
  rintro rfl
  exact (nodup_cons.mp h.nodup).1 (mem_append_right pre mem_cons_self)

variable {p : α}

theorem notMem_mid (h : Linked next head (pre ++ p :: post)) : p ∉ pre ++ post :=
  (nodup_cons.mp (nodup_middle.mp h.nodup)).1

/-- Pointers outside the list do not matter. -/
theorem frame (h : Linked next head l) (hsame : ∀ a ∈ l, next' a = next a) :
    Linked next' head l := by
  induction l generalizing head with
  | nil => exact h
  | cons a l ih =>
    refine ⟨h.1, ?_⟩
    rw [hsame a mem_cons_self]
    exact ih h.2 fun b hb => hsame b (mem_cons_of_mem a hb)

variable [DecidableEq α]

theorem update_of_notMem (h : Linked next head l) (ha : a ∉ l) (b : Option α) :
    Linked (update next a b) head l :=
  h.frame fun _ hb => update_of_ne (ne_of_mem_of_not_mem hb ha) _ _

theorem push (h : Linked next head l) (ha : a ∉ l) :
    Linked (update next a head) (some a) (a :: l) := by
  refine ⟨rfl, ?_⟩
  rw [update_self]
  exact h.update_of_notMem ha head

/-- The pointer of a node is set to the head of another list. -/
theorem redirect {pre post l' : List α} {b : Option α}
    (h : Linked next head (pre ++ a :: post)) (hl : Linked (update next a b) b l') :
    Linked (update next a b) head (pre ++ a :: l') := by
  induction pre generalizing head with
  | nil =>
    refine ⟨h.1, ?_⟩
    rw [update_self]
    exact hl
  | cons c pre ih =>
    refine ⟨h.1, ?_⟩
    rw [update_of_ne h.head_ne]
    exact ih h.2

/-- The pointer of the last node is set to a node without successor. -/
theorem snoc {a b : α} (h : Linked next head (a :: l)) (hb : b ∉ a :: l) (hend : next b = none) :
    Linked (update next ((a :: l).getLast (cons_ne_nil a l)) (some b)) head (a :: l ++ [b]) := by
  have hsplit := dropLast_concat_getLast (cons_ne_nil a l)
  have hne : b ≠ (a :: l).getLast (cons_ne_nil a l) := by
    rintro rfl
    exact hb (getLast_mem _)
  have hlast : Linked (update next _ (some b)) (some b) [b] :=
    ⟨rfl, (update_of_ne hne ..).trans hend⟩
  rw [← hsplit] at h
  have hwhole := h.redirect hlast
  rwa [append_cons, hsplit] at hwhole

/-- The pointer before a node is set to what follows it. -/
theorem skip {a b : α} (h : Linked next head (pre ++ a :: b :: post)) :
    Linked (update next a (next b)) head (pre ++ a :: post) := by
  have ha : a ∉ post := fun hmem => h.notMem_mid (mem_append_right pre (mem_cons_of_mem b hmem))
  exact h.redirect (h.drop.2.update_of_notMem ha _)

end Linked

/-! ## The walks -/

section

variable [DecidableEq α] (next : α → Option α)

/-- `for (it = head; it; it = it->next) if (it == p) return;` -/
def contains (p : α) : Nat → Option α → Option Bool
  | _, none => some false
  | 0, some _ => none
  | fuel + 1, some a => if a = p then some true else contains p fuel (next a)

/-- `while (current->next) current = current->next;` -/
def last : Nat → α → Option α
  | 0, _ => none
  | fuel + 1, a =>
    match next a with
    | none => some a
    | some b => last fuel b

/-- `while (current->next) { if (current->next == p) break; current = current->next; }`: the
node before `p`, if there is one. -/
def before (p : α) : Nat → α → Option (Option α)
  | 0, _ => none
  | fuel + 1, a =>
    match next a with
    | none => some none
    | some b => if b = p then some (some a) else before p fuel b

/-- The first node that qualifies, with the node before it. -/
def firstWith (ok : α → Bool) : Nat → Option α → Option α → Option (Option (Option α × α))
  | _, _, none => some none
  | 0, _, some _ => none
  | fuel + 1, previous, some a =>
    if ok a then some (some (previous, a)) else firstWith ok fuel (some a) (next a)

end

variable [DecidableEq α] {next : α → Option α} {head : Option α} {l : List α} {fuel : Nat}

theorem contains_eq (h : Linked next head l) (hfuel : l.length ≤ fuel) (p : α) :
    contains next p fuel head = some (decide (p ∈ l)) := by
  induction l generalizing head fuel with
  | nil =>
    subst h
    cases fuel <;> rfl
  | cons a l ih =>
    obtain ⟨rfl, h⟩ := h
    cases fuel with
    | zero => simp at hfuel
    | succ fuel =>
      rw [contains]
      by_cases hap : a = p
      · simp [hap]
      · rw [if_neg hap, ih h (by simpa using hfuel)]
        simp [Ne.symm hap]

omit [DecidableEq α] in
theorem last_eq {a : α} (h : Linked next (next a) l) (hfuel : l.length < fuel) :
    last next fuel a = some ((a :: l).getLast (List.cons_ne_nil a l)) := by
  induction l generalizing a fuel with
  | nil =>
    cases fuel with
    | zero => simp at hfuel
    | succ fuel =>
      rw [linked_nil] at h
      simp [last, h]
  | cons b l ih =>
    cases fuel with
    | zero => simp at hfuel
    | succ fuel =>
      simp only [last, h.1]
      rw [ih h.2 (by simpa using hfuel), getLast_cons_cons]

/-- Either the node is not behind `a`, or the walk finds the node before it. -/
theorem before_eq (h : Linked next (next a) l) (hfuel : l.length < fuel) (p : α) :
    (p ∉ l ∧ before next p fuel a = some none) ∨
      ∃ pre b post, a :: l = pre ++ b :: p :: post ∧ before next p fuel a = some (some b) := by
  induction l generalizing a fuel with
  | nil =>
    cases fuel with
    | zero => simp at hfuel
    | succ fuel =>
      rw [linked_nil] at h
      exact .inl ⟨not_mem_nil, by simp [before, h]⟩
  | cons b l ih =>
    cases fuel with
    | zero => simp at hfuel
    | succ fuel =>
      by_cases hbp : b = p
      · subst hbp
        exact .inr ⟨[], a, l, rfl, by simp [before, h.1]⟩
      have hturn : before next p (fuel + 1) a = before next p fuel b := by
        simp [before, h.1, hbp]
      rw [hturn]
      rcases ih h.2 (by simpa using hfuel) with ⟨hp, hwalk⟩ | ⟨pre, c, post, hsplit, hwalk⟩
      · exact .inl ⟨by simp [Ne.symm hbp, hp], hwalk⟩
      · exact .inr ⟨a :: pre, c, post, by rw [hsplit]; rfl, hwalk⟩

omit [DecidableEq α] in
/-- The walk stops at the first node that qualifies, or there is none. -/
theorem firstWith_eq (h : Linked next head l) (hfuel : l.length ≤ fuel) (ok : α → Bool)
    (previous : Option α) :
    ((∀ a ∈ l, ok a = false) ∧ firstWith next ok fuel previous head = some none) ∨
      ∃ pre a post, l = pre ++ a :: post ∧ ok a ∧ (∀ b ∈ pre, ok b = false) ∧
        firstWith next ok fuel previous head = some (some (pre.getLast?.or previous, a)) := by
  induction l generalizing head fuel previous with
  | nil =>
    subst h
    exact .inl ⟨by simp, by cases fuel <;> rfl⟩
  | cons a l ih =>
    obtain ⟨rfl, h⟩ := h
    cases fuel with
    | zero => simp at hfuel
    | succ fuel =>
      cases hok : ok a with
      | true => exact .inr ⟨[], a, l, rfl, hok, by simp, by simp [firstWith, hok]⟩
      | false =>
        have hturn : firstWith next ok (fuel + 1) previous (some a) =
            firstWith next ok fuel (some a) (next a) := by simp [firstWith, hok]
        rw [hturn]
        rcases ih h (by simpa using hfuel) (some a) with
          ⟨hnone, hwalk⟩ | ⟨pre, b, post, hsplit, hb, hpre, hwalk⟩
        · exact .inl ⟨by simpa [hok] using hnone, hwalk⟩
        · refine .inr ⟨a :: pre, b, post, by rw [hsplit]; rfl, hb, by simpa [hok] using hpre, ?_⟩
          rw [hwalk]
          cases pre with
          | nil => rfl
          | cons c pre =>
            rfl

/-! ## The operations -/

section

variable (next) (head) (fuel)

/-- `p` goes to the end. -/
def append (p : α) : Option ((α → Option α) × Option α) :=
  let next := update next p none
  match head with
  | none => some (next, some p)
  | some a => (last next fuel a).map fun tail => (update next tail (some p), some a)

/-- `p` is taken out, if it is in the list; its pointer is cleared in any case but that of
an empty list. -/
def unlink (p : α) : Option ((α → Option α) × Option α) :=
  match head with
  | none => some (next, none)
  | some a =>
    if a = p then some (update next p none, next p)
    else (before next p fuel a).map fun
      | some b =>
        let next := update next b (next p)
        (update next p none, some a)
      | none => (update next p none, some a)

/-- `p`, behind `previous`, goes to the end, if it is not there already. -/
def moveToEnd (previous : Option α) (p : α) : Option ((α → Option α) × Option α) :=
  match next p with
  | none => some (next, head)
  | some b =>
    let (next, head) : (α → Option α) × Option α := match previous with
      | some a => (update next a (some b), head)
      | none => (next, some b)
    match head with
    | none => none
    | some a => (last next fuel a).map fun tail =>
      (update (update next tail (some p)) p none, some a)

end

/-- What an operation on one list did: the list it left, and the pointers it left alone. -/
structure Relinked (next : α → Option α) (touched : List α) (l : List α)
    (links : (α → Option α) × Option α) : Prop where
  linked : Linked links.1 links.2 l
  frame : ∀ a, a ∉ touched → links.1 a = next a

theorem append_eq (h : Linked next head l) (hfuel : l.length ≤ fuel) (hp : p ∉ l) :
    ∃ links, append next head fuel p = some links ∧ Relinked next (p :: l) (l ++ [p]) links := by
  have hclear := h.update_of_notMem hp none
  unfold append
  cases l with
  | nil =>
    subst h
    refine ⟨_, rfl, by simp, fun a ha => ?_⟩
    exact update_of_ne (ne_of_not_mem_cons ha) _ _
  | cons b l =>
    obtain ⟨rfl, hrest⟩ := hclear
    dsimp only
    rw [last_eq hrest hfuel]
    refine ⟨_, rfl, ?_, fun a ha => ?_⟩
    · exact Linked.snoc ⟨rfl, hrest⟩ hp (update_self ..)
    · have hlast := getLast_mem (cons_ne_nil b l)
      dsimp only
      rw [update_of_ne, update_of_ne (ne_of_not_mem_cons ha)]
      rintro rfl
      exact ha (mem_cons_of_mem p hlast)

theorem unlink_eq (h : Linked next head l) (hfuel : l.length ≤ fuel) (p : α) :
    ∃ links, unlink next head fuel p = some links ∧ Relinked next (p :: l) (l.erase p) links := by
  unfold unlink
  cases l with
  | nil =>
    subst h
    exact ⟨_, rfl, rfl, fun _ _ => rfl⟩
  | cons a l =>
    obtain ⟨rfl, h⟩ := h
    have hlist : Linked next (some a) (a :: l) := ⟨rfl, h⟩
    have hp : p ∉ (a :: l).erase p := fun hmem =>
      ((List.Nodup.mem_erase_iff hlist.nodup).mp hmem).1 rfl
    dsimp only
    by_cases hap : a = p
    · subst hap
      rw [if_pos rfl]
      rw [erase_cons_head] at hp ⊢
      refine ⟨_, rfl, h.update_of_notMem hp none, fun b hb => ?_⟩
      exact update_of_ne (ne_of_not_mem_cons hb) _ _
    · rw [if_neg hap]
      rcases before_eq h hfuel p with ⟨hnot, hwalk⟩ | ⟨pre, b, post, hsplit, hwalk⟩
      · have hsame : (a :: l).erase p = a :: l := erase_of_not_mem (by simp [Ne.symm hap, hnot])
        rw [hwalk]
        rw [hsame] at hp ⊢
        refine ⟨_, rfl, hlist.update_of_notMem hp none, fun c hc => ?_⟩
        exact update_of_ne (ne_of_not_mem_cons hc) _ _
      · have hwhole : Linked next (some a) (pre ++ b :: p :: post) := hsplit ▸ hlist
        have herase : (a :: l).erase p = pre ++ b :: post := by
          have hnodup := hwhole.nodup
          rw [hsplit, append_cons, erase_append_right]
          · simp
          · rw [append_cons] at hnodup
            exact fun hmem => disjoint_of_nodup_append hnodup hmem mem_cons_self
        rw [hwalk]
        rw [herase] at hp ⊢
        refine ⟨_, rfl, hwhole.skip.update_of_notMem hp none, fun c hc => ?_⟩
        have hcb : c ≠ b := by
          rintro rfl
          refine hc (mem_cons_of_mem p ?_)
          rw [hsplit]
          simp
        dsimp only
        rw [update_of_ne (ne_of_not_mem_cons hc), update_of_ne hcb]

theorem moveToEnd_eq (h : Linked next head (pre ++ p :: post))
    (hfuel : (pre ++ p :: post).length ≤ fuel) :
    ∃ links, moveToEnd next head fuel pre.getLast? p = some links ∧
      Relinked next (pre ++ p :: post) (pre ++ post ++ [p]) links := by
  have hp := h.notMem_mid
  unfold moveToEnd
  cases post with
  | nil =>
    have hend : next p = none := h.drop
    simp only [hend, append_nil]
    exact ⟨_, rfl, h, fun _ _ => rfl⟩
  | cons b post =>
    -- without `p` the list is still there, and `p` then goes to its end
    obtain ⟨next1, head1, hlinks, hlinked, hframe⟩ : ∃ next1 head1, (match pre.getLast? with
          | some a => (update next a (some b), head)
          | none => (next, some b)) = (next1, head1) ∧
        Linked next1 head1 (pre ++ b :: post) ∧ ∀ a, a ∉ pre → next1 a = next a := by
      have hnext : next p = some b := h.next_mid
      cases hlast : pre.getLast? with
      | none =>
        rw [getLast?_eq_none_iff] at hlast
        subst hlast
        exact ⟨_, _, rfl, hnext ▸ h.2, fun _ _ => rfl⟩
      | some a =>
        obtain ⟨front, rfl⟩ := getLast?_eq_some_iff.mp hlast
        refine ⟨_, _, rfl, ?_, fun c hc => ?_⟩
        · rw [append_assoc] at h ⊢
          rw [← hnext]
          exact h.skip
        · exact update_of_ne (by rintro rfl; simp at hc) _ _
    have hnext : next p = some b := h.next_mid
    simp only [hnext]
    rw [hlinks]
    obtain ⟨first, rest, hsplit⟩ : ∃ first rest, pre ++ b :: post = first :: rest := by
      cases pre <;> exact ⟨_, _, rfl⟩
    rw [hsplit] at hlinked hp ⊢
    obtain ⟨rfl, hrest⟩ := hlinked
    have hcount : rest.length < fuel := by
      have hlength := congrArg length hsplit
      simp at hlength hfuel
      omega
    dsimp only
    rw [last_eq hrest hcount]
    refine ⟨_, rfl, ?_, fun a ha => ?_⟩
    · have hlist : Linked next1 (some first) (first :: rest) := ⟨rfl, hrest⟩
      have hend := (hlist.update_of_notMem hp none).snoc hp (update_self ..)
      dsimp only
      rwa [update_comm]
      rintro heq
      exact hp (heq ▸ getLast_mem (cons_ne_nil first rest))
    · have hpa : a ≠ p := by
        rintro rfl
        simp at ha
      have hlast : a ≠ (first :: rest).getLast (cons_ne_nil first rest) := by
        rintro rfl
        have hmem := getLast_mem (cons_ne_nil first rest)
        generalize (first :: rest).getLast (cons_ne_nil first rest) = c at ha hmem
        rw [← hsplit] at hmem
        simp at ha hmem
        tauto
      dsimp only
      rw [update_of_ne hpa, update_of_ne hlast]
      exact hframe a fun hmem => ha (mem_append_left _ hmem)

/-! ## Lists with a common pointer -/

/-- Each head leads through a list of its own. -/
structure Lists {ι : Type} (next : α → Option α) (heads : ι → Option α) (q : ι → List α) :
    Prop where
  linked : ∀ i, Linked next (heads i) (q i)
  apart : ∀ i j a, a ∈ q i → a ∈ q j → i = j

namespace Lists

variable {ι : Type} [DecidableEq ι] {heads : ι → Option α} {q : ι → List α}

omit [DecidableEq α] [DecidableEq ι] in
/-- A node occurs once in all the lists together. -/
theorem nodup (h : Lists next heads q) (i : ι) : (q i).Nodup := (h.linked i).nodup

section

variable (h : Lists next heads q) {i : ι}

include h i

omit [DecidableEq α] in
/-- One list is relinked, and what it has gained was in no other. -/
theorem relink {p : α} {new : List α} {links : (α → Option α) × Option α}
    (hlinks : Relinked next (p :: q i) new links) (hp : ∀ j, j ≠ i → p ∉ q j)
    (hnew : ∀ a ∈ new, a ∈ p :: q i) : Lists links.1 (update heads i links.2) (update q i new) := by
  have htouched : ∀ a ∈ p :: q i, ∀ j, j ≠ i → a ∉ q j := fun a ha j hj hmem => by
    rcases mem_cons.mp ha with rfl | ha
    · exact hp j hj hmem
    · exact hj (h.apart j i a hmem ha)
  refine ⟨fun j => ?_, fun j k a => ?_⟩
  · by_cases hj : j = i
    · subst hj
      rw [update_self, update_self]
      exact hlinks.linked
    · rw [update_of_ne hj, update_of_ne hj]
      exact (h.linked j).frame fun a ha =>
        hlinks.frame a fun hmem => htouched a hmem j hj ha
  · by_cases hj : j = i
    · by_cases hk : k = i
      · exact fun _ _ => hj.trans hk.symm
      · rw [hj, update_self, update_of_ne hk]
        exact fun ha hak => absurd hak (htouched a (hnew a ha) k hk)
    · by_cases hk : k = i
      · rw [hk, update_self, update_of_ne hj]
        exact fun haj ha => absurd haj (htouched a (hnew a ha) j hj)
      · rw [update_of_ne hj, update_of_ne hk]
        exact h.apart j k a

theorem push (hp : ∀ j, p ∉ q j) : Lists (update next p (heads i)) (update heads i (some p))
      (update q i (p :: q i)) := by
  have hre : Relinked next (p :: q i) (p :: q i) (update next p (heads i), some p) :=
    ⟨(h.linked i).push (hp i), fun a ha =>
      update_of_ne (ne_of_not_mem_cons ha) _ _⟩
  exact h.relink hre (fun j _ => hp j) fun a ha => ha

theorem append (hp : ∀ j, p ∉ q j) (hfuel : (q i).length ≤ fuel) :
    ∃ links, append next (heads i) fuel p = some links ∧
      Lists links.1 (update heads i links.2) (update q i (q i ++ [p])) := by
  obtain ⟨links, hlinks, hre⟩ := append_eq (h.linked i) hfuel (hp i)
  exact ⟨links, hlinks, h.relink hre (fun j _ => hp j) fun a ha => by simpa [or_comm] using ha⟩

theorem unlink (hp : ∀ j, j ≠ i → p ∉ q j) (hfuel : (q i).length ≤ fuel) :
    ∃ links, unlink next (heads i) fuel p = some links ∧
      Lists links.1 (update heads i links.2) (update q i ((q i).erase p)) := by
  obtain ⟨links, hlinks, hre⟩ := unlink_eq (h.linked i) hfuel p
  exact ⟨links, hlinks, h.relink hre hp fun a ha => mem_cons_of_mem p (mem_of_mem_erase ha)⟩

theorem moveToEnd (hq : q i = pre ++ p :: post) (hfuel : (q i).length ≤ fuel) :
    ∃ links, moveToEnd next (heads i) fuel pre.getLast? p = some links ∧
      Lists links.1 (update heads i links.2) (update q i (pre ++ post ++ [p])) := by
  obtain ⟨links, hlinks, hre⟩ := moveToEnd_eq (hq ▸ h.linked i) (hq ▸ hfuel)
  have hp : p ∈ q i := by simp [hq]
  refine ⟨links, hlinks, h.relink ⟨hre.linked, fun a ha => hre.frame a ?_⟩
    (fun j hj hmem => hj (h.apart j i p hmem hp)) fun a ha => ?_⟩
  · exact hq ▸ fun hmem => ha (mem_cons_of_mem p hmem)
  · simp [hq] at ha ⊢
    tauto

end

end Lists

end InstantOS.IntrusiveList
