import Mathlib.Data.List.Basic

/-!
# Radix tables in memory

A radix table is a tree stored in a flat memory: a table is an array of
entries, an entry may name a table one level below, and an index list is
walked from a root table downwards.  Several roots may live in one memory and
may share tables.

The module is about one question.  When a program overwrites an entry, which
walks can notice?  A table that is reached by one root along one index list
only is *exclusive*, and writing to a slot of an exclusive table changes no
walk except those of that root through that slot.  `Separated` is the
invariant that makes this usable: every entry on the way to the table carries
a marker, and all tables reached through marked entries only are exclusive.

Nothing here depends on what entries are.  The reading of an entry is the
parameter `child`, which gives the table below an entry found at a level.
-/

namespace InstantOS.Radix

variable {T I E : Type}

/-! ## Walking -/

section

variable (child : Nat → E → Option T) (mem : T → I → E)

/-- The table reached from the table `t` of level `n` along `p`. -/
def tableAt : Nat → T → List I → Option T
  | _, t, [] => some t
  | n, t, i :: p => (child n (mem t i)).bind fun u => tableAt (n - 1) u p

/-- The entries read on the way from the table `t` of level `n` along `p`.
The walk ends early at an entry that names no table. -/
def walk : Nat → T → List I → List E
  | _, _, [] => []
  | n, t, i :: p => mem t i :: (child n (mem t i)).elim [] fun u => walk (n - 1) u p

/-- The part of a walk that lies below an entry of level `n`. -/
def below (n : Nat) (e : E) (s : List I) : List E :=
  (child n e).elim [] fun u => walk child mem (n - 1) u s

/-- The table reached below an entry of level `n`. -/
def tableBelow (n : Nat) (e : E) (s : List I) : Option T :=
  (child n e).bind fun u => tableAt child mem (n - 1) u s

end

section

variable {child : Nat → E → Option T} {mem : T → I → E}

@[simp] theorem tableAt_nil (n : Nat) (t : T) : tableAt child mem n t ([] : List I) = some t := rfl

theorem tableAt_cons (n : Nat) (t : T) (i : I) (p : List I) : tableAt child mem n t (i :: p) =
      (child n (mem t i)).bind fun u => tableAt child mem (n - 1) u p := rfl

theorem walk_cons (n : Nat) (t : T) (i : I) (p : List I) : walk child mem n t (i :: p) =
      mem t i :: (child n (mem t i)).elim [] fun u => walk child mem (n - 1) u p := rfl

theorem tableAt_append (p q : List I) : ∀ (n : Nat) (t : T), tableAt child mem n t (p ++ q) =
      (tableAt child mem n t p).bind fun u => tableAt child mem (n - p.length) u q := by
  induction p with
  | nil => intro n t; rfl
  | cons i p ih =>
    intro n t
    rw [List.cons_append, tableAt_cons, tableAt_cons]
    cases child n (mem t i) with
    | none => rfl
    | some u =>
      simp only [Option.bind_some, ih, List.length_cons]
      rw [show n - 1 - p.length = n - (p.length + 1) by omega]

variable {p : List I}

/-- A walk past a table that is reached goes on from that table. -/
theorem walk_append (q : List I) : ∀ {n : Nat} {t u : T}, tableAt child mem n t p = some u →
      walk child mem n t (p ++ q) = walk child mem n t p ++ walk child mem (n - p.length) u q := by
  induction p with
  | nil =>
    intro n t u h
    have htu : t = u := Option.some.inj h
    subst htu
    rfl
  | cons i p ih =>
    intro n t u h
    obtain ⟨v, hc, h⟩ := Option.bind_eq_some_iff.mp h
    rw [List.cons_append, walk_cons, walk_cons, hc]
    simp only [Option.elim_some, List.cons_append, List.length_cons, ih h]
    rw [show n - 1 - p.length = n - (p.length + 1) by omega]

/-- A walk through a slot, seen from the slot. -/
theorem walk_slot {n : Nat} {t u : T} (h : tableAt child mem n t p = some u)
    (i : I) (s : List I) : walk child mem n t (p ++ i :: s) =
      walk child mem n t p ++ mem u i :: below child mem (n - p.length) (mem u i) s :=
  walk_append (i :: s) h

theorem tableAt_slot {n : Nat} {t u : T} (h : tableAt child mem n t p = some u)
    (i : I) (s : List I) :
    tableAt child mem n t (p ++ i :: s) = tableBelow child mem (n - p.length) (mem u i) s := by
  rw [tableAt_append, h]
  rfl

theorem walk_length : ∀ {n : Nat} {t u : T}, tableAt child mem n t p = some u →
      (walk child mem n t p).length = p.length := by
  induction p with
  | nil => intro n t u _; rfl
  | cons i p ih =>
    intro n t u h
    obtain ⟨v, hc, h⟩ := Option.bind_eq_some_iff.mp h
    rw [walk_cons, hc]
    simp only [Option.elim_some, List.length_cons, ih h]

/-- Two memories that agree on every slot a walk reads give the same walk and
the same table. -/
theorem walk_congr {mem' : T → I → E} {q : List I} :
    ∀ {n : Nat} {r : T}, (∀ p i s t, q = p ++ i :: s → tableAt child mem n r p = some t →
        mem' t i = mem t i) → walk child mem' n r q = walk child mem n r q ∧
        tableAt child mem' n r q = tableAt child mem n r q := by
  induction q with
  | nil => intro n r _; exact ⟨rfl, rfl⟩
  | cons j q ih =>
    intro n r h
    have hj : mem' r j = mem r j := h [] j q r rfl rfl
    rw [walk_cons, walk_cons, tableAt_cons, tableAt_cons, hj]
    cases hc : child n (mem r j) with
    | none => exact ⟨rfl, rfl⟩
    | some u =>
      have hsub := ih (by
        intro p i s t hq ht
        refine h (j :: p) i s t (by rw [hq]; rfl) ?_
        rw [tableAt_cons, hc]
        exact ht)
      simp only [Option.elim_some]
      exact ⟨by rw [hsub.1], hsub.2⟩

end

/-! ## Exclusive tables -/

section

variable (child : Nat → E → Option T) (mem : T → I → E) (top : Nat) (roots : T → Prop)

/-- The table is reached from one of the roots. -/
def Reachable (t : T) : Prop :=
  ∃ r p, roots r ∧ tableAt child mem top r p = some t

/-- The table `t` is reached from `r` along `p`, and in no other way from any
root. -/
structure Exclusive (r : T) (p : List I) (t : T) : Prop where
  root : roots r
  reached : tableAt child mem top r p = some t
  unique : ∀ r' p', roots r' → tableAt child mem top r' p' = some t → r' = r ∧ p' = p

/-- The two memories agree on every reachable slot, the slot `i` of `t`
apart. -/
def AgreeExcept (mem' : T → I → E) (t : T) (i : I) : Prop :=
  ∀ t' i', Reachable child mem top roots t' → ¬ (t' = t ∧ i' = i) → mem' t' i' = mem t' i'

end

section

variable {child : Nat → E → Option T} {mem mem' : T → I → E} {top : Nat}
  {roots : T → Prop} {r t : T} {p : List I} {i : I}

/-- Two memories that agree on all reachable slots have the same walks. -/
theorem walk_of_agree (h : ∀ t' i', Reachable child mem top roots t' → mem' t' i' = mem t' i')
    {r' : T} (hr' : roots r') (q : List I) : walk child mem' top r' q = walk child mem top r' q ∧
      tableAt child mem' top r' q = tableAt child mem top r' q := by
  apply walk_congr
  intro p i s t _ ht
  exact h t i ⟨r', p, hr', ht⟩

section

variable (hex : Exclusive child mem top roots r p t)
    (hmem : AgreeExcept child mem top roots mem' t i)

include hex hmem

/-- **Overwriting a slot of an exclusive table is invisible elsewhere**: every
walk that does not pass the slot is the same. -/
theorem walk_elsewhere {r' : T} (hr' : roots r') {q : List I} (hq : ¬ (r' = r ∧ p ++ [i] <+: q)) :
    walk child mem' top r' q = walk child mem top r' q ∧
      tableAt child mem' top r' q = tableAt child mem top r' q := by
  apply walk_congr
  intro p' i' s t' hsplit ht'
  refine hmem t' i' ⟨r', p', hr', ht'⟩ ?_
  rintro ⟨rfl, rfl⟩
  obtain ⟨rfl, rfl⟩ := hex.unique r' p' hr' ht'
  exact hq ⟨rfl, s, by rw [hsplit, List.append_assoc]; rfl⟩

/-- The table that holds the slot stays where it is. -/
theorem reached_after :
    walk child mem' top r p = walk child mem top r p ∧ tableAt child mem' top r p = some t := by
  have h := walk_elsewhere (q := p) hex hmem hex.root (by
    rintro ⟨-, s, hs⟩
    have := congrArg List.length hs
    simp only [List.length_append, List.length_cons] at this
    omega)
  exact ⟨h.1, h.2.trans hex.reached⟩

/-- A walk through the slot reads the new entry there and goes on below it. -/
theorem walk_through (hbelow : ∀ s v, tableBelow child mem (top - p.length) (mem' t i) s = some v →
      ∀ j, mem' v j = mem v j) (s : List I) : walk child mem' top r (p ++ i :: s) =
        walk child mem top r p ++ mem' t i :: below child mem (top - p.length) (mem' t i) s ∧
      tableAt child mem' top r (p ++ i :: s) =
        tableBelow child mem (top - p.length) (mem' t i) s := by
  have h := reached_after hex hmem
  rw [walk_append (i :: s) h.2, h.1, tableAt_append, h.2, walk_cons, Option.bind_some, tableAt_cons]
  unfold below tableBelow at *
  cases hc : child (top - p.length) (mem' t i) with
  | none => exact ⟨rfl, rfl⟩
  | some u =>
    have hsub : walk child mem' (top - p.length - 1) u s =
          walk child mem (top - p.length - 1) u s ∧
        tableAt child mem' (top - p.length - 1) u s =
          tableAt child mem (top - p.length - 1) u s := by
      apply walk_congr
      intro p' i' s' t' _ ht'
      refine hbelow p' t' ?_ i'
      rw [hc]
      exact ht'
    simp only [Option.elim_some]
    exact ⟨by rw [hsub.1], hsub.2⟩

end

end

/-! ## Marked paths

A program that shares tables between roots has to know which tables it may
write to.  It marks the entries it owns; a table is its own when all entries
on the way to it are marked. -/

section

variable (child : Nat → E → Option T) (mem : T → I → E) (top : Nat) (roots : T → Prop)
  (mark : E → Bool) (owners : T → Prop) (scope : List I → Prop)

/-- Every entry read on the way from `r` along `p` carries the marker. -/
def Marked (r : T) (p : List I) : Prop :=
  ∀ e ∈ walk child mem top r p, mark e = true

/-- Tables that an owner reaches along a marked path of its scope are reached
in no other way. -/
structure Separated : Prop where
  owner_root : ∀ r, owners r → roots r
  unique : ∀ r p t, owners r → scope p → tableAt child mem top r p = some t →
    Marked child mem top mark r p →
    ∀ r' p', roots r' → tableAt child mem top r' p' = some t → r' = r ∧ p' = p

end

section

variable {child : Nat → E → Option T} {mem mem' : T → I → E} {top : Nat}
  {roots owners : T → Prop} {mark : E → Bool} {scope : List I → Prop}
  {r t : T} {p : List I} {i : I}

section

variable (hsep : Separated child mem top roots mark owners scope)

include hsep

theorem Separated.exclusive (hr : owners r)
    (hscope : scope p) (ht : tableAt child mem top r p = some t)
    (hmark : Marked child mem top mark r p) : Exclusive child mem top roots r p t :=
  ⟨hsep.owner_root r hr, ht, fun r' p' => hsep.unique r p t hr hscope ht hmark r' p'⟩

/-- Memory that no root reaches may change freely. -/
theorem Separated.of_agree
    (h : ∀ t' i', Reachable child mem top roots t' → mem' t' i' = mem t' i') :
    Separated child mem' top roots mark owners scope := by
  refine ⟨hsep.owner_root, ?_⟩
  intro r p t hr hscope ht hm r' p' hr' ht'
  have hw := walk_of_agree h (hsep.owner_root r hr) p
  have hw' := walk_of_agree h hr' p'
  apply hsep.unique r p t hr hscope (hw.2.symm.trans ht) ?_ r' p' hr' (hw'.2.symm.trans ht')
  intro e he
  exact hm e (by rw [hw.1]; exact he)

/-- **Ownership survives an update of an owned slot.**  Below the slot a path
may reach what it reached before, and the slot itself may name a table that no
root reached; a path that was unmarked may not become marked, that one
apart. -/
theorem Separated.update (hex : Exclusive child mem top roots r p t)
    (hmem : AgreeExcept child mem top roots mem' t i)
    (hreach : ∀ s v, tableAt child mem' top r (p ++ i :: s) = some v →
      tableAt child mem top r (p ++ i :: s) = some v ∨ s = [] ∧ ¬ Reachable child mem top roots v)
    (hmark : ∀ s v, tableAt child mem top r (p ++ i :: s) = some v →
      tableAt child mem' top r (p ++ i :: s) = some v →
      Marked child mem' top mark r (p ++ i :: s) → Marked child mem top mark r (p ++ i :: s)) :
    Separated child mem' top roots mark owners scope := by
  -- where a table of the new memory comes from
  have horigin : ∀ r' q v, roots r' → tableAt child mem' top r' q = some v →
      tableAt child mem top r' q = some v ∨
        (r' = r ∧ q = p ++ [i]) ∧ ¬ Reachable child mem top roots v := by
    intro r' q v hr' hv
    by_cases hq : r' = r ∧ p ++ [i] <+: q
    · obtain ⟨rfl, s, rfl⟩ := hq
      rw [List.append_assoc] at hv ⊢
      rcases hreach s v hv with hold | ⟨rfl, hnew⟩
      · exact .inl hold
      · exact .inr ⟨⟨rfl, rfl⟩, hnew⟩
    · exact .inl ((walk_elsewhere hex hmem hr' hq).2.symm.trans hv)
  have howned : ∀ r' q v, roots r' → tableAt child mem top r' q = some v →
      tableAt child mem' top r' q = some v → Marked child mem' top mark r' q →
      Marked child mem top mark r' q := by
    intro r' q v hr' hold hnew hm
    by_cases hq : r' = r ∧ p ++ [i] <+: q
    · obtain ⟨rfl, s, rfl⟩ := hq
      rw [List.append_assoc] at hold hnew hm ⊢
      exact hmark s v hold hnew hm
    · intro e he
      exact hm e (by rw [(walk_elsewhere hex hmem hr' hq).1]; exact he)
  refine ⟨hsep.owner_root, ?_⟩
  intro r1 q1 v hr1 hscope h1 hm1 r2 q2 hr2 h2
  have hroot1 := hsep.owner_root r1 hr1
  rcases horigin r1 q1 v hroot1 h1 with hold1 | ⟨⟨rfl, rfl⟩, hnew1⟩
  · rcases horigin r2 q2 v hr2 h2 with hold2 | ⟨-, hnew2⟩
    · exact hsep.unique r1 q1 v hr1 hscope hold1 (howned r1 q1 v hroot1 hold1 h1 hm1)
        r2 q2 hr2 hold2
    · exact absurd ⟨r1, q1, hroot1, hold1⟩ hnew2
  · rcases horigin r2 q2 v hr2 h2 with hold2 | ⟨hsame, -⟩
    · exact absurd ⟨r2, q2, hr2, hold2⟩ hnew1
    · exact hsame

end

end

end InstantOS.Radix
