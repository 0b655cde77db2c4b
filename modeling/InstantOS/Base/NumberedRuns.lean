import InstantOS.Base.Serial

/-!
# Queues of numbered pieces

A send queue cuts a numbered stream into pieces: each piece has the number of its first element
and a span, and the next one begins where it ends.  `Chain` says that a list of pieces covers the
positions from `p` to `q` of the stream that way; `Split` says in addition that a position `m` in
between is the end of a piece.  The lemmas say what cutting off the pieces up to a position,
appending a piece and moving the mark do.
-/

namespace InstantOS.Base

open List

section

variable {S : Type} (number : S → Seq) (span : S → Nat) (origin : Nat)

/-- The pieces cover the positions from `p` to `q`, none is empty and none is longer than
`longest`. -/
def Chain (longest : Nat) : Nat → List S → Nat → Prop
  | p, [], q => p = q
  | p, x :: rest, q =>
    number x = seqOf (origin + p) ∧ 0 < span x ∧ span x ≤ longest ∧
      Chain longest (p + span x) rest q

/-- The pieces cover the positions from `p` to `q`, and one of them ends at `m`, or `m` is the
beginning. -/
def Split (longest p m q : Nat) (pieces : List S) : Prop :=
  ∃ before after, pieces = before ++ after ∧ Chain number span origin longest p before m ∧
    Chain number span origin longest m after q

variable {number span origin} {longest p q m c : Nat} {x : S} {pieces before after : List S}

theorem Chain.le (h : Chain number span origin longest p pieces q) : p ≤ q := by
  induction pieces generalizing p with
  | nil => exact Nat.le_of_eq h
  | cons x rest ih =>
    have := ih h.2.2.2
    omega

theorem chain_append : Chain number span origin longest p (before ++ after) q ↔
      ∃ c, Chain number span origin longest p before c ∧
        Chain number span origin longest c after q := by
  induction before generalizing p with
  | nil => simp [Chain]
  | cons x rest ih =>
    simp only [cons_append, Chain, ih]
    constructor
    · rintro ⟨h1, h2, h3, c, hrest, hafter⟩
      exact ⟨c, ⟨h1, h2, h3, hrest⟩, hafter⟩
    · rintro ⟨c, ⟨h1, h2, h3, hrest⟩, hafter⟩
      exact ⟨h1, h2, h3, c, hrest, hafter⟩

theorem Chain.append (h : Chain number span origin longest p before c)
    (h' : Chain number span origin longest c after q) :
    Chain number span origin longest p (before ++ after) q :=
  chain_append.2 ⟨c, h, h'⟩

/-- The end of a piece is the position behind it. -/
theorem Chain.head_end (h : Chain number span origin longest p (x :: pieces) q) :
    number x + BitVec.ofNat 32 (span x) = seqOf (origin + (p + span x)) := by
  rw [h.1, ← seqOf_add, Nat.add_assoc]

theorem Chain.head_le (h : Chain number span origin longest p (x :: pieces) q) : p + span x ≤ q :=
  Chain.le h.2.2.2

/-- Two lists of pieces with the same numbers and spans are chains together. -/
theorem Chain.congr {pieces' : List S}
    (hkey : pieces'.map (fun x => (number x, span x)) = pieces.map fun x => (number x, span x))
    (h : Chain number span origin longest p pieces q) :
    Chain number span origin longest p pieces' q := by
  induction pieces generalizing p pieces' with
  | nil =>
    rw [map_nil, map_eq_nil_iff] at hkey
    rw [hkey]
    exact h
  | cons x rest ih =>
    cases pieces' with
    | nil => simp at hkey
    | cons y rest' =>
      simp only [map_cons, cons.injEq, Prod.mk.injEq] at hkey
      obtain ⟨⟨hnumber, hspan⟩, hrest⟩ := hkey
      obtain ⟨h1, h2, h3, h4⟩ := h
      rw [← hnumber] at h1
      rw [← hspan] at h2 h3 h4
      exact ⟨h1, h2, h3, ih hrest h4⟩

/-- The pieces that end at or before a position, and the rest: the rest begins with the piece the
position lies in. -/
theorem Chain.cut (h : Chain number span origin longest p pieces q) {y : Nat}
    (hhigh : q ≤ p + 1073741824) (hy : y ≤ p + 1073741824) (hpy : p ≤ y) (past : S → Bool)
    (hpast : ∀ x e, number x + BitVec.ofNat 32 (span x) = seqOf (origin + e) →
      e < y + 2147483648 → y < e + 2147483648 → past x = decide (e ≤ y)) :
    ∃ c, Chain number span origin longest p (pieces.takeWhile past) c ∧
      Chain number span origin longest c (pieces.dropWhile past) q ∧ c ≤ y ∧
      ∀ x rest, pieces.dropWhile past = x :: rest → y < c + span x := by
  induction pieces generalizing p with
  | nil => exact ⟨p, rfl, h, hpy, by simp⟩
  | cons x rest ih =>
    have hend := h.head_le
    have hpastx : past x = decide (p + span x ≤ y) := hpast x _ h.head_end (by omega) (by omega)
    by_cases hle : p + span x ≤ y
    · obtain ⟨c, hbefore, hafter, hc, hfirst⟩ := ih h.2.2.2 (by omega) (by omega) hle
      rw [takeWhile_cons_of_pos (by rw [hpastx]; exact decide_eq_true hle),
        dropWhile_cons_of_pos (by rw [hpastx]; exact decide_eq_true hle)]
      exact ⟨c, ⟨h.1, h.2.1, h.2.2.1, hbefore⟩, hafter, hc, hfirst⟩
    · rw [takeWhile_cons_of_neg (by rw [hpastx]; simpa using hle),
        dropWhile_cons_of_neg (by rw [hpastx]; simpa using hle)]
      refine ⟨p, rfl, h, hpy, fun z tail hz => ?_⟩
      rw [(cons.inj hz).1] at hle
      omega

/-! ## Marks -/

section

variable (h : Split number span origin longest p m q pieces)

include h

theorem Split.chain : Chain number span origin longest p pieces q := by
  obtain ⟨before, after, rfl, hbefore, hafter⟩ := h
  exact hbefore.append hafter

theorem Split.high : m ≤ q := by
  obtain ⟨before, after, -, -, hafter⟩ := h
  exact hafter.le

end

/-- The mark does not lie inside a piece. -/
theorem Split.head (h : Split number span origin longest p m q (x :: pieces)) (hlt : p < m) :
    p + span x ≤ m := by
  obtain ⟨before, after, heq, hbefore, -⟩ := h
  cases before with
  | nil =>
    have : p = m := hbefore
    omega
  | cons y rest =>
    rw [(cons.inj heq).1]
    exact hbefore.head_le

theorem Split.drop (h : Split number span origin longest p m q (before ++ after))
    (hbefore : Chain number span origin longest p before c) (hc : c ≤ m) :
    Split number span origin longest c m q after := by
  induction before generalizing p with
  | nil =>
    have : p = c := hbefore
    exact this ▸ h
  | cons x rest ih =>
    obtain ⟨first, second, heq, hfirst, hsecond⟩ := h
    cases first with
    | nil =>
      have hpm : p = m := hfirst
      have := hbefore.head_le
      have := hbefore.2.1
      omega
    | cons y tail =>
      obtain ⟨rfl, hrest⟩ := cons.inj heq
      exact ih ⟨tail, second, hrest, hfirst.2.2.2, hsecond⟩ hbefore.2.2.2

theorem Split.snoc (h : Split number span origin longest p m q pieces)
    (hx : Chain number span origin longest q [x] c) :
    Split number span origin longest p m c (pieces ++ [x]) := by
  obtain ⟨before, after, rfl, hbefore, hafter⟩ := h
  exact ⟨before, after ++ [x], append_assoc .., hbefore, hafter.append hx⟩

/-- The mark moves to the end of a piece. -/
theorem Chain.split (hbefore : Chain number span origin longest p before c)
    (hafter : Chain number span origin longest c (x :: after) q) :
    Split number span origin longest p (c + span x) q (before ++ x :: after) := by
  refine ⟨before ++ [x], after, by simp, hbefore.append ?_, hafter.2.2.2⟩
  exact ⟨hafter.1, hafter.2.1, hafter.2.2.1, rfl⟩

theorem Split.congr {pieces' : List S}
    (hkey : pieces'.map (fun x => (number x, span x)) = pieces.map fun x => (number x, span x))
    (h : Split number span origin longest p m q pieces) :
    Split number span origin longest p m q pieces' := by
  obtain ⟨before, after, rfl, hbefore, hafter⟩ := h
  rw [map_append, map_eq_append_iff] at hkey
  obtain ⟨before', after', rfl, hkey1, hkey2⟩ := hkey
  exact ⟨before', after', rfl, hbefore.congr hkey1, hafter.congr hkey2⟩

end

end InstantOS.Base
