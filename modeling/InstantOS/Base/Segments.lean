import Mathlib.Data.List.Basic
import Mathlib.Data.List.Find

/-!
# Lists of segments

A partial map on addresses is often kept as a list of segments, each with a
first address, the address behind its last one and a payload, sorted and without
overlaps.  `covering` is the map such a list stands for.  Three edits are enough
to write any range update: cutting the segment a point lies inside of, dropping
or changing whole segments, and placing a new segment at its position.  The
lemmas say what each does to the map and that the order survives.

Nothing is assumed of a segment but its two ends `lo` and `hi`.
-/

namespace InstantOS.Base

open List

variable {S : Type} (lo hi : S → Nat)

/-- The first segment that covers `a`. -/
def covering (l : List S) (a : Nat) : Option S :=
  l.find? fun s => decide (lo s ≤ a ∧ a < hi s)

/-- No segment is empty, and each ends before the next one starts. -/
structure Ordered (l : List S) : Prop where
  nonempty : ∀ s ∈ l, lo s < hi s
  apart : l.Pairwise fun s t => hi s ≤ lo t

/-- Replaces the first segment that has `a` strictly inside by the two pieces
`cut` makes of it. -/
def cutFirst (cut : S → S × S) (a : Nat) : List S → List S
  | [] => []
  | s :: rest =>
    if lo s < a ∧ a < hi s then (cut s).1 :: (cut s).2 :: rest
    else s :: cutFirst cut a rest

/-- Puts `x` in front of the first segment that does not start before it. -/
def place (x : S) : List S → List S
  | [] => [x]
  | s :: rest => if lo s < lo x then s :: place x rest else x :: s :: rest

/-- `cut` makes two pieces that meet at `a`. -/
structure CutsAt (cut : S → S × S) (a : Nat) : Prop where
  head_lo : ∀ s, lo (cut s).1 = lo s
  head_hi : ∀ s, hi (cut s).1 = a
  tail_lo : ∀ s, lo (cut s).2 = a
  tail_hi : ∀ s, hi (cut s).2 = hi s

/-- No segment has `a` strictly inside. -/
def UncutAt (l : List S) (a : Nat) : Prop :=
  ∀ s ∈ l, ¬ (lo s < a ∧ a < hi s)

/-- How many segments have `a` strictly inside. -/
def crossings (l : List S) (a : Nat) : Nat :=
  l.countP fun s => decide (lo s < a ∧ a < hi s)

variable {lo hi} {s : S} {a : Nat} {l : List S} {cut : S → S × S}

theorem covering_cons_of_pos (h : lo s ≤ a ∧ a < hi s) : covering lo hi (s :: l) a = some s :=
  find?_cons_of_pos (by simpa using h)

theorem covering_cons_of_neg (h : ¬ (lo s ≤ a ∧ a < hi s)) :
    covering lo hi (s :: l) a = covering lo hi l a :=
  find?_cons_of_neg (by simpa using h)

theorem covering_some (h : covering lo hi l a = some s) : s ∈ l ∧ lo s ≤ a ∧ a < hi s :=
  ⟨mem_of_find?_eq_some h, by simpa using find?_some h⟩

theorem covering_none : covering lo hi l a = none ↔ ∀ s ∈ l, ¬ (lo s ≤ a ∧ a < hi s) := by
  simp [covering]

theorem ordered_nil : Ordered lo hi ([] : List S) := ⟨by simp, List.Pairwise.nil⟩

theorem Ordered.tail (h : Ordered lo hi (s :: l)) : Ordered lo hi l :=
  ⟨fun t ht => h.nonempty t (mem_cons_of_mem s ht), h.apart.of_cons⟩

theorem Ordered.head (h : Ordered lo hi (s :: l)) : lo s < hi s ∧ ∀ t ∈ l, hi s ≤ lo t :=
  ⟨h.nonempty s (mem_cons_self ..), fun _ ht => rel_of_pairwise_cons h.apart ht⟩

theorem Ordered.cons (hs : lo s < hi s) (hl : Ordered lo hi l)
    (hsl : ∀ t ∈ l, hi s ≤ lo t) : Ordered lo hi (s :: l) :=
  ⟨by simpa using ⟨hs, hl.nonempty⟩, hl.apart.cons hsl⟩

/-! ## Cutting -/

/-- What holds of every segment and passes to the pieces of a cut still holds of
every segment. -/
theorem forall_mem_cutFirst {P : S → Prop} (hl : ∀ s ∈ l, P s)
    (hcut : ∀ s ∈ l, lo s < a → a < hi s → P (cut s).1 ∧ P (cut s).2) :
    ∀ s ∈ cutFirst lo hi cut a l, P s := by
  induction l with
  | nil => simp [cutFirst]
  | cons t rest ih =>
    have hrest := ih (fun s hs => hl s (mem_cons_of_mem t hs))
      (fun s hs => hcut s (mem_cons_of_mem t hs))
    have ht := hl t (mem_cons_self ..)
    rw [cutFirst]
    split
    case isTrue hin =>
      have hpieces := hcut t (mem_cons_self ..) hin.1 hin.2
      intro s hs
      simp only [mem_cons] at hs
      rcases hs with rfl | rfl | hs
      · exact hpieces.1
      · exact hpieces.2
      · exact hl s (mem_cons_of_mem t hs)
    case isFalse => exact forall_mem_cons.mpr ⟨ht, hrest⟩

theorem UncutAt.cutFirst_eq (h : UncutAt lo hi l a) : cutFirst lo hi cut a l = l := by
  induction l with
  | nil => rfl
  | cons t rest ih =>
    obtain ⟨ht, hrest⟩ := forall_mem_cons.mp h
    rw [cutFirst, if_neg ht, ih hrest]

section

variable (hcut : CutsAt lo hi cut a)

include hcut

/-- A cut makes no crossings, and one less at its own point if it finds a segment. -/
theorem crossings_cutFirst (b : Nat) :
    crossings lo hi (cutFirst lo hi cut a l) b ≤ crossings lo hi l b ∧
      (UncutAt lo hi l a ∨ crossings lo hi (cutFirst lo hi cut a l) a < crossings lo hi l a) := by
  unfold crossings
  induction l with
  | nil => exact ⟨le_rfl, .inl nofun⟩
  | cons t rest ih =>
    rw [cutFirst]
    split
    case isTrue hin =>
      simp only [countP_cons, hcut.head_lo, hcut.head_hi, hcut.tail_lo, hcut.tail_hi,
        decide_eq_true_eq]
      grind
    case isFalse hout =>
      simp only [countP_cons, UncutAt, forall_mem_cons] at ih ⊢
      exact ⟨Nat.add_le_add_right ih.1 _,
        ih.2.imp (fun h => ⟨hout, h⟩) fun h => Nat.add_lt_add_right h _⟩

/-- A lower bound of all segments still is one after a cut. -/
theorem le_lo_cutFirst {b : Nat}
    (hl : ∀ s ∈ l, b ≤ lo s) : ∀ s ∈ cutFirst lo hi cut a l, b ≤ lo s := by
  refine forall_mem_cutFirst hl fun s hs hlo _ => ?_
  have hb := hl s hs
  rw [hcut.head_lo, hcut.tail_lo]
  omega

theorem Ordered.cutFirst (h : Ordered lo hi l) : Ordered lo hi (cutFirst lo hi cut a l) := by
  induction l with
  | nil => exact ordered_nil
  | cons t rest ih =>
    have hhead := h.head
    rw [Base.cutFirst]
    split
    case isTrue hin =>
      have htail : Ordered lo hi ((cut t).2 :: rest) := by
        refine h.tail.cons ?_ ?_
        · rw [hcut.tail_lo, hcut.tail_hi]
          exact hin.2
        · rw [hcut.tail_hi]
          exact hhead.2
      refine htail.cons ?_ ?_
      · rw [hcut.head_lo, hcut.head_hi]
        exact hin.1
      · rw [hcut.head_hi]
        intro s hs
        rcases mem_cons.mp hs with rfl | hs
        · exact Nat.le_of_eq (hcut.tail_lo t).symm
        · exact Nat.le_trans (Nat.le_of_lt hin.2) (hhead.2 s hs)
    case isFalse =>
      exact (ih h.tail).cons hhead.1 (le_lo_cutFirst hcut hhead.2)

/-- Of ordered segments at most one has `a` inside, so none is left that has. -/
theorem Ordered.uncutAt_cutFirst
    (h : Ordered lo hi l) : UncutAt lo hi (Base.cutFirst lo hi cut a l) a := by
  induction l with
  | nil => simp [UncutAt, Base.cutFirst]
  | cons t rest ih =>
    have hhead := h.head
    rw [Base.cutFirst]
    split
    case isTrue hin =>
      intro s hs
      simp only [mem_cons] at hs
      rcases hs with rfl | rfl | hs
      · rw [hcut.head_hi]
        omega
      · rw [hcut.tail_lo]
        omega
      · have hle := hhead.2 s hs
        omega
    case isFalse hout =>
      exact forall_mem_cons.mpr ⟨hout, ih h.tail⟩

theorem UncutAt.cutFirst {b : Nat}
    (h : UncutAt lo hi l b) : UncutAt lo hi (Base.cutFirst lo hi cut a l) b := by
  refine forall_mem_cutFirst h fun s hs hlo hhi => ?_
  have hb := h s hs
  rw [hcut.head_lo, hcut.head_hi, hcut.tail_lo, hcut.tail_hi]
  omega

/-- A cut does not change the map, where the pieces look like the segment they
come from. -/
theorem covering_cutFirst {β : Type} {x : Nat} {view : S → β}
    (hhead : ∀ s ∈ l, lo s ≤ x → x < a → a < hi s → view (cut s).1 = view s)
    (htail : ∀ s ∈ l, lo s < a → a ≤ x → x < hi s → view (cut s).2 = view s) :
    (covering lo hi (cutFirst lo hi cut a l) x).map view = (covering lo hi l x).map view := by
  induction l with
  | nil => rfl
  | cons t rest ih =>
    have hrest := ih (fun s hs => hhead s (mem_cons_of_mem t hs))
      (fun s hs => htail s (mem_cons_of_mem t hs))
    rw [cutFirst]
    split
    case isTrue hin =>
      by_cases hwhole : lo t ≤ x ∧ x < hi t
      · rw [covering_cons_of_pos hwhole, Option.map_some]
        by_cases hlow : x < a
        · rw [covering_cons_of_pos (by rw [hcut.head_lo, hcut.head_hi]; exact ⟨hwhole.1, hlow⟩),
            Option.map_some, hhead t (mem_cons_self ..) hwhole.1 hlow hin.2]
        have hhigh : a ≤ x := Nat.le_of_not_lt hlow
        rw [covering_cons_of_neg (by rw [hcut.head_hi]; exact fun h => hlow h.2),
          covering_cons_of_pos (by rw [hcut.tail_lo, hcut.tail_hi]; exact ⟨hhigh, hwhole.2⟩),
          Option.map_some, htail t (mem_cons_self ..) hin.1 hhigh hwhole.2]
      · rw [covering_cons_of_neg hwhole,
          covering_cons_of_neg (by rw [hcut.head_lo, hcut.head_hi]; omega),
          covering_cons_of_neg (by rw [hcut.tail_lo, hcut.tail_hi]; omega)]
    case isFalse =>
      by_cases hwhole : lo t ≤ x ∧ x < hi t
      · rw [covering_cons_of_pos hwhole, covering_cons_of_pos hwhole]
      · rw [covering_cons_of_neg hwhole, covering_cons_of_neg hwhole, hrest]

end

/-! ## Dropping and changing whole segments -/

theorem Ordered.filter (h : Ordered lo hi l) (p : S → Bool) : Ordered lo hi (l.filter p) :=
  ⟨fun s hs => h.nonempty s (mem_of_mem_filter hs), h.apart.filter p⟩

theorem Ordered.map (h : Ordered lo hi l) {f : S → S} (hlo : ∀ s, lo (f s) = lo s)
    (hhi : ∀ s, hi (f s) = hi s) : Ordered lo hi (l.map f) := by
  refine ⟨?_, ?_⟩
  · simpa [hlo, hhi] using h.nonempty
  · simpa [pairwise_map, hlo, hhi] using h.apart

/-- Dropping segments that do not cover `x` does not change the map at `x`. -/
theorem covering_filter_of_keep {p : S → Bool} {x : Nat} (hp : ∀ s ∈ l, lo s ≤ x → x < hi s → p s) :
    covering lo hi (l.filter p) x = covering lo hi l x := by
  rw [covering, find?_filter]
  exact find?_congr fun s hs => by simpa using hp s hs

/-- Dropping every segment that covers `x` takes `x` out of the map. -/
theorem covering_filter_of_drop {p : S → Bool} {x : Nat}
    (hp : ∀ s ∈ l, lo s ≤ x → x < hi s → p s = false) : covering lo hi (l.filter p) x = none := by
  rw [covering_none]
  intro s hs hcov
  have hkeep := of_mem_filter hs
  rw [hp s (mem_of_mem_filter hs) hcov.1 hcov.2] at hkeep
  cases hkeep

/-- Changing payloads changes the payload the map has. -/
theorem covering_map {f : S → S} (hlo : ∀ s, lo (f s) = lo s)
    (hhi : ∀ s, hi (f s) = hi s) (x : Nat) :
    covering lo hi (l.map f) x = (covering lo hi l x).map f := by
  simp only [covering, find?_map, Function.comp_def, hlo, hhi]

/-! ## Placing -/

/-- The new segment stands behind those that start before it. -/
theorem place_eq (x : S) : place lo x l =
    l.takeWhile (fun s => lo s < lo x) ++ x :: l.dropWhile fun s => lo s < lo x := by
  induction l with
  | nil => rfl
  | cons s rest ih => by_cases h : lo s < lo x <;> simp [place, h, ih]

theorem mem_place {x : S} : s ∈ place lo x l ↔ s = x ∨ s ∈ l := by
  rw [place_eq, mem_append, mem_cons, or_left_comm, ← mem_append, takeWhile_append_dropWhile]

theorem Ordered.place {x : S} (h : Ordered lo hi l) (hx : lo x < hi x)
    (hfree : ∀ s ∈ l, hi s ≤ lo x ∨ hi x ≤ lo s) : Ordered lo hi (place lo x l) := by
  induction l with
  | nil => exact ordered_nil.cons hx (by simp)
  | cons t rest ih =>
    have hhead := h.head
    have hrest := ih h.tail fun s hs => hfree s (mem_cons_of_mem t hs)
    have ht := hfree t (mem_cons_self ..)
    rw [Base.place]
    split
    case isTrue hbefore =>
      -- `t` starts before `x` and is apart from it, so it also ends before it
      refine hrest.cons hhead.1 fun s hs => ?_
      rcases mem_place.mp hs with rfl | hs
      · omega
      · exact hhead.2 s hs
    case isFalse hafter =>
      have hle : hi x ≤ lo t := by omega
      refine h.cons hx fun s hs => ?_
      rcases mem_cons.mp hs with rfl | hs
      · exact hle
      · exact Nat.le_trans (Nat.le_trans hle (Nat.le_of_lt hhead.1)) (hhead.2 s hs)

/-- Away from the new segment the map is the old one. -/
theorem covering_place_of_not {x : S} (hx : ¬ (lo x ≤ a ∧ a < hi x)) :
    covering lo hi (place lo x l) a = covering lo hi l a := by
  rw [place_eq, covering, find?_append, find?_cons_of_neg (by simpa using hx), ← find?_append,
    takeWhile_append_dropWhile, covering]

/-- On the new segment the map is that segment, if no other covers it. -/
theorem covering_place_self {x : S} (hx : lo x ≤ a ∧ a < hi x)
    (hfree : covering lo hi l a = none) : covering lo hi (place lo x l) a = some x := by
  have hbefore : covering lo hi (l.takeWhile fun s => lo s < lo x) a = none :=
    covering_none.mpr fun s hs => covering_none.mp hfree s (( takeWhile_prefix _).subset hs)
  rw [covering] at hbefore
  rw [place_eq, covering, find?_append, hbefore, find?_cons_of_pos (by simpa using hx)]
  rfl

end InstantOS.Base
