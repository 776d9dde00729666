/-
**What a selection means: a set of indices of a space.**

Of a selection only two things matter to its user: the size of the space, and which indices are
elements.  This module says what every operation does to these two, without a word about spans,
single indices or marks, and proves that the stored form follows.  The argument goes through the
pieces: what the pieces of an addition cover is what the addition brings in.

Main definitions:

* `IndexSpace.Meaning` — a set of indices, and the size of the space that it is taken from;
* `IndexSpace.Addition.brought` — **the indices that an addition brings in**;
* `IndexSpace.Meaning.ofSeed`, `IndexSpace.Meaning.edit` — beginnings and changes of meanings;
* `IndexSpace.Selection.meaning` — size and look-ups of a selection, as a meaning;
* `IndexSpace.Selection.Means` — a well-formed selection of this size with these elements.

Main results:

* `IndexSpace.covers_pieces_iff` — the pieces of an addition cover what it brings in;
* `IndexSpace.Selection.WellFormed.mem_add_iff` — so that it brings in these elements and no others;
* `IndexSpace.Selection.Means.edit` — **changes of selections follow changes of meanings**.
-/

import Mathlib.Data.Set.Basic
import IndexSpace.Proofs.Selection.Pieces
import IndexSpace.Proofs.Selection.Correspondence

set_option relaxedAutoImplicit false
set_option autoImplicit false

namespace IndexSpace

/-! ### Meanings -/

/-- **A set of indices**, taken from the space `[0, size)`. -/
@[ext]
structure Meaning where
  size : UInt32
  elements : Set UInt32

/-- **The indices that an addition brings into a space of `size` indices**: a single index and the
indices between two bounds if they lie within the space; of a list the longest initial part that
does so; the elements of another set if all of them do so. -/
def Addition.brought (size : UInt32) : Addition Meaning → Set UInt32
  | .point i => {j | i < size ∧ j = i}
  | .span lo hi => {j | (lo < hi ∧ hi ≤ size) ∧ lo ≤ j ∧ j < hi}
  | .points is => {j | j ∈ is.takeWhile fun i => decide (i < size)}
  | .all m => {j | (∀ i ∈ m.elements, i < size) ∧ j ∈ m.elements}

namespace Meaning

/-- No index, or all of them. -/
def ofSeed : Seed → Meaning
  | .empty size => ⟨size, ∅⟩
  | .complete size => ⟨size, {i | i < size}⟩

/-- What an addition brings in joins the elements. -/
def add (m : Meaning) (a : Addition Meaning) : Meaning :=
  { m with elements := m.elements ∪ a.brought m.size }

open scoped Classical in
/-- The size of the space changes only while there are no elements; the stored form does not
matter. -/
noncomputable def edit (m : Meaning) : Edit Meaning → Meaning
  | .add a => m.add a
  | .resize size => if m.elements = ∅ then { m with size } else m
  | .normalize => m

end Meaning

/-- What can be learned of a selection by asking for its size and looking up indices. -/
def Selection.meaning (s : Selection) : Meaning := ⟨s.size, {i | s.contains i = true}⟩

/-- A well-formed selection of this size, with these elements. -/
structure Selection.Means (s : Selection) (m : Meaning) : Prop where
  wellFormed : s.WellFormed
  size_eq : s.size = m.size
  mem_iff : ∀ i, i ∈ s ↔ i ∈ m.elements

/-! ### Pieces and what they bring in -/

theorem covers_pieces_point {size i j : UInt32} :
    Span.Covers ((Addition.point i).pieces size) j ↔ i < size ∧ j = i := by
  rw [Addition.pieces]
  split
  next hi =>
    simp [Span.mem_unit_iff (Span.lt_top_of_lt hi), hi]
  next hi => simp [hi]

theorem covers_pieces_span {size lo hi j : UInt32} :
    Span.Covers ((Addition.span lo hi).pieces size) j ↔
      (lo < hi ∧ hi ≤ size) ∧ lo ≤ j ∧ j < hi := by
  rw [Addition.pieces]
  split
  next h => simp [h, Span.mem_def]
  next h => simp [h]

theorem covers_pieces_points {size j : UInt32} {is : List UInt32} :
    Span.Covers ((Addition.points is).pieces size) j ↔
      j ∈ is.takeWhile fun i => decide (i < size) := by
  refine Span.covers_map_unit ?_
  intro i hi
  exact Span.lt_top_of_lt (lt_of_mem_takeWhile hi)

theorem covers_pieces_all {size j : UInt32} {t : Selection} (ht : t.WellFormed) :
    Span.Covers ((Addition.all t).pieces size) j ↔ (∀ i ∈ t, i < size) ∧ j ∈ t := by
  rw [Addition.pieces]
  split
  next h =>
    rw [ht.all_last?_iff] at h
    rw [ht.covers_runs]
    exact (and_iff_right h).symm
  next h =>
    rw [ht.all_last?_iff] at h
    simp [h]

/-- **The pieces of an addition cover what it brings in.** -/
theorem covers_pieces_iff {size j : UInt32} {a : Addition Selection} {b : Addition Meaning}
    (h : a.Rel Selection.Means b) : Span.Covers (a.pieces size) j ↔ j ∈ b.brought size := by
  cases h with
  | point i => exact covers_pieces_point
  | span lo hi => exact covers_pieces_span
  | points is => exact covers_pieces_points
  | all ht =>
      rw [covers_pieces_all ht.wellFormed]
      simp only [ht.mem_iff]
      rfl

namespace Selection

/-! ### Selections follow their meanings -/

theorem Means.meaning_eq {s : Selection} {m : Meaning} (h : s.Means m) : s.meaning = m := by
  refine Meaning.ext h.size_eq (Set.ext ?_)
  intro i
  rw [← h.mem_iff i, ← h.wellFormed.contains_iff]
  rfl

theorem WellFormed.means {s : Selection} (h : s.WellFormed) : s.Means s.meaning :=
  ⟨h, rfl, fun _ => h.contains_iff.symm⟩

theorem rel_map_meaning {a : Addition Selection} (ha : ∀ t ∈ a.refs, t.WellFormed) :
    a.Rel Means (a.map meaning) := by
  cases a with
  | point i => exact .point i
  | span lo hi => exact .span lo hi
  | points is => exact .points is
  | all t => exact .all (ha t (List.mem_singleton_self t)).means

theorem means_seed (x : Seed) : x.selection.Means (Meaning.ofSeed x) := by
  cases x with
  | empty size =>
      refine ⟨wellFormed_empty size, rfl, ?_⟩
      intro i
      simp [Seed.selection, Meaning.ofSeed]
  | complete size =>
      refine ⟨wellFormed_complete size, rfl, ?_⟩
      intro i
      simp [Seed.selection, Meaning.ofSeed]

theorem Means.add {s : Selection} {m : Meaning} (h : s.Means m) {a : Addition Selection}
    {b : Addition Meaning} (hab : a.Rel Means b) : (s.add a).1.Means (m.add b) := by
  have ha : ∀ t ∈ a.refs, t.WellFormed := hab.forall_mem_refs fun _ _ htm => htm.wellFormed
  refine ⟨h.wellFormed.add ha, ?_, fun i => ?_⟩
  · rw [add_size, h.size_eq]
    rfl
  · have hproper : ∀ t ∈ a.pieces s.size, t.Proper := fun t ht => (proper_of_mem_pieces ha t ht).1
    rw [add_selection, mem_storeEach hproper, covers_pieces_iff hab, h.mem_iff, h.size_eq, or_comm]
    rfl

/-- An addition brings in these elements and no others. -/
theorem WellFormed.mem_add_iff {s : Selection} (h : s.WellFormed) {a : Addition Selection}
    (ha : ∀ t ∈ a.refs, t.WellFormed) {i : UInt32} :
    i ∈ (s.add a).1 ↔ i ∈ s ∨ i ∈ (a.map meaning).brought s.size := by
  rw [(h.means.add (rel_map_meaning ha)).mem_iff, h.means.mem_iff]
  rfl

/-- **Changes of selections follow changes of meanings**, also where they are refused. -/
theorem Means.edit {s : Selection} {m : Meaning} (h : s.Means m) {c : Edit Selection}
    {d : Edit Meaning} (hcd : c.Rel Means d) : (s.edit c).selection.Means (m.edit d) := by
  cases hcd with
  | add hab => exact h.add hab
  | resize size =>
      have hempty : s.isEmpty = true ↔ m.elements = ∅ := by
        rw [h.wellFormed.isEmpty_iff_forall_not_mem, Set.eq_empty_iff_forall_notMem]
        simp only [h.mem_iff]
      have hwf := h.wellFormed.resize size
      -- both sides look at the same thing: whether there are elements
      simp only [Selection.edit, Meaning.edit]
      unfold Selection.resize at hwf ⊢
      by_cases hs : s.isEmpty = true
      · rw [if_pos hs] at hwf ⊢
        rw [if_pos (hempty.1 hs)]
        exact ⟨hwf, rfl, h.mem_iff⟩
      · rw [if_neg hs] at hwf ⊢
        rw [if_neg fun hm => hs (hempty.2 hm)]
        exact h
  | normalize =>
      refine ⟨h.wellFormed.normalize, ?_, fun i => ?_⟩
      · exact (normalize_size s).trans h.size_eq
      · exact h.wellFormed.mem_normalize.trans (h.mem_iff i)

end Selection

end IndexSpace
