/-
**Selections: sets of indices taken from a space of known size.**

A selection over the index space `[0, size)` stores spans and single indices in two ordered
containers, which may overlap in any way.  A mark tells whether what is stored is known to be in
normal form: no single indices, and spans between any two of which there is a gap.  Storing
something new takes the mark away; storing what is there already leaves it.

Main definitions:

* `IndexSpace.Selection` — the two containers, the size of the space and the mark;
* `IndexSpace.Selection.empty`, `IndexSpace.Selection.complete` — no index, and every index;
* `IndexSpace.Selection.storePoint`, `IndexSpace.Selection.storeSpan`, `IndexSpace.Selection.store`
  — putting an index or a span into its container;
* `IndexSpace.Selection.stream`, `IndexSpace.Selection.runs` — the stored form read as runs;
* `i ∈ s` — some stored entry holds the index `i`.

Main results:

* `IndexSpace.Selection.mem_storePoint`, `IndexSpace.Selection.mem_storeSpan`,
  `IndexSpace.Selection.mem_store` — **storing adds exactly the indices of what is stored**;
* `IndexSpace.Selection.storePoint_of_mem`, `IndexSpace.Selection.storeSpan_of_mem` — storing an
  entry a second time changes nothing.
-/

import IndexSpace.RunStream

set_option relaxedAutoImplicit false
set_option autoImplicit false

namespace IndexSpace

/-- **A set of indices of the space `[0, size)`**, in the form in which it is stored. -/
structure Selection where
  /-- The number of indices of the space. -/
  size : UInt32
  /-- The stored spans. -/
  spans : Std.ExtTreeSet Span
  /-- The stored single indices. -/
  points : Std.ExtTreeSet UInt32
  /-- Whether the stored form is known to be normal. -/
  normal : Bool
deriving DecidableEq

namespace Selection

/-! ### First selections -/

/-- No index of a space of `size` indices. -/
def empty (size : UInt32) : Selection := ⟨size, ∅, ∅, true⟩

/-- **Every index of a space of `size` indices**, stored as one span; nothing is stored when there
is no index. -/
def complete (size : UInt32) : Selection :=
  { empty size with spans := if 0 < size then (∅ : Std.ExtTreeSet Span).insert ⟨0, size⟩ else ∅ }

/-- Whether nothing is stored. -/
def isEmpty (s : Selection) : Bool := s.spans.isEmpty && s.points.isEmpty

@[simp] theorem isEmpty_iff {s : Selection} :
    s.isEmpty = true ↔ s.spans = ∅ ∧ s.points = ∅ := by
  simp [isEmpty, Std.ExtTreeSet.isEmpty_iff]

/-! ### Storing -/

/-- Stores a single index. -/
def storePoint (s : Selection) (i : UInt32) : Selection :=
  { s with points := s.points.insert i, normal := s.normal && s.points.contains i }

/-- Stores a span. -/
def storeSpan (s : Selection) (t : Span) : Selection :=
  { s with spans := s.spans.insert t, normal := s.normal && s.spans.contains t }

/-- **Stores the indices of a span**: a span of one index as that index, any other as it is. -/
def store (s : Selection) (t : Span) : Selection :=
  if t.length = 1 then s.storePoint t.lo else s.storeSpan t

@[simp] theorem store_size (s : Selection) (t : Span) : (s.store t).size = s.size := by
  unfold store
  split <;> rfl

/-- Storing an index a second time changes nothing. -/
theorem storePoint_of_mem {s : Selection} {i : UInt32} (h : i ∈ s.points) :
    s.storePoint i = s := by
  have hins : s.points.insert i = s.points :=
    Std.ExtTreeSet.ext_mem fun j => by
      simp only [Std.ExtTreeSet.mem_insert, Std.compare_eq_iff_eq, or_iff_right_iff_imp]
      exact fun hj => hj ▸ h
  simp [storePoint, hins, Std.ExtTreeSet.contains_iff_mem.2 h]

/-- Storing a span a second time changes nothing. -/
theorem storeSpan_of_mem {s : Selection} {t : Span} (h : t ∈ s.spans) : s.storeSpan t = s := by
  have hins : s.spans.insert t = s.spans :=
    Std.ExtTreeSet.ext_mem fun u => by
      simp only [Std.ExtTreeSet.mem_insert, Std.compare_eq_iff_eq, or_iff_right_iff_imp]
      exact fun hu => hu ▸ h
  simp [storeSpan, hins, Std.ExtTreeSet.contains_iff_mem.2 h]

/-! ### Elements -/

instance : Membership UInt32 Selection :=
  ⟨fun s i => i ∈ s.points ∨ ∃ t ∈ s.spans, i ∈ t⟩

theorem mem_def {s : Selection} {i : UInt32} : i ∈ s ↔ i ∈ s.points ∨ ∃ t ∈ s.spans, i ∈ t :=
  Iff.rfl

@[simp] theorem not_mem_empty (size i : UInt32) : ¬ i ∈ empty size := by
  simp [mem_def, empty]

@[simp] theorem mem_complete {size i : UInt32} : i ∈ complete size ↔ i < size := by
  by_cases h : 0 < size
  · simp [mem_def, complete, empty, h, Std.ExtTreeSet.mem_insert, Span.mem_def]
  · have h' : size = 0 := by
      simpa [UInt32.lt_iff_toNat_lt, ← UInt32.toNat_inj] using h
    simp [mem_def, complete, empty, h']

theorem mem_storePoint {s : Selection} {i j : UInt32} :
    j ∈ s.storePoint i ↔ j = i ∨ j ∈ s := by
  simp only [mem_def, storePoint, Std.ExtTreeSet.mem_insert, Std.compare_eq_iff_eq, or_assoc]
  exact or_congr_left eq_comm

theorem mem_storeSpan {s : Selection} {t : Span} {j : UInt32} :
    j ∈ s.storeSpan t ↔ j ∈ t ∨ j ∈ s := by
  simp only [mem_def, storeSpan, Std.ExtTreeSet.mem_insert, Std.compare_eq_iff_eq]
  constructor
  · rintro (h | ⟨u, rfl | hu, hj⟩)
    · exact .inr (.inl h)
    · exact .inl hj
    · exact .inr (.inr ⟨u, hu, hj⟩)
  · rintro (h | h | ⟨u, hu, hj⟩)
    · exact .inr ⟨t, .inl rfl, h⟩
    · exact .inl h
    · exact .inr ⟨u, .inr hu, hj⟩

/-- **Storing a proper span adds exactly its indices**, in whichever container it ends up. -/
theorem mem_store {s : Selection} {t : Span} (ht : t.Proper) {j : UInt32} :
    j ∈ s.store t ↔ j ∈ t ∨ j ∈ s := by
  unfold store
  split
  next h =>
    have hnext := ht.length_eq_one_iff.1 h
    rw [mem_storePoint]
    refine or_congr_left ?_
    simp only [Span.mem_def, UInt32.le_iff_toNat_le, UInt32.lt_iff_toNat_lt, ← UInt32.toNat_inj]
    omega
  next => exact mem_storeSpan

/-! ### Runs -/

/-- The stored form as a stream of runs. -/
def stream (s : Selection) : RunStream := .start s.spans.toList s.points.toList

/-- **The runs of the stored form**: ascending, with a gap between any two of them. -/
def runs (s : Selection) : List Span := s.stream.toList

end Selection

end IndexSpace
