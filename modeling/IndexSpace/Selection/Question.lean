/-
**What can be asked about a selection.**

An index is looked up among the single indices first, and then among the spans.  Where the stored
form is normal, only the last span that begins at or before the index can hold it, and the ordered
container finds that span directly.  Otherwise the spans are gone through in order, up to the first
one that begins beyond the index.

Size, shape and comparison are read off the runs of a selection, and so do not depend on how its
elements are spread over spans and single indices.  The exceptions are the space that the stored
form takes, and the short way to tell whether a normal form is contiguous.  Of the two written
forms one shows the elements, and the other exactly what is stored.

Main definitions:

* `IndexSpace.Selection.lookup`, `IndexSpace.Selection.scan`, `IndexSpace.Selection.contains` — the
  two ways through the spans, and **whether an index belongs to a selection**, by the way that the
  mark allows;
* `IndexSpace.Selection.elementsIn` — the elements in an interval of indices;
* `IndexSpace.Selection.count`, `IndexSpace.Selection.last?` — the number of elements, and the
  greatest one;
* `IndexSpace.Selection.isContiguous` — whether there is no gap between two elements;
* `IndexSpace.Selection.agrees` — **whether two selections have the same elements of the same
  space**;
* `IndexSpace.Selection.heapBytes`, `IndexSpace.Selection.summary` — the space that the stored
  entries take, and all of it at a glance;
* `IndexSpace.Selection.text`, `IndexSpace.Selection.dump` — the elements and the stored form,
  written out;
* `IndexSpace.Question`, `IndexSpace.Answer`, `IndexSpace.Selection.answer` — questions as data, and
  **the answer to a question**.

Main results:

* `IndexSpace.getLE?_eq_findRev?` — the container's search for the greatest entry at or below a key
  finds the last such entry of its ascending list;
* `IndexSpace.Selection.scan_iff` — going through the spans in order finds every span that holds
  the index, although it stops early;
* `IndexSpace.Selection.last?_eq_some_iff`, `IndexSpace.Selection.last?_eq_none_iff` — the greatest
  element in terms of what is stored;
* `IndexSpace.Selection.agrees_iff`, `IndexSpace.Selection.agrees_comm` — selections agree exactly
  when sizes and runs are equal, whichever of the two is read first.
-/

import IndexSpace.Selection.Basic

set_option relaxedAutoImplicit false
set_option autoImplicit false

namespace IndexSpace

/-! ### Look-up -/

/-- The greatest entry at or below a key is the last such entry of the ascending list. -/
theorem getLE?_eq_findRev? {α : Type} [Ord α] [Std.TransOrd α] (t : Std.ExtTreeSet α) (key : α) :
    t.getLE? key = t.toList.findRev? fun x => (compare x key).isLE := by
  obtain ⟨⟨q⟩⟩ := t
  refine Std.ExtDTreeMap.inductionOn q fun m => ?_
  show m.inner.getKeyLE? key = m.inner.keys.findRev? _
  rw [Std.DTreeMap.Internal.Impl.getKeyLE?_eq_getEntryLE?,
    Std.DTreeMap.Internal.Impl.getEntryLE?_eq_findRev? m.wf.ordered,
    Std.DTreeMap.Internal.Impl.keys_eq_keys, Std.Internal.List.keys_eq_map]
  induction m.inner.toListModel with
  | nil => rfl
  | cons a l ih =>
      simp only [List.findRev?, List.map_cons]
      rw [← ih]
      cases List.findRev? (fun e => (compare e.fst key).isLE) l <;> simp

namespace Selection

/-- Whether the last span that begins at or before `i` holds `i`. -/
def lookup (s : Selection) (i : UInt32) : Bool :=
  (s.spans.getLE? (Span.ceiling i)).any fun t => t.contains i

/-- Whether one of the spans that begin at or before `i` holds `i`; the spans are gone through in
order. -/
def scan (s : Selection) (i : UInt32) : Bool :=
  (s.spans.toList.takeWhile fun t => decide (t.lo ≤ i)).any fun t => t.contains i

/-- **Whether `i` belongs to the selection.** -/
def contains (s : Selection) (i : UInt32) : Bool :=
  s.points.contains i || if s.normal then s.lookup i else s.scan i

/-- The elements from `lo` up to and not including `hi`, ascending. -/
def elementsIn (s : Selection) (lo hi : UInt32) : List UInt32 :=
  ((List.range' lo.toNat (hi.toNat - lo.toNat)).map UInt32.ofNat).filter s.contains

/-- In ascending spans, those that begin at or before an index stand before all others. -/
theorem any_takeWhile_contains {spans : List Span} {i : UInt32}
    (h : spans.Pairwise fun t u => compare t u = .lt) :
    (spans.takeWhile fun t => decide (t.lo ≤ i)).any (fun t => t.contains i) =
      spans.any fun t => t.contains i := by
  induction spans with
  | nil => rfl
  | cons t spans ih =>
      obtain ⟨hhead, htail⟩ := List.pairwise_cons.1 h
      by_cases hlo : t.lo ≤ i
      · simp [hlo, ih htail]
      · have hnone : ∀ u ∈ t :: spans, u.contains i = false := by
          intro u hu
          have hle : t.lo ≤ u.lo := by
            rcases List.mem_cons.1 hu with rfl | hu
            · exact UInt32.le_refl _
            · rcases Span.compare_eq_lt_iff.1 (hhead u hu) with hlt | ⟨heq, -⟩
              · exact UInt32.le_of_lt hlt
              · exact UInt32.le_of_eq heq
          simp only [Span.contains, Bool.and_eq_false_iff, decide_eq_false_iff_not]
          exact .inl fun hui => hlo (UInt32.le_trans hle hui)
        simp only [List.takeWhile_cons, hlo, decide_false, Bool.false_eq_true, if_false,
          List.any_nil]
        exact (List.any_eq_false.2 fun u hu => by simp [hnone u hu]).symm

/-- Going through the spans in order finds every span that holds the index. -/
theorem scan_iff {s : Selection} {i : UInt32} : s.scan i = true ↔ ∃ t ∈ s.spans, i ∈ t := by
  rw [scan, any_takeWhile_contains Std.ExtTreeSet.ordered_toList]
  simp [Std.ExtTreeSet.mem_toList]

/-- Without the mark, the answer is whether some stored entry holds the index. -/
theorem contains_iff_of_not_normal {s : Selection} (h : s.normal = false) {i : UInt32} :
    s.contains i = true ↔ i ∈ s := by
  simp [contains, h, scan_iff, mem_def]

/-! ### Elements -/

/-- **The number of elements.**  Each run is counted once, however many entries it is made of. -/
def count (s : Selection) : UInt64 := s.runs.foldl (fun n t => n + t.length.toUInt64) 0

/-- The greatest element, if there is one.  Among overlapping spans it need not belong to the last
one. -/
def last? (s : Selection) : Option UInt32 :=
  (s.spans.toList.map Span.last ++ s.points.toList).max?

/-- The greatest element is a stored index or the last one of a stored span, and no other of them
is beyond it. -/
theorem last?_eq_some_iff {s : Selection} {i : UInt32} :
    s.last? = some i ↔
      (i ∈ s.points ∨ ∃ t ∈ s.spans, t.last = i) ∧
        (∀ j ∈ s.points, j ≤ i) ∧ ∀ t ∈ s.spans, t.last ≤ i := by
  rw [last?, List.max?_eq_some_iff]
  simp only [List.mem_append, List.mem_map, Std.ExtTreeSet.mem_toList]
  constructor
  · rintro ⟨hi, hmax⟩
    exact ⟨hi.symm, fun j hj => hmax j (.inr hj), fun t ht => hmax t.last (.inl ⟨t, ht, rfl⟩)⟩
  · rintro ⟨hi, hpoints, hspans⟩
    refine ⟨hi.symm, ?_⟩
    rintro j (⟨t, ht, rfl⟩ | hj)
    · exact hspans t ht
    · exact hpoints j hj

theorem last?_eq_none_iff {s : Selection} : s.last? = none ↔ s.isEmpty = true := by
  simp [last?, List.max?_eq_none_iff, isEmpty]

/-- **Whether there is no gap between two elements.**  A normal form has at most one span then;
of any other the second run is asked for. -/
def isContiguous (s : Selection) : Bool :=
  if s.normal then
    s.points.isEmpty && decide (s.spans.size ≤ 1)
  else
    (s.stream.nth? 1).isNone

/-! ### Comparison -/

/-- **Whether two selections have the same elements of the same space.** -/
def agrees (s t : Selection) : Bool := s.size == t.size && s.stream.agrees t.stream

/-- Selections agree exactly when sizes and runs are equal. -/
theorem agrees_iff {s t : Selection} : s.agrees t = true ↔ s.size = t.size ∧ s.runs = t.runs := by
  simp [agrees, runs, RunStream.agrees_iff]

/-- It does not matter which of two selections is read first. -/
theorem agrees_comm (s t : Selection) : s.agrees t = t.agrees s := by
  rw [Bool.eq_iff_iff, agrees_iff, agrees_iff]
  exact and_congr eq_comm eq_comm

/-! ### Stored form -/

/-- The bytes that the stored entries take: two 32-bit words for a span, one for an index. -/
def heapBytes (s : Selection) : Nat := 8 * s.spans.size + 4 * s.points.size

/-- A selection at a glance. -/
structure Summary where
  /-- The number of indices of the space. -/
  size : UInt32
  /-- The number of elements. -/
  count : UInt64
  /-- Whether the stored form is known to be normal. -/
  normal : Bool
  /-- Whether there is no gap between two elements. -/
  contiguous : Bool
  /-- Whether there are no elements. -/
  empty : Bool
  /-- The bytes that the stored entries take. -/
  heapBytes : Nat
deriving DecidableEq, Repr

/-- The summary of a selection. -/
def summary (s : Selection) : Summary where
  size := s.size
  count := s.count
  normal := s.normal
  contiguous := s.isContiguous
  empty := s.isEmpty
  heapBytes := s.heapBytes

/-! ### Written forms -/

/-- **The elements of a selection**, written as runs. -/
def text (s : Selection) : String := Text.braced (s.runs.map Span.brief)

/-- **The stored form of a selection**, both containers ascending. -/
def dump (s : Selection) : String :=
  Text.record "IndexSet"
    [("ranges", Text.braced (s.spans.toList.map Span.dump)),
      ("indices", Text.braced (s.points.toList.map Text.decimal)),
      ("size", Text.decimal s.size),
      ("compressed", if s.normal then "true" else "false")]

end Selection

/-! ### Questions as data -/

/-- What can be asked about a selection. -/
inductive Question where
  /-- The number of indices of the space. -/
  | size
  /-- The number of elements. -/
  | count
  /-- The bytes that the stored entries take. -/
  | heapBytes
  /-- Whether there are no elements. -/
  | empty
  /-- Whether there is no gap between two elements. -/
  | contiguous
  /-- Whether the stored form is known to be normal. -/
  | normal
  /-- The written form of the elements. -/
  | text
  /-- The written form of what is stored. -/
  | dump
  /-- For each of some indices, whether it is an element. -/
  | contains (is : List UInt32)
  /-- The elements from `lo` up to and not including `hi`. -/
  | elements (lo hi : UInt32)
deriving DecidableEq, Repr

/-- An answer. -/
inductive Answer where
  /-- How many. -/
  | number (n : Nat)
  /-- Yes or no. -/
  | flag (yes : Bool)
  /-- A written form. -/
  | text (t : String)
  /-- Yes or no, for each of some indices. -/
  | flags (each : List Bool)
  /-- Some indices. -/
  | indices (is : List UInt32)
deriving DecidableEq, Repr

/-- **The answer to a question.** -/
def Selection.answer (s : Selection) : Question → Answer
  | .size => .number s.size.toNat
  | .count => .number s.count.toNat
  | .heapBytes => .number s.heapBytes
  | .empty => .flag s.isEmpty
  | .contiguous => .flag s.isContiguous
  | .normal => .flag s.normal
  | .text => .text s.text
  | .dump => .text s.dump
  | .contains is => .flags (is.map s.contains)
  | .elements lo hi => .indices (s.elementsIn lo hi)

end IndexSpace
