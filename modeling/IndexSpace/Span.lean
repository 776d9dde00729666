/-
**Spans: half-open stretches of an index space.**

A span `[lo, hi)` is a pair of 32-bit bounds.  It holds the indices from `lo` up to, and not
including, `hi`.  A *proper* span has `lo < hi`; `Span.ofBounds?` builds proper spans only, while
the plain constructor also writes down the improper pairs that a search key or a statement about
arbitrary input may need.

Spans are compared lexicographically, by the lower bound and then by the upper one.  This is the
order in which the stored spans of a selection are kept, and the order in which they are merged.

Spans, and all other values of this library, are written out in three ways: a number in decimal
digits, a collection between braces, and a record as its name followed by its fields.

Main definitions:

* `IndexSpace.Text.decimal`, `IndexSpace.Text.braced`, `IndexSpace.Text.record` — the three written
  forms;
* `IndexSpace.Span`, `IndexSpace.Span.Proper` — a pair of bounds, and what makes it non-empty;
* `IndexSpace.Span.ofBounds?`, `IndexSpace.Span.unit`, `IndexSpace.Span.ceiling` — the proper span
  with given bounds, the span of one index, and the greatest pair with a given lower bound;
* `IndexSpace.Span.length`, `IndexSpace.Span.last`, `IndexSpace.Span.contains`,
  `IndexSpace.Span.reach` — size, last index, membership, and the span drawn out to a later end;
* `IndexSpace.Span.Separated` — what makes a list of spans a list of runs;
* `IndexSpace.Span.text`, `IndexSpace.Span.brief`, `IndexSpace.Span.dump` — a span as `[lo, hi)`, as
  an index if it has only one, and as a record.

Main results:

* `IndexSpace.Text.decimal_inj` — different numbers have different digits;
* `IndexSpace.Span.compare_eq_lt_iff`, `IndexSpace.Span.isLE_compare_iff` — the order in terms of
  the bounds;
* `IndexSpace.Span.mem_unit_iff` — below the top index, a unit span holds exactly its index;
* `IndexSpace.Span.mem_reach_iff` — **drawing a span out over one that overlaps or touches it
  joins the two**.
-/

import Std.Data.ExtTreeSet
import Std.Data.String.ToNat

set_option relaxedAutoImplicit false
set_option autoImplicit false

namespace IndexSpace

/-! ### Numbers, collections and records -/

namespace Text

/-- A 32-bit number in decimal digits, the least number of them. -/
def decimal (i : UInt32) : String := i.toNat.repr

/-- Different numbers have different digits. -/
theorem decimal_inj {i j : UInt32} : decimal i = decimal j ↔ i = j := by
  simp [decimal, Nat.repr_inj, UInt32.toNat_inj]

/-- Items between braces, a comma and a blank between any two of them. -/
def braced (items : List String) : String :=
  "\x7b" ++ ", ".intercalate items ++ "\x7d"

/-- A record: its name, and between braces its fields, each with its own name. -/
def record (name : String) (fields : List (String × String)) : String :=
  name ++ " \x7b " ++ ", ".intercalate (fields.map fun (field, value) => field ++ ": " ++ value) ++
    " \x7d"

end Text

/-- **A stretch of indices**, from `lo` up to and not including `hi`. -/
structure Span where
  /-- The first index. -/
  lo : UInt32
  /-- One past the last index. -/
  hi : UInt32
deriving DecidableEq, Repr

namespace Span

/-! ### Building spans -/

/-- A span is proper when its bounds enclose at least one index. -/
def Proper (s : Span) : Prop := s.lo < s.hi

instance (s : Span) : Decidable s.Proper := inferInstanceAs (Decidable (s.lo < s.hi))

/-- **The proper span with the given bounds**, if they enclose an index. -/
def ofBounds? (lo hi : UInt32) : Option Span :=
  if lo < hi then some ⟨lo, hi⟩ else none

theorem ofBounds?_eq_some_iff {lo hi : UInt32} {s : Span} :
    ofBounds? lo hi = some s ↔ lo < hi ∧ s = ⟨lo, hi⟩ := by
  by_cases h : lo < hi <;> simp [ofBounds?, h, eq_comm]

/-- The span of the single index `i`.  It is proper unless `i` is the greatest 32-bit number,
which lies outside every index space. -/
def unit (i : UInt32) : Span := ⟨i, i + 1⟩

/-- The greatest pair of bounds that begins at `i`: a search key at or above every span that begins
at or before `i`, and below every span that begins later. -/
def ceiling (i : UInt32) : Span := ⟨i, 0xFFFFFFFF⟩

@[simp] theorem unit_lo (i : UInt32) : (unit i).lo = i := rfl

@[simp] theorem unit_hi (i : UInt32) : (unit i).hi = i + 1 := rfl

theorem unit_proper {i : UInt32} (h : i < 0xFFFFFFFF) : (unit i).Proper := by
  have h' : i.toNat < 4294967295 := UInt32.lt_iff_toNat_lt.1 h
  refine UInt32.lt_iff_toNat_lt.2 ?_
  simp only [unit_lo, unit_hi, UInt32.toNat_add, UInt32.toNat_one]
  omega

/-! ### Size and membership -/

/-- The number of indices of a proper span. -/
def length (s : Span) : UInt32 := s.hi - s.lo

/-- The last index of a proper span. -/
def last (s : Span) : UInt32 := s.hi - 1

/-- Whether `i` lies within the bounds. -/
def contains (s : Span) (i : UInt32) : Bool := decide (s.lo ≤ i) && decide (i < s.hi)

instance : Membership UInt32 Span := ⟨fun s i => s.lo ≤ i ∧ i < s.hi⟩

theorem mem_def {s : Span} {i : UInt32} : i ∈ s ↔ s.lo ≤ i ∧ i < s.hi := Iff.rfl

@[simp] theorem contains_iff {s : Span} {i : UInt32} : s.contains i = true ↔ i ∈ s := by
  simp [contains, mem_def]

instance (s : Span) (i : UInt32) : Decidable (i ∈ s) :=
  inferInstanceAs (Decidable (s.lo ≤ i ∧ i < s.hi))

theorem length_toNat {s : Span} (h : s.Proper) : s.length.toNat = s.hi.toNat - s.lo.toNat :=
  UInt32.toNat_sub_of_le _ _ (UInt32.le_of_lt h)

theorem Proper.length_eq_one_iff {s : Span} (h : s.Proper) :
    s.length = 1 ↔ s.lo.toNat + 1 = s.hi.toNat := by
  have hlt : s.lo.toNat < s.hi.toNat := UInt32.lt_iff_toNat_lt.1 h
  rw [← UInt32.toNat_inj, length_toNat h, UInt32.toNat_one]
  omega

theorem last_toNat {s : Span} (h : s.Proper) : s.last.toNat = s.hi.toNat - 1 := by
  have h' : s.lo.toNat < s.hi.toNat := UInt32.lt_iff_toNat_lt.1 h
  refine UInt32.toNat_sub_of_le _ _ (UInt32.le_iff_toNat_le.2 ?_)
  simp only [UInt32.toNat_one]
  omega

/-- Below the top index, a unit span holds exactly its index. -/
theorem mem_unit_iff {i j : UInt32} (h : i < 0xFFFFFFFF) : j ∈ unit i ↔ j = i := by
  have h' : i.toNat < 4294967295 := UInt32.lt_iff_toNat_lt.1 h
  simp only [mem_def, unit_lo, unit_hi, UInt32.le_iff_toNat_le, UInt32.lt_iff_toNat_lt,
    UInt32.toNat_add, UInt32.toNat_one, ← UInt32.toNat_inj]
  omega

/-! ### Drawing out -/

instance : Std.LawfulOrderMax UInt32 where
  max_le_iff i j k := by
    show (if i ≤ j then j else i) ≤ k ↔ i ≤ k ∧ j ≤ k
    split
    next h => exact ⟨fun hk => ⟨UInt32.le_trans h hk, hk⟩, And.right⟩
    next h =>
      have hji : j ≤ i := UInt32.le_of_lt (UInt32.not_le.1 h)
      exact ⟨fun hk => ⟨hk, UInt32.le_trans hji hk⟩, And.left⟩
  max_eq_or i j := by
    show (if i ≤ j then j else i) = i ∨ (if i ≤ j then j else i) = j
    split
    next => exact .inr rfl
    next => exact .inl rfl

/-- The span drawn out to `hi`, if that lies beyond its own end. -/
def reach (s : Span) (hi : UInt32) : Span := { s with hi := max s.hi hi }

@[simp] theorem reach_lo (s : Span) (hi : UInt32) : (s.reach hi).lo = s.lo := rfl

theorem le_reach_hi (s : Span) (hi : UInt32) : s.hi ≤ (s.reach hi).hi := Std.left_le_max

/-- Drawing a span out keeps to what both ends keep to. -/
theorem reach_hi_le_iff {s : Span} {hi n : UInt32} :
    (s.reach hi).hi ≤ n ↔ s.hi ≤ n ∧ hi ≤ n :=
  Std.LawfulOrderSup.max_le_iff _ _ _

theorem lt_reach_hi_iff {s : Span} {hi i : UInt32} :
    i < (s.reach hi).hi ↔ i < s.hi ∨ i < hi := by
  rw [← UInt32.not_le, reach_hi_le_iff, Decidable.not_and_iff_not_or_not, UInt32.not_le,
    UInt32.not_le]

/-- A proper span drawn out is proper. -/
theorem Proper.reach {s : Span} (h : s.Proper) (hi : UInt32) : (s.reach hi).Proper :=
  UInt32.lt_of_lt_of_le h (s.le_reach_hi hi)

/-- A span drawn out over one that overlaps or touches it holds the indices of both, and no
others. -/
theorem mem_reach_iff {s t : Span} (hlo : s.lo ≤ t.lo) (htouch : t.lo ≤ s.hi) {i : UInt32} :
    i ∈ s.reach t.hi ↔ i ∈ s ∨ i ∈ t := by
  rw [mem_def, reach_lo, lt_reach_hi_iff, mem_def, mem_def]
  simp only [UInt32.le_iff_toNat_le, UInt32.lt_iff_toNat_lt] at *
  omega

/-! ### Order -/

/-- Spans are ordered by the lower bound, and by the upper one where the lower bounds agree. -/
instance : Ord Span := ⟨compareLex (compareOn Span.lo) (compareOn Span.hi)⟩

theorem compare_def (s t : Span) :
    compare s t = (compare s.lo t.lo).then (compare s.hi t.hi) := rfl

instance : Std.TransOrd Span :=
  inferInstanceAs (Std.TransCmp (compareLex (compareOn Span.lo) (compareOn Span.hi)))

instance : Std.LawfulEqOrd Span where
  eq_of_compare {s t} h := by
    obtain ⟨hlo, hhi⟩ := Ordering.then_eq_eq.1 ((compare_def s t).symm.trans h)
    cases s
    cases t
    simp only [Std.compare_eq_iff_eq] at hlo hhi
    simp [hlo, hhi]

/-- One span comes before another if it begins earlier, or begins with it and ends earlier. -/
theorem compare_eq_lt_iff {s t : Span} :
    compare s t = .lt ↔ s.lo < t.lo ∨ s.lo = t.lo ∧ s.hi < t.hi := by
  simp [compare_def, Ordering.then_eq_lt, Std.compare_eq_lt]

/-- One span is at or before another if it begins earlier, or begins with it and ends no later. -/
theorem isLE_compare_iff {s t : Span} :
    (compare s t).isLE = true ↔ s.lo < t.lo ∨ s.lo = t.lo ∧ s.hi ≤ t.hi := by
  simp [compare_def, Ordering.isLE_then_iff_or, Std.compare_eq_lt, Std.isLE_compare]

/-- Proper spans, ascending, with a gap between any two of them.  Touching spans are not
separated. -/
def Separated (spans : List Span) : Prop :=
  (∀ s ∈ spans, s.Proper) ∧ spans.Pairwise fun s t => s.hi < t.lo

instance (spans : List Span) : Decidable (Separated spans) :=
  inferInstanceAs (Decidable ((∀ s ∈ spans, s.Proper) ∧ spans.Pairwise fun s t => s.hi < t.lo))

theorem separated_nil : Separated [] := ⟨by simp, .nil⟩

theorem separated_cons {s : Span} {spans : List Span} :
    Separated (s :: spans) ↔ s.Proper ∧ (∀ t ∈ spans, s.hi < t.lo) ∧ Separated spans := by
  simp only [Separated, List.forall_mem_cons, List.pairwise_cons]
  constructor
  · rintro ⟨⟨hs, hspans⟩, hgap, hpair⟩
    exact ⟨hs, hgap, hspans, hpair⟩
  · rintro ⟨hs, hgap, hspans, hpair⟩
    exact ⟨⟨hs, hspans⟩, hgap, hpair⟩

/-! ### Written forms -/

/-- **The written form of a span**, `[lo, hi)`. -/
def text (s : Span) : String := "[" ++ Text.decimal s.lo ++ ", " ++ Text.decimal s.hi ++ ")"

/-- A run of one index as that index, any other with its bounds. -/
def brief (t : Span) : String :=
  if t.length = 1 then Text.decimal t.lo else t.text

/-- The written form that names the bounds. -/
def dump (s : Span) : String :=
  Text.record "ContiguousRange" [("begin", Text.decimal s.lo), ("end", Text.decimal s.hi)]

end Span

end IndexSpace
