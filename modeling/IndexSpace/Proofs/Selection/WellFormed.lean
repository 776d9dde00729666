/-
**Well-formed selections, and what their stored form says about their elements.**

A selection may store its elements in many ways.  What every stored form has in common is its
well-formedness: entries stay within the index space, and the mark of a normal form is not carried
without right.  This module states the invariant and draws from it all that later arguments need to
know about the stored form: its entries are an ordered feed, so that the runs are the runs of the
elements; looking an index up answers membership on every path; and the greatest stored bound is the
greatest element.  That the operations keep selections well-formed is a matter of the next modules.

Main definitions:

* `IndexSpace.Selection.WellFormed` — **the invariant of the stored form**.

Main results:

* `IndexSpace.Selection.WellFormed.covers_runs`, `IndexSpace.Selection.WellFormed.runs_congr` — the
  runs cover the elements, and depend on nothing else;
* `IndexSpace.Selection.WellFormed.contains_iff` — **every look-up answers membership**;
* `IndexSpace.Selection.WellFormed.last?_eq_some_iff_mem` — the greatest element is found;
* `IndexSpace.Selection.WellFormed.isEmpty_iff_forall_not_mem` — nothing is stored only if there
  are no elements.
-/

import IndexSpace.Proofs.Selection.Search

set_option relaxedAutoImplicit false
set_option autoImplicit false

namespace IndexSpace

namespace Selection

/-! ### The invariant -/

/-- **The invariant of the stored form.**  Entries are proper and stay within the space; a marked
form holds separated spans and no single indices, and carries the mark whenever it is empty. -/
structure WellFormed (s : Selection) : Prop where
  proper : ∀ t ∈ s.spans, t.Proper
  spans_le : ∀ t ∈ s.spans, t.hi ≤ s.size
  points_lt : ∀ i ∈ s.points, i < s.size
  points_of_normal : s.normal = true → s.points = ∅
  separated_of_normal : s.normal = true → Span.Separated s.spans.toList
  normal_of_isEmpty : s.isEmpty = true → s.normal = true

/-- The stored form as a feed. -/
def feed (s : Selection) : Feed := ⟨s.spans.toList, s.points.toList⟩

namespace WellFormed

variable {s t : Selection} {i : UInt32}

theorem ordered_feed (h : s.WellFormed) : s.feed.Ordered where
  spans_ascending := Std.ExtTreeSet.ordered_toList.imp Span.lo_le_of_compare_eq_lt
  points_ascending := by
    refine Std.ExtTreeSet.ordered_toList.imp fun {i j} hlt => ?_
    exact UInt32.le_of_lt (Std.compare_eq_lt.1 hlt)
  proper := fun t ht => h.proper t (Std.ExtTreeSet.mem_toList.1 ht)
  points_lt := by
    intro i hi
    exact Span.lt_top_of_lt (h.points_lt i (Std.ExtTreeSet.mem_toList.1 hi))

theorem covers_items_feed (h : s.WellFormed) : Span.Covers s.feed.items i ↔ i ∈ s := by
  rw [Feed.items, Span.covers_append, Span.covers_map_unit h.ordered_feed.points_lt, mem_def,
    or_comm]
  exact or_congr Std.ExtTreeSet.mem_toList covers_toList_spans

/-! ### Runs -/

theorem isRunsOf_runs (h : s.WellFormed) : Span.IsRunsOf s.runs s.feed.items :=
  RunStream.isRunsOf_toList_start h.ordered_feed

theorem separated_runs (h : s.WellFormed) : Span.Separated s.runs := h.isRunsOf_runs.separated

/-- The runs cover exactly the elements. -/
theorem covers_runs (h : s.WellFormed) : Span.Covers s.runs i ↔ i ∈ s := by
  rw [h.isRunsOf_runs.covers_iff, h.covers_items_feed]

/-- **The runs depend on the elements alone.** -/
theorem runs_congr (hs : s.WellFormed) (ht : t.WellFormed) (h : ∀ i, i ∈ s ↔ i ∈ t) :
    s.runs = t.runs := by
  refine Span.eq_of_covers_iff hs.separated_runs ht.separated_runs ?_
  intro i
  rw [hs.covers_runs, ht.covers_runs, h i]

/-- A marked form stores its runs. -/
theorem runs_of_normal (h : s.WellFormed) (hn : s.normal = true) : s.runs = s.spans.toList := by
  refine Span.eq_of_covers_iff h.separated_runs (h.separated_of_normal hn) ?_
  intro i
  rw [h.covers_runs, mem_def, h.points_of_normal hn, covers_toList_spans]
  simp

theorem lt_size_of_mem (h : s.WellFormed) (hi : i ∈ s) : i < s.size := by
  rcases mem_def.1 hi with hi | ⟨t, ht, hit⟩
  · exact h.points_lt i hi
  · exact UInt32.lt_of_lt_of_le hit.2 (h.spans_le t ht)

/-- The runs are within every space in which all elements lie, be it that of the selection or a
smaller one. -/
theorem within_runs (h : s.WellFormed) {size : UInt32} (hlt : ∀ i ∈ s, i < size) :
    ∀ t ∈ s.runs, t.Within size := by
  intro t ht
  have hproper := h.separated_runs.1 t ht
  exact ⟨hproper, hproper.hi_le_of_forall_lt fun i hi => hlt i (h.covers_runs.1 ⟨t, ht, hi⟩)⟩

/-! ### Look-up -/

/-- **Every look-up answers membership**, whichever way through the spans the mark allows. -/
theorem contains_iff (h : s.WellFormed) : s.contains i = true ↔ i ∈ s := by
  cases hn : s.normal with
  | false => exact contains_iff_of_not_normal hn
  | true =>
      -- with the mark the spans are separated, so one candidate is enough
      simp [contains, hn, lookup_iff_of_separated (h.separated_of_normal hn), mem_def]

theorem contains_congr (hs : s.WellFormed) (ht : t.WellFormed) (h : ∀ i, i ∈ s ↔ i ∈ t)
    (i : UInt32) : s.contains i = t.contains i := by
  rw [Bool.eq_iff_iff, hs.contains_iff, ht.contains_iff, h i]

/-- An index is found exactly if a run covers it. -/
theorem contains_iff_covers_runs (h : s.WellFormed) :
    s.contains i = true ↔ Span.Covers s.runs i := by
  rw [h.contains_iff, h.covers_runs]

theorem contains_eq_covers_runs (h : s.WellFormed) :
    (fun i => s.contains i = true) = Span.Covers s.runs :=
  funext fun _ => propext h.contains_iff_covers_runs

/-! ### The greatest element -/

/-- The greatest stored bound is the greatest element. -/
theorem last?_eq_some_iff_mem (h : s.WellFormed) :
    s.last? = some i ↔ i ∈ s ∧ ∀ j ∈ s, j ≤ i := by
  rw [last?_eq_some_iff]
  -- the last index of a stored span is an element, and none of its elements is beyond it
  constructor
  · rintro ⟨hi, hpoints, hspans⟩
    constructor
    · rcases hi with hi | ⟨t, ht, rfl⟩
      · exact .inl hi
      · exact .inr ⟨t, ht, (h.proper t ht).last_mem⟩
    · rintro j (hj | ⟨t, ht, hj⟩)
      · exact hpoints j hj
      · exact UInt32.le_trans ((h.proper t ht).le_last hj) (hspans t ht)
  · rintro ⟨hi, hmax⟩
    have hspans : ∀ t ∈ s.spans, t.last ≤ i := fun t ht =>
      hmax t.last (.inr ⟨t, ht, (h.proper t ht).last_mem⟩)
    refine ⟨?_, fun j hj => hmax j (.inl hj), hspans⟩
    rcases hi with hi | ⟨t, ht, hi⟩
    · exact .inl hi
    · exact .inr ⟨t, ht, UInt32.le_antisymm (hspans t ht) ((h.proper t ht).le_last hi)⟩

theorem isEmpty_iff_forall_not_mem (h : s.WellFormed) : s.isEmpty = true ↔ ∀ i, ¬ i ∈ s := by
  rw [isEmpty_iff]
  constructor
  · rintro ⟨hspans, hpoints⟩ i
    simp [mem_def, hspans, hpoints]
  · intro hnone
    constructor
    · refine Std.ExtTreeSet.eq_empty_iff_forall_not_mem.2 ?_
      intro t ht
      exact hnone t.lo (.inr ⟨t, ht, (h.proper t ht).lo_mem⟩)
    · exact Std.ExtTreeSet.eq_empty_iff_forall_not_mem.2 fun i hi => hnone i (.inl hi)

/-- All elements stay below a bound when the greatest one does. -/
theorem all_last?_iff (h : s.WellFormed) {n : UInt32} :
    s.last?.all (fun i => decide (i < n)) = true ↔ ∀ i ∈ s, i < n := by
  cases hs : s.last? with
  | none =>
      have hempty := h.isEmpty_iff_forall_not_mem.1 (last?_eq_none_iff.1 hs)
      simp [hempty]
  | some m =>
      obtain ⟨hm, hmax⟩ := h.last?_eq_some_iff_mem.1 hs
      rw [Option.all_some, decide_eq_true_iff]
      constructor
      · intro hlt i hi
        exact UInt32.lt_of_le_of_lt (hmax i hi) hlt
      · intro hn
        exact hn m hm

/-- The greatest element is refused exactly if some element is not below the bound. -/
theorem filter_last?_eq_none_iff (h : s.WellFormed) {n : UInt32} :
    s.last?.filter (n ≤ ·) = none ↔ ∀ i ∈ s, i < n := by
  rw [← h.all_last?_iff, Option.filter_eq_none_iff, Option.all_eq_true]
  simp

theorem last?_congr (hs : s.WellFormed) (ht : t.WellFormed) (h : ∀ i, i ∈ s ↔ i ∈ t) :
    s.last? = t.last? := by
  refine Option.ext ?_
  intro i
  simp only [hs.last?_eq_some_iff_mem, ht.last?_eq_some_iff_mem, h]

end WellFormed

end Selection

end IndexSpace
