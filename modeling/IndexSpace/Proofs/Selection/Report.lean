/-
**What normalization leaves, and what changes report.**

A selection reports two things: a resize that is refused, and normalization that had work to do.
This module says what each change has to report, in terms of the answer that it gives and of the
indices that are found in the selection, and proves that it does so.  The last number in a note on
normalization is the number of maximal runs of elements.  There is at least one of them, since an
empty selection is always marked; and there are no more than entries, as every run takes at least
one entry from the stream from which it is made.

The elements of a selection can be made up of spans in many ways, with spans that overlap, touch or
repeat.  None of these ways does with fewer spans than there are runs.  For a run cannot be drawn
out, so a span of elements that holds the first index of a run begins with that index; and since the
runs begin with different indices, every one of them needs a span of its own.  Normalization stores
the runs and nothing else, and so it attains the least number.  As there are no more runs than
entries, and a span takes the space of two indices, the bytes at most double, and only single
indices can be the cause of it.

Main definitions:

* `IndexSpace.Selection.maximalRuns` — the maximal runs of the indices that are found;
* `IndexSpace.Selection.notes` — **what a change has to report**;
* `IndexSpace.Event.Regular` — the weight of a note, and the bounds on its numbers;
* `IndexSpace.Selection.MadeOf` — some proper spans that hold exactly the elements.

Main results:

* `IndexSpace.Selection.WellFormed.ncard_maximalRuns` — the runs are the maximal runs of elements;
* `IndexSpace.Selection.length_runs_le` — there are no more runs than entries;
* `IndexSpace.Selection.WellFormed.edit_events`,
  `IndexSpace.Selection.WellFormed.regular_of_mem_notes` — **every change reports what it has to**,
  and all its notes are regular;
* `IndexSpace.Span.Separated.length_le_of_covers_iff` — **no spans that cover the same are fewer
  than separated ones**;
* `IndexSpace.Selection.normalize_fewest` — **normalization stores the fewest spans possible**, in
  at most twice the bytes.
-/

import IndexSpace.Proofs.Selection.Pieces

set_option relaxedAutoImplicit false
set_option autoImplicit false

namespace IndexSpace

/-- A refused resize is noted for debugging, normalization as a trace: with at least one run after
it, and no more runs than there were entries. -/
def Event.Regular : Event → Prop
  | rejectedResize size requested => (rejectedResize size requested).level = .debug
  | normalized spans points runs =>
      (normalized spans points runs).level = .trace ∧ 1 ≤ runs ∧ runs ≤ spans + points

namespace Selection

/-- The maximal runs of the indices that are found in a selection. -/
def maximalRuns (s : Selection) : Set Span := {t | t.MaximalIn fun i => s.contains i = true}

/-- **What a change has to report**: a resize, the sizes if it is refused; normalization, the
numbers of entries before and of runs after it if there is no mark; an addition nothing. -/
noncomputable def notes (s : Selection) : Edit Selection → List Event
  | .add _ => []
  | .resize size =>
      if (s.edit (.resize size)).verdict.refusal.isSome then [.rejectedResize s.size size] else []
  | .normalize =>
      if s.normal then []
      else [.normalized s.spans.size s.points.size s.maximalRuns.ncard]

/-! ### Numbers of runs -/

/-- There are no more runs than entries. -/
theorem length_runs_le (s : Selection) : s.runs.length ≤ s.spans.size + s.points.size := by
  have hle := s.stream.length_toList_le
  simpa [runs, stream, RunStream.start, RunStream.remaining, Feed.size] using hle

namespace WellFormed

variable {s : Selection}

/-- **The runs are the maximal runs of elements.** -/
theorem ncard_maximalRuns (h : s.WellFormed) : s.maximalRuns.ncard = s.runs.length := by
  rw [maximalRuns, h.contains_eq_covers_runs, h.separated_runs.ncard_maximalIn]

theorem size_spans_normalize (h : s.WellFormed) : s.normalize.spans.size = s.runs.length := by
  rw [← h.toList_spans_normalize, Std.ExtTreeSet.length_toList]

/-- Without a mark there is an element, and so there is a run. -/
theorem one_le_length_runs (h : s.WellFormed) (hn : s.normal = false) : 1 ≤ s.runs.length := by
  refine List.length_pos_iff.2 ?_
  intro hnil
  have hempty : s.isEmpty = true := by
    rw [h.isEmpty_iff_forall_not_mem]
    intro i hi
    have hcov := h.covers_runs.2 hi
    simp [hnil] at hcov
  rw [h.normal_of_isEmpty hempty] at hn
  cases hn

/-! ### Reports -/

/-- **Every change reports what it has to.** -/
theorem edit_events (h : s.WellFormed) (e : Edit Selection) : (s.edit e).events = s.notes e := by
  cases e with
  | add a => rfl
  | resize size =>
      cases hempty : s.isEmpty with
      | true => simp [notes, edit_resize_of_isEmpty hempty, Verdict.refusal]
      | false => simp [notes, edit_resize_of_not_isEmpty hempty, Verdict.refusal]
  | normalize =>
      simp only [Selection.edit, notes, normalizeEvents, h.ncard_maximalRuns,
        h.size_spans_normalize]

/-- **All notes are regular.** -/
theorem regular_of_mem_notes (h : s.WellFormed) {e : Edit Selection} {note : Event}
    (hnote : note ∈ s.notes e) : note.Regular := by
  cases e with
  | add a => simp [notes] at hnote
  | resize size =>
      simp only [notes] at hnote
      split at hnote
      · rw [List.mem_singleton.1 hnote]
        exact rfl
      · simp at hnote
  | normalize =>
      simp only [notes] at hnote
      split at hnote
      next => simp at hnote
      next hn =>
        have hlen := h.one_le_length_runs (Bool.eq_false_of_not_eq_true hn)
        rw [List.mem_singleton.1 hnote, h.ncard_maximalRuns]
        exact ⟨rfl, hlen, s.length_runs_le⟩

end WellFormed

end Selection

namespace Span

variable {spans cover : List Span}

/-! ### Covers and runs -/

/-- **Where a maximal run begins, one of the spans that make it up begins.** -/
theorem MaximalIn.exists_lo_eq {t : Span} (ht : t.MaximalIn (Covers cover)) :
    ∃ u ∈ cover, u.lo = t.lo := by
  obtain ⟨u, hu, hmem⟩ := ht.holds t.lo ht.proper.lo_mem
  refine ⟨u, hu, ?_⟩
  -- a span of covered indices that shares an index with the run cannot begin before it
  have hle : t.lo ≤ u.lo := ht.lo_le_lo (fun i hi => ⟨u, hu, hi⟩) ht.proper.lo_mem hmem
  exact UInt32.le_antisymm hmem.1 hle

/-- Separated spans begin with different indices. -/
theorem Separated.nodup_map_lo (h : Separated spans) : (spans.map lo).Nodup := by
  refine List.pairwise_map.2 (h.2.imp_of_mem fun {t u} ht _ hgap => ?_)
  exact UInt32.ne_of_lt (UInt32.lt_trans (h.1 t ht) hgap)

/-- **No spans that cover the same indices are fewer than separated ones.** -/
theorem Separated.length_le_of_covers_iff (h : Separated spans)
    (hcov : ∀ i, Covers cover i ↔ Covers spans i) : spans.length ≤ cover.length := by
  have hsame : Covers cover = Covers spans := funext fun i => propext (hcov i)
  have hsub : spans.map lo ⊆ cover.map lo := by
    intro i hi
    obtain ⟨t, ht, rfl⟩ := List.mem_map.1 hi
    have hmax := h.maximalIn_of_mem ht
    rw [← hsame] at hmax
    obtain ⟨u, hu, hlo⟩ := hmax.exists_lo_eq
    exact List.mem_map.2 ⟨u, hu, hlo⟩
  have hle := (List.subperm_of_subset h.nodup_map_lo hsub).length_le
  rwa [List.length_map, List.length_map] at hle

end Span

namespace Selection

/-! ### The fewest spans -/

/-- **Some proper spans that make up a selection**: together they hold its elements and no other
indices.  They may overlap, touch and repeat. -/
structure MadeOf (s : Selection) (cover : List Span) : Prop where
  proper : ∀ t ∈ cover, t.Proper
  covers_iff : ∀ i, Span.Covers cover i ↔ s.contains i = true

namespace WellFormed

variable {s : Selection}

theorem madeOf_runs (h : s.WellFormed) : s.MadeOf s.runs :=
  ⟨h.separated_runs.1, fun _ => h.contains_iff_covers_runs.symm⟩

/-- **A selection is made of no fewer spans than it has runs.** -/
theorem length_runs_le_of_madeOf (h : s.WellFormed) {cover : List Span} (hcover : s.MadeOf cover) :
    s.runs.length ≤ cover.length := by
  refine h.separated_runs.length_le_of_covers_iff ?_
  intro i
  rw [hcover.covers_iff, h.contains_iff_covers_runs]

/-- After normalization, the bytes are those of the spans. -/
theorem heapBytes_normalize (h : s.WellFormed) : s.normalize.heapBytes = 8 * s.runs.length := by
  rw [heapBytes, h.size_spans_normalize, h.points_normalize, Std.ExtTreeSet.size_empty]
  rfl

end WellFormed

/-- **Normalization stores the fewest spans possible.**  It leaves no single index, and the spans
that it stores make up the selection; no others do so in a smaller number.  In particular they are
no more than there were entries.  In bytes they take twice the space at most, and no more space at
all if there was no single index. -/
theorem normalize_fewest {s : Selection} (hs : s.Reachable) :
    s.normalize.points.size = 0 ∧
      s.MadeOf s.normalize.spans.toList ∧
      (∀ cover, s.MadeOf cover → s.normalize.spans.size ≤ cover.length) ∧
      s.normalize.spans.size ≤ s.spans.size + s.points.size ∧
      s.normalize.heapBytes = 8 * s.normalize.spans.size ∧
      s.normalize.heapBytes ≤ 2 * s.heapBytes ∧
      (s.points.size = 0 → s.normalize.heapBytes ≤ s.heapBytes) := by
  have h := hs.wellFormed
  have hle := s.length_runs_le
  rw [h.heapBytes_normalize, h.size_spans_normalize, h.toList_spans_normalize, h.points_normalize,
    heapBytes]
  refine ⟨Std.ExtTreeSet.size_empty, h.madeOf_runs, fun _ => h.length_runs_le_of_madeOf, hle, rfl,
    ?_, ?_⟩
  · omega
  · omega

/-- Two spans that overlap, and single indices between, beside and away from them: three runs of
five entries. -/
theorem normalize_fewest_mixed :
    ((((empty 20).add (.span 2 5)).1.add (.span 4 6)).1.add (.points [6, 9, 11])).1.Reachable ∧
      ((((empty 20).add (.span 2 5)).1.add (.span 4 6)).1.add (.points [6, 9, 11])).1.MadeOf
        [⟨2, 7⟩, ⟨9, 10⟩, ⟨11, 12⟩] := by
  have hs : ((((empty 20).add (.span 2 5)).1.add (.span 4 6)).1.add
      (.points [6, 9, 11])).1.Reachable := by
    refine (((Reachable.empty 20).add ?_).add ?_).add ?_ <;> simp [Addition.refs]
  have hruns : ((((empty 20).add (.span 2 5)).1.add (.span 4 6)).1.add
      (.points [6, 9, 11])).1.normalize.spans.toList = [⟨2, 7⟩, ⟨9, 10⟩, ⟨11, 12⟩] := by
    decide +kernel
  exact ⟨hs, hruns ▸ (normalize_fewest hs).2.1⟩

end Selection

end IndexSpace
