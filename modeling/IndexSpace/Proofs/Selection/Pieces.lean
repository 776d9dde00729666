/-
**Additions as pieces that are stored one after the other.**

However indices are added, one by one, between bounds, as a list or as the elements of another
selection, what happens to the stored form is always the same: some proper spans within the space
are stored in order.  Which ones depends on the addition and on the size of the space, and not on
what is stored already.  So every property of additions reduces to one property of storing a piece,
and this module shows in this way that all operations keep selections well-formed.

Main definitions:

* `IndexSpace.Addition.pieces` — **the spans that an addition stores** in a space of a given size;
* `IndexSpace.Addition.verdict` — how it is answered there;
* `IndexSpace.Selection.storeEach` — storing spans one after the other.

Main results:

* `IndexSpace.Selection.add_selection`, `IndexSpace.Selection.add_verdict` — an addition stores its
  pieces and does nothing else, and is answered so;
* `IndexSpace.Selection.mem_spans_storeEach`, `IndexSpace.Selection.mem_points_storeEach`,
  `IndexSpace.Selection.mem_storeEach` — what is stored after storing pieces, and the elements;
* `IndexSpace.Selection.WellFormed.storeEach`, `IndexSpace.Selection.WellFormed.edit`,
  `IndexSpace.Selection.Reachable.wellFormed` — **every selection that operations lead to is
  well-formed**;
* `IndexSpace.Selection.mem_spans_storeEach_of_length_eq_one` — storing puts no span of one index
  among the spans.
-/

import Mathlib.Data.List.TakeWhile
import IndexSpace.Selection.Edit
import IndexSpace.Proofs.Selection.WellFormed

set_option relaxedAutoImplicit false
set_option autoImplicit false

namespace IndexSpace

/-- **The spans that an addition stores** in a space of `size` indices, one after the other. -/
def Addition.pieces (size : UInt32) : Addition Selection → List Span
  | .point i => if i < size then [Span.unit i] else []
  | .span lo hi => if lo < hi ∧ hi ≤ size then [⟨lo, hi⟩] else []
  | .points is => (is.takeWhile fun i => decide (i < size)).map Span.unit
  | .all t => if t.last?.all fun i => decide (i < size) then t.runs else []

/-- **How an addition is answered** in a space of `size` indices.  Of a list of indices those within
the space are taken, and the first one outside it. -/
def Addition.verdict (size : UInt32) : Addition Selection → Verdict
  | .point i => .whole (if i < size then none else some (.outside i size))
  | .span lo hi =>
      .whole (if lo = hi then none
        else if size ≤ lo then some (.outside lo size)
        else if size < hi then some (.outside hi size)
        else if hi < lo then some (.reversed lo hi)
        else none)
  | .points is =>
      let refused := (is.dropWhile fun i => decide (i < size)).head?
      .intake ((is.takeWhile fun i => decide (i < size)).length + refused.toList.length)
        (refused.map (.outside · size))
  | .all t => .whole ((t.last?.filter (size ≤ ·)).map (.outside · size))

theorem lt_of_mem_takeWhile {size i : UInt32} {is : List UInt32}
    (h : i ∈ is.takeWhile fun i => decide (i < size)) : i < size := by
  have hi := List.mem_takeWhile_imp h
  exact of_decide_eq_true hi

@[simp] theorem Span.unit_length (i : UInt32) : (unit i).length = 1 := by
  rw [length, unit_lo, unit_hi, UInt32.add_comm, UInt32.add_sub_cancel]

namespace Selection

/-! ### Storing pieces -/

/-- Stores spans one after the other. -/
def storeEach (s : Selection) (pieces : List Span) : Selection := pieces.foldl store s

@[simp] theorem storeEach_nil (s : Selection) : s.storeEach [] = s := rfl

@[simp] theorem storeEach_cons (s : Selection) (t : Span) (pieces : List Span) :
    s.storeEach (t :: pieces) = (s.store t).storeEach pieces := rfl

@[simp] theorem storeEach_size (s : Selection) (pieces : List Span) :
    (s.storeEach pieces).size = s.size := by
  induction pieces generalizing s with
  | nil => rfl
  | cons t pieces ih => rw [storeEach_cons, ih, store_size]

theorem storeEach_append (s : Selection) (pieces more : List Span) :
    s.storeEach (pieces ++ more) = (s.storeEach pieces).storeEach more :=
  List.foldl_append

/-- Among the spans, storing a span puts that span unless it is one of a single index. -/
theorem mem_spans_store {s : Selection} {t u : Span} :
    u ∈ (s.store t).spans ↔ u ∈ s.spans ∨ t.length ≠ 1 ∧ t = u := by
  unfold store
  split
  next h => simp [storePoint, h]
  next h =>
    simp only [storeSpan, Std.ExtTreeSet.mem_insert, Std.compare_eq_iff_eq]
    rw [or_comm, and_iff_right h]

/-- And among the indices it puts the one index of such a span. -/
theorem mem_points_store {s : Selection} {t : Span} {i : UInt32} :
    i ∈ (s.store t).points ↔ i ∈ s.points ∨ t.length = 1 ∧ t.lo = i := by
  unfold store
  split
  next h =>
    simp only [storePoint, Std.ExtTreeSet.mem_insert, Std.compare_eq_iff_eq]
    rw [or_comm, and_iff_right h]
  next h => simp [storeSpan, h]

/-- **The stored spans after storing pieces**: those from before, and the pieces of several
indices. -/
theorem mem_spans_storeEach {s : Selection} {pieces : List Span} {u : Span} :
    u ∈ (s.storeEach pieces).spans ↔ u ∈ s.spans ∨ u ∈ pieces ∧ u.length ≠ 1 := by
  induction pieces generalizing s with
  | nil => simp
  | cons t pieces ih =>
      rw [storeEach_cons, ih, mem_spans_store, List.mem_cons]
      constructor
      · rintro ((hu | ⟨ht, rfl⟩) | ⟨hu, hlen⟩)
        · exact .inl hu
        · exact .inr ⟨.inl rfl, ht⟩
        · exact .inr ⟨.inr hu, hlen⟩
      · rintro (hu | ⟨rfl | hu, hlen⟩)
        · exact .inl (.inl hu)
        · exact .inl (.inr ⟨hlen, rfl⟩)
        · exact .inr ⟨hu, hlen⟩

/-- **The stored indices after storing pieces**: those from before, and those of the pieces of one
index. -/
theorem mem_points_storeEach {s : Selection} {pieces : List Span} {i : UInt32} :
    i ∈ (s.storeEach pieces).points ↔
      i ∈ s.points ∨ ∃ t ∈ pieces, t.length = 1 ∧ t.lo = i := by
  induction pieces generalizing s with
  | nil => simp
  | cons t pieces ih =>
      rw [storeEach_cons, ih, mem_points_store, or_assoc]
      simp only [List.mem_cons, or_and_right, exists_or, exists_eq_left]

theorem mem_storeEach {s : Selection} {pieces : List Span} (h : ∀ t ∈ pieces, t.Proper)
    {i : UInt32} : i ∈ s.storeEach pieces ↔ Span.Covers pieces i ∨ i ∈ s := by
  induction pieces generalizing s with
  | nil => simp
  | cons t pieces ih =>
      obtain ⟨ht, hpieces⟩ := List.forall_mem_cons.1 h
      rw [storeEach_cons, ih hpieces, mem_store ht, Span.covers_cons, or_left_comm, or_assoc]

/-- A single index is stored like its unit span. -/
theorem store_unit (s : Selection) (i : UInt32) : s.store (Span.unit i) = s.storePoint i := by
  simp [store]

/-! ### Additions store their pieces -/

theorem addPoints_selection (s : Selection) (is : List UInt32) :
    (s.addPoints is).selection = s.storeEach ((Addition.points is).pieces s.size) := by
  -- induction on the list: the first index is stored before the others are looked at
  induction is generalizing s with
  | nil => rfl
  | cons i is ih =>
      by_cases hi : i < s.size
      · have hcons : (Addition.points (i :: is)).pieces s.size =
            Span.unit i :: (Addition.points is).pieces s.size := by
          simp [Addition.pieces, hi]
        rw [addPoints_cons, if_pos hi, hcons, storeEach_cons, store_unit]
        exact ih (s.storePoint i)
      · simp [addPoints_cons, hi, Addition.pieces]

theorem attempt_addPoint (s : Selection) (i : UInt32) :
    (s.attempt (s.addPoint i)).1 = s.storeEach ((Addition.point i).pieces s.size) := by
  by_cases hi : i < s.size <;> simp [addPoint, Addition.pieces, hi, store_unit]

/-- Of the four checks before a span is stored, the last three fail in turn exactly when the bounds
are not those of a proper span within the space; the first one accepts empty bounds. -/
theorem attempt_addSpan (s : Selection) (lo hi : UInt32) :
    (s.attempt (s.addSpan lo hi)).1 = s.storeEach ((Addition.span lo hi).pieces s.size) := by
  have hcases : lo < hi ∧ hi ≤ s.size ↔
      ¬ lo = hi ∧ ¬ s.size ≤ lo ∧ ¬ s.size < hi ∧ ¬ hi < lo := by
    simp only [UInt32.lt_iff_toNat_lt, UInt32.le_iff_toNat_le, ← UInt32.toNat_inj]
    omega
  rw [addSpan, Addition.pieces]
  -- the checks in the order in which they are made
  by_cases heq : lo = hi
  · simp [heq, UInt32.lt_irrefl]
  by_cases hlo : s.size ≤ lo
  · rw [if_neg heq, if_pos hlo, if_neg fun h => (hcases.1 h).2.1 hlo]
    rfl
  by_cases hhi : s.size < hi
  · rw [if_neg heq, if_neg hlo, if_pos hhi, if_neg fun h => (hcases.1 h).2.2.1 hhi]
    rfl
  by_cases hrev : hi < lo
  · rw [if_neg heq, if_neg hlo, if_neg hhi, if_pos hrev, if_neg fun h => (hcases.1 h).2.2.2 hrev]
    rfl
  · rw [if_neg heq, if_neg hlo, if_neg hhi, if_neg hrev, if_pos (hcases.2 ⟨heq, hlo, hhi, hrev⟩)]
    rfl

theorem attempt_addAll (s t : Selection) :
    (s.attempt (s.addAll t)).1 = s.storeEach ((Addition.all t).pieces s.size) := by
  rw [addAll, Addition.pieces]
  cases hlast : t.last? with
  | none => simp [storeEach]
  | some i =>
      by_cases hi : i < s.size
      · simp [hi, UInt32.not_le.2 hi, Option.filter, storeEach]
      · simp [hi, UInt32.not_lt.1 hi, Option.filter]

/-- **An addition stores its pieces** and does nothing else. -/
theorem add_selection (s : Selection) (a : Addition Selection) :
    (s.add a).1 = s.storeEach (a.pieces s.size) := by
  cases a with
  | point i => exact s.attempt_addPoint i
  | span lo hi => exact s.attempt_addSpan lo hi
  | points is => exact s.addPoints_selection is
  | all t => exact s.attempt_addAll t

@[simp] theorem add_size (s : Selection) (a : Addition Selection) : (s.add a).1.size = s.size := by
  rw [add_selection, storeEach_size]

/-! ### Answers -/

theorem addPoints_taken (s : Selection) (is : List UInt32) :
    (s.addPoints is).taken = (is.takeWhile fun i => decide (i < s.size)).length +
      (is.dropWhile fun i => decide (i < s.size)).head?.toList.length := by
  induction is generalizing s with
  | nil => rfl
  | cons i is ih =>
      by_cases hi : i < s.size
      · simp only [addPoints_cons, hi, if_true, List.takeWhile_cons, List.dropWhile_cons,
          decide_true, List.length_cons, ih]
        exact Nat.add_right_comm _ _ 1
      · simp [addPoints_cons, hi]

theorem addPoints_refusal (s : Selection) (is : List UInt32) :
    (s.addPoints is).refusal =
      (is.dropWhile fun i => decide (i < s.size)).head?.map (Refusal.outside · s.size) := by
  induction is generalizing s with
  | nil => rfl
  | cons i is ih =>
      by_cases hi : i < s.size
      · simp only [addPoints_cons, hi, if_true, List.dropWhile_cons, decide_true, ih]
        rfl
      · simp [addPoints_cons, hi]

/-- **How an addition is answered** depends on what is added and on the size of the space alone. -/
theorem add_verdict (s : Selection) (a : Addition Selection) :
    (s.add a).2 = a.verdict s.size := by
  cases a with
  | point i => by_cases hi : i < s.size <;> simp [add, addPoint, Addition.verdict, hi]
  | span lo hi =>
      rw [add, addSpan, Addition.verdict]
      split_ifs <;> rfl
  | points is =>
      rw [add, Addition.verdict, addPoints_taken, addPoints_refusal]
  | all t =>
      rw [add, addAll, Addition.verdict]
      cases t.last?.filter (s.size ≤ ·) <;> rfl

/-! ### Pieces are proper and stay within the space -/

theorem proper_of_mem_pieces {size : UInt32} {a : Addition Selection}
    (ha : ∀ t ∈ a.refs, t.WellFormed) :
    ∀ t ∈ a.pieces size, t.Proper ∧ t.hi ≤ size := by
  intro t ht
  cases a with
  | point i =>
      simp only [Addition.pieces] at ht
      split at ht
      next hi => exact List.mem_singleton.1 ht ▸ Span.unit_within hi
      next => simp at ht
  | span lo hi =>
      simp only [Addition.pieces] at ht
      split at ht
      next hlt => exact List.mem_singleton.1 ht ▸ hlt
      next => simp at ht
  | points is =>
      obtain ⟨i, hi, rfl⟩ := List.mem_map.1 ht
      exact Span.unit_within (lt_of_mem_takeWhile hi)
  | all u =>
      have hu : u.WellFormed := ha u (by simp [Addition.refs])
      simp only [Addition.pieces] at ht
      split at ht
      next hlast => exact hu.within_runs (hu.all_last?_iff.1 hlast) t ht
      next => simp at ht

/-! ### Well-formedness is kept -/

theorem wellFormed_empty (size : UInt32) : (empty size).WellFormed := by
  have hnil : (∅ : Std.ExtTreeSet Span).toList = [] := Std.ExtTreeSet.toList_eq_nil_iff.2 rfl
  constructor <;> simp [empty, hnil, Span.separated_nil]

/-- The one span of a complete selection is separated from the others, as there are none. -/
theorem wellFormed_complete (size : UInt32) : (complete size).WellFormed := by
  by_cases h : 0 < size
  · have hmem : ∀ t, t ∈ (complete size).spans ↔ ⟨0, size⟩ = t := by
      intro t
      simp [complete, h, Std.ExtTreeSet.mem_insert]
    refine ⟨?_, ?_, by simp [complete, empty], fun _ => rfl, fun _ => ⟨?_, ?_⟩, fun _ => rfl⟩
    · intro t ht
      rw [← (hmem t).1 ht]
      exact h
    · intro t ht
      rw [← (hmem t).1 ht]
      exact UInt32.le_refl _
    · intro t ht
      rw [← (hmem t).1 (Std.ExtTreeSet.mem_toList.1 ht)]
      exact h
    · -- two members of the list are both the one span, and this does not go before itself
      refine Std.ExtTreeSet.ordered_toList.imp_of_mem fun {t u} ht hu hlt => ?_
      rw [Std.ExtTreeSet.mem_toList, hmem] at ht hu
      rw [← ht, ← hu] at hlt
      simp at hlt
  · have hempty : complete size = empty size := by simp [complete, empty, h]
    rw [hempty]
    exact wellFormed_empty size

namespace WellFormed

variable {s : Selection}

/-- Storing something new in a well-formed selection leaves no mark. -/
theorem storePoint (h : s.WellFormed) {i : UInt32} (hi : i < s.size) :
    (s.storePoint i).WellFormed := by
  -- a marked form has no single indices, so the index is new if there was a mark
  have hnormal : (s.storePoint i).normal = false := by
    cases hn : s.normal with
    | false => simp [Selection.storePoint, hn]
    | true => simp [Selection.storePoint, h.points_of_normal hn]
  refine ⟨h.proper, h.spans_le, ?_, by simp [hnormal], by simp [hnormal], ?_⟩
  · intro j hj
    rcases Std.ExtTreeSet.mem_insert.1 hj with hij | hj
    · exact Std.compare_eq_iff_eq.1 hij ▸ hi
    · exact h.points_lt j hj
  · intro hempty
    simp [Selection.storePoint] at hempty

theorem storeSpan (h : s.WellFormed) {t : Span} (ht : t.Proper) (hle : t.hi ≤ s.size) :
    (s.storeSpan t).WellFormed := by
  -- the mark is kept only if the span was stored already, and then nothing changes at all
  by_cases hmem : t ∈ s.spans
  · rwa [storeSpan_of_mem hmem]
  have hnormal : (s.storeSpan t).normal = false := by
    have hnew : s.spans.contains t = false := by
      rwa [← Bool.not_eq_true, Std.ExtTreeSet.contains_iff_mem]
    simp [Selection.storeSpan, hnew]
  have hcases : ∀ u ∈ (s.storeSpan t).spans, u = t ∨ u ∈ s.spans := by
    intro u hu
    exact (Std.ExtTreeSet.mem_insert.1 hu).imp_left fun htu => (Std.compare_eq_iff_eq.1 htu).symm
  refine ⟨?_, ?_, h.points_lt, by simp [hnormal], by simp [hnormal], ?_⟩
  · intro u hu
    rcases hcases u hu with rfl | hu
    · exact ht
    · exact h.proper u hu
  · intro u hu
    rcases hcases u hu with rfl | hu
    · exact hle
    · exact h.spans_le u hu
  · intro hempty
    simp [Selection.storeSpan] at hempty

theorem store (h : s.WellFormed) {t : Span} (ht : t.Proper) (hle : t.hi ≤ s.size) :
    (s.store t).WellFormed := by
  unfold Selection.store
  split
  · exact h.storePoint (UInt32.lt_of_lt_of_le ht hle)
  · exact h.storeSpan ht hle

theorem storeEach (h : s.WellFormed) {pieces : List Span}
    (hpieces : ∀ t ∈ pieces, t.Proper ∧ t.hi ≤ s.size) : (s.storeEach pieces).WellFormed := by
  induction pieces generalizing s with
  | nil => exact h
  | cons t pieces ih =>
      obtain ⟨ht, hrest⟩ := List.forall_mem_cons.1 hpieces
      exact ih (h.store ht.1 ht.2) (by simpa using hrest)

theorem add (h : s.WellFormed) {a : Addition Selection} (ha : ∀ t ∈ a.refs, t.WellFormed) :
    (s.add a).1.WellFormed := by
  rw [add_selection]
  exact h.storeEach (proper_of_mem_pieces ha)

/-- A selection without elements keeps to any space. -/
theorem resize (h : s.WellFormed) (size : UInt32) :
    (s.attempt (s.resize size)).1.WellFormed := by
  unfold Selection.resize
  split
  next hempty =>
    obtain ⟨hspans, hpoints⟩ := isEmpty_iff.1 hempty
    refine ⟨h.proper, ?_, ?_, h.points_of_normal, h.separated_of_normal, h.normal_of_isEmpty⟩
    · simp [hspans]
    · simp [hpoints]
  next => exact h

end WellFormed

/-- Separated spans that are stored are listed as they were. -/
theorem toList_ofList_of_separated {runs : List Span} (h : Span.Separated runs) :
    (Std.ExtTreeSet.ofList runs).toList = runs := by
  have hlt : runs.Pairwise fun t u => compare t u = .lt := by
    refine h.2.imp_of_mem fun {t u} ht _ hgap => ?_
    exact Span.compare_eq_lt_iff.2 (.inl (UInt32.lt_trans (h.1 t ht) hgap))
  -- both lists are ascending and have the same members, so they are equal
  have hne : ∀ {t u : Span}, compare t u = .lt → t ≠ u := by
    rintro t _ hlt rfl
    simp at hlt
  have hperm : (Std.ExtTreeSet.ofList runs).toList.Perm runs := by
    refine (List.perm_ext_iff_of_nodup (Std.ExtTreeSet.ordered_toList.imp hne)
      (hlt.imp hne)).2 ?_
    intro t
    rw [Std.ExtTreeSet.mem_toList, Std.ExtTreeSet.mem_ofList, List.contains_iff_mem]
  refine hperm.eq_of_pairwise (fun t u _ _ htu hut => ?_) Std.ExtTreeSet.ordered_toList hlt
  exact absurd hut (Std.OrientedCmp.not_lt_of_lt htu)

namespace WellFormed

variable {s : Selection}

theorem toList_spans_normalize (h : s.WellFormed) : s.normalize.spans.toList = s.runs := by
  unfold Selection.normalize
  split
  next hn => exact (h.runs_of_normal hn).symm
  next => exact toList_ofList_of_separated h.separated_runs

theorem points_normalize (h : s.WellFormed) : s.normalize.points = ∅ := by
  unfold Selection.normalize
  split
  next hn => exact h.points_of_normal hn
  next => rfl

/-- Normalizing neither adds nor loses elements. -/
theorem mem_normalize (h : s.WellFormed) {i : UInt32} : i ∈ s.normalize ↔ i ∈ s := by
  rw [mem_def, h.points_normalize, ← covers_toList_spans, h.toList_spans_normalize, h.covers_runs]
  simp

theorem normalize (h : s.WellFormed) : s.normalize.WellFormed := by
  have hmem : ∀ t, t ∈ s.normalize.spans ↔ t ∈ s.runs := by
    intro t
    rw [← Std.ExtTreeSet.mem_toList, h.toList_spans_normalize]
  refine ⟨fun t ht => ?_, fun t ht => ?_, ?_, fun _ => h.points_normalize, fun _ => ?_, ?_⟩
  · exact h.separated_runs.1 t ((hmem t).1 ht)
  · rw [normalize_size]
    exact (h.within_runs (fun _ => h.lt_size_of_mem) t ((hmem t).1 ht)).2
  · simp [h.points_normalize]
  · rw [h.toList_spans_normalize]
    exact h.separated_runs
  · simp

/-- **Every change keeps a selection well-formed**, whether it is made or refused. -/
theorem edit (h : s.WellFormed) {e : Edit Selection} (he : ∀ t ∈ e.refs, t.WellFormed) :
    (s.edit e).selection.WellFormed := by
  cases e with
  | add a => exact h.add he
  | resize size => exact h.resize size
  | normalize => exact h.normalize

end WellFormed

/-- **Every selection that operations lead to is well-formed.** -/
theorem Reachable.wellFormed {s : Selection} (h : Reachable s) : s.WellFormed := by
  induction h with
  | seed x =>
      cases x with
      | empty size => exact wellFormed_empty size
      | complete size => exact wellFormed_complete size
  | edit e _ _ hs he => exact hs.edit he

/-! ### Spans of one index -/

/-- Storing a piece puts no span of one index among the spans: such a piece becomes an index. -/
theorem mem_spans_storeEach_of_length_eq_one {s : Selection} {pieces : List Span} {u : Span}
    (hu : u.length = 1) : u ∈ (s.storeEach pieces).spans ↔ u ∈ s.spans := by
  rw [mem_spans_storeEach]
  exact or_iff_left fun h => h.2 hu

theorem mem_spans_add_of_length_eq_one {s : Selection} {a : Addition Selection} {u : Span}
    (hu : u.length = 1) : u ∈ (s.add a).1.spans ↔ u ∈ s.spans := by
  rw [add_selection, mem_spans_storeEach_of_length_eq_one hu]

theorem spans_attempt_resize (s : Selection) (size : UInt32) :
    (s.attempt (s.resize size)).1.spans = s.spans := by
  unfold resize
  split <;> rfl

end Selection

end IndexSpace
