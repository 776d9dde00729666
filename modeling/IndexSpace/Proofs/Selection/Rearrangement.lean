/-
**Additions may be made in any order.**

An addition stores pieces, and which ones depends on the size of the space alone.  After pieces have
been stored, each container holds what it held before and the pieces of its kind, and the mark is
left exactly if every piece was there before the first of them was stored.  The order of the pieces
does not come in, nor does it matter whether some of them occur more than once.  So the stored form
after many additions is the same in every order, down to the mark, and not only the elements are.

So an addition takes the mark away exactly if it changes one of the two containers.  This is not the
same as bringing in a new element: an index that is covered by a stored span, or that is a stored
span of its own after normalization, is stored among the single indices all the same.  But whatever
brings in a new element changes a container, so the mark of a normal form is never carried on past
such an addition; and an addition that leaves both containers as they are leaves the whole selection
so.

Main definitions:

* `IndexSpace.Selection.holds` — whether a span is there already, in the form in which it would be
  stored;
* `IndexSpace.Selection.SameEntries` — the same spans and the same indices are stored.

Main results:

* `IndexSpace.Selection.normal_storeEach` — the mark after storing pieces;
* `IndexSpace.Selection.storeEach_congr` — **the same pieces, in any order, lead to the same stored
  form**;
* `IndexSpace.Selection.addEach_selection`, `IndexSpace.Selection.addEach_verdicts` — many additions
  store the pieces of all of them, and each is answered as if it were the only one;
* `IndexSpace.Selection.addEach_perm` — **additions in any order** are answered alike, and lead to
  the same selection;
* `IndexSpace.Selection.sameEntries_storeEach_iff` — the containers stay as they are exactly if all
  pieces are there already;
* `IndexSpace.Selection.normal_add_iff` — **the mark is left exactly if the containers are**;
* `IndexSpace.Selection.WellFormed.normal_add_of_new` — a new element takes the mark away.
-/

import IndexSpace.Proofs.Selection.Pieces

set_option relaxedAutoImplicit false
set_option autoImplicit false

namespace IndexSpace.Selection

variable {s t : Selection}

/-- Selections are equal when their four parts are, the containers by their members. -/
theorem eq_of_mem_iff (hsize : s.size = t.size) (hspans : ∀ u, u ∈ s.spans ↔ u ∈ t.spans)
    (hpoints : ∀ i, i ∈ s.points ↔ i ∈ t.points) (hnormal : s.normal = t.normal) : s = t := by
  have hs : s.spans = t.spans := Std.ExtTreeSet.ext_mem hspans
  have hp : s.points = t.points := Std.ExtTreeSet.ext_mem hpoints
  cases s
  cases t
  simp_all

/-! ### The mark after storing -/

/-- Whether a span is there already, in the form in which it would be stored. -/
def holds (s : Selection) (u : Span) : Bool :=
  if u.length = 1 then s.points.contains u.lo else s.spans.contains u

theorem normal_store (s : Selection) (u : Span) :
    (s.store u).normal = (s.normal && s.holds u) := by
  unfold store holds
  split <;> rfl

/-- Storing what is there already changes nothing. -/
theorem store_of_holds {u : Span} (h : s.holds u = true) : s.store u = s := by
  unfold holds at h
  unfold store
  split at h
  next hlen =>
    rw [if_pos hlen]
    exact storePoint_of_mem (Std.ExtTreeSet.contains_iff_mem.1 h)
  next hlen =>
    rw [if_neg hlen]
    exact storeSpan_of_mem (Std.ExtTreeSet.contains_iff_mem.1 h)

/-- **The mark is left exactly if all pieces were there** before the first of them was stored. -/
theorem normal_storeEach (s : Selection) (pieces : List Span) :
    (s.storeEach pieces).normal = (s.normal && pieces.all s.holds) := by
  induction pieces generalizing s with
  | nil => simp
  | cons u pieces ih =>
      rw [storeEach_cons, ih, List.all_cons, normal_store]
      -- a piece that is there changes nothing for the others, and one that is not decides alone
      cases h : s.holds u with
      | true => rw [store_of_holds h, Bool.and_true, Bool.true_and]
      | false => simp

/-! ### The order of pieces -/

/-- **The same pieces lead to the same stored form**, in whatever order and however often each of
them is stored. -/
theorem storeEach_congr (s : Selection) {pieces more : List Span} (h : ∀ u, u ∈ pieces ↔ u ∈ more) :
    s.storeEach pieces = s.storeEach more := by
  refine eq_of_mem_iff ?_ (fun u => ?_) (fun i => ?_) ?_
  · rw [storeEach_size, storeEach_size]
  · rw [mem_spans_storeEach, mem_spans_storeEach, h]
  · simp only [mem_points_storeEach, h]
  · rw [normal_storeEach, normal_storeEach]
    refine congrArg (s.normal && ·) ?_
    rw [Bool.eq_iff_iff, List.all_eq_true, List.all_eq_true]
    simp only [h]

/-! ### The order of additions -/

/-- Additions one after the other store the pieces of all of them, each in the space as it was at
the beginning. -/
theorem addEach_selection (s : Selection) (as : List (Addition Selection)) :
    (s.addEach as).1 = s.storeEach (as.flatMap (Addition.pieces s.size)) := by
  induction as generalizing s with
  | nil => rfl
  | cons a as ih =>
      rw [addEach_cons, ih, add_size, add_selection, List.flatMap_cons, storeEach_append]

/-- Each of many additions is answered as if it were the only one. -/
theorem addEach_verdicts (s : Selection) (as : List (Addition Selection)) :
    (s.addEach as).2 = as.map fun a => (s.add a).2 := by
  induction as generalizing s with
  | nil => rfl
  | cons a as ih =>
      rw [addEach_cons, ih, List.map_cons]
      -- the answers depend on the size alone, and that has not changed
      simp only [add_verdict, add_size]

/-- **Additions may be made in any order.**  Whatever is stored already, and whether or not some of
them are refused as a whole or in part, each addition is answered in one order as it is in another,
namely as if it were the only one; and the selection at the end is the same in all its parts. -/
theorem addEach_perm (s : Selection) {as bs : List (Addition Selection)} (h : as.Perm bs) :
    (s.addEach as).1 = (s.addEach bs).1 ∧
      (s.addEach as).2 = as.map (fun a => (s.add a).2) ∧
      (s.addEach bs).2 = bs.map (fun a => (s.add a).2) := by
  refine ⟨?_, s.addEach_verdicts as, s.addEach_verdicts bs⟩
  rw [addEach_selection, addEach_selection]
  refine s.storeEach_congr ?_
  intro u
  exact (h.flatMap_right (Addition.pieces s.size)).mem_iff

/-- Additions of all kinds to a complete selection, forwards and backwards.  One of them is refused,
another in part; the others bring in what is an element already, but not stored as an index. -/
theorem addEach_perm_backwards :
    ([.point 3, .span 8 20, .points [4, 30, 2], .all (complete 6)] :
        List (Addition Selection)).Perm
        [.all (complete 6), .points [4, 30, 2], .span 8 20, .point 3] ∧
      ((complete 10).addEach [.point 3, .span 8 20, .points [4, 30, 2], .all (complete 6)]).1 =
        ((complete 10).addEach
          [.all (complete 6), .points [4, 30, 2], .span 8 20, .point 3]).1 := by
  have hperm := (List.reverse_perm
    ([.point 3, .span 8 20, .points [4, 30, 2], .all (complete 6)] :
      List (Addition Selection))).symm
  exact ⟨hperm, ((complete 10).addEach_perm hperm).1⟩

/-! ### The mark after an addition -/

/-- **The same entries are stored**, in both containers. -/
structure SameEntries (s t : Selection) : Prop where
  spans_eq : s.spans = t.spans
  points_eq : s.points = t.points

instance (s t : Selection) : Decidable (s.SameEntries t) :=
  decidable_of_iff (s.spans = t.spans ∧ s.points = t.points)
    ⟨fun h => ⟨h.1, h.2⟩, fun h => ⟨h.spans_eq, h.points_eq⟩⟩

variable {a : Addition Selection}

/-- The elements are read off the entries. -/
theorem SameEntries.mem_iff (h : s.SameEntries t) {i : UInt32} : i ∈ s ↔ i ∈ t := by
  rw [mem_def, mem_def, h.spans_eq, h.points_eq]

/-- Storing pieces that are all there already changes nothing. -/
theorem storeEach_of_all_holds {pieces : List Span} (h : pieces.all s.holds = true) :
    s.storeEach pieces = s := by
  induction pieces with
  | nil => rfl
  | cons u pieces ih =>
      rw [List.all_cons, Bool.and_eq_true] at h
      rw [storeEach_cons, store_of_holds h.1, ih h.2]

/-- **The containers stay as they are exactly if all pieces are there already.** -/
theorem sameEntries_storeEach_iff {pieces : List Span} :
    (s.storeEach pieces).SameEntries s ↔ pieces.all s.holds = true := by
  constructor
  · intro h
    rw [List.all_eq_true]
    intro u hu
    unfold holds
    split
    next hlen =>
      have hmem : u.lo ∈ (s.storeEach pieces).points :=
        mem_points_storeEach.2 (.inr ⟨u, hu, hlen, rfl⟩)
      rwa [h.points_eq, ← Std.ExtTreeSet.contains_iff_mem] at hmem
    next hlen =>
      have hmem : u ∈ (s.storeEach pieces).spans := mem_spans_storeEach.2 (.inr ⟨hu, hlen⟩)
      rwa [h.spans_eq, ← Std.ExtTreeSet.contains_iff_mem] at hmem
  · intro h
    rw [storeEach_of_all_holds h]
    exact ⟨rfl, rfl⟩

/-- **The mark is left exactly if the containers are.** -/
theorem normal_add_iff :
    (s.add a).1.normal = true ↔ s.normal = true ∧ (s.add a).1.SameEntries s := by
  rw [add_selection, normal_storeEach, Bool.and_eq_true, sameEntries_storeEach_iff]

/-- A resize leaves the mark as it is, whether it is made or refused. -/
theorem normal_edit_resize (s : Selection) (size : UInt32) :
    (s.edit (.resize size)).selection.normal = s.normal := by
  cases h : s.isEmpty with
  | true => rw [edit_resize_of_isEmpty h]
  | false => rw [edit_resize_of_not_isEmpty h]

/-- An addition that leaves the containers as they are changes nothing. -/
theorem add_eq_self_of_sameEntries (h : (s.add a).1.SameEntries s) : (s.add a).1 = s := by
  rw [add_selection] at h ⊢
  exact storeEach_of_all_holds (sameEntries_storeEach_iff.1 h)

/-- **An addition that brings in a new element takes the mark away.** -/
theorem WellFormed.normal_add_of_new (h : s.WellFormed) (ha : ∀ u ∈ a.refs, u.WellFormed)
    {i : UInt32} (hold : s.contains i = false) (hnew : (s.add a).1.contains i = true) :
    (s.add a).1.normal = false := by
  rw [← Bool.not_eq_true, normal_add_iff]
  rintro ⟨-, hsame⟩
  have hmem : i ∈ s := hsame.mem_iff.1 ((h.add ha).contains_iff.1 hnew)
  rw [h.contains_iff.2 hmem] at hold
  cases hold

end IndexSpace.Selection
