/-
**What is refused, and what a refusal leaves behind.**

Two bounds can be at fault in more than one way: a pair in the wrong order may lie outside the space
as well, and equal bounds may lie anywhere.  The order of the checks settles which fault is named,
and undoing that order gives each answer a condition of its own.  The conditions exclude one another
and leave no pair of bounds out.  Bounds that are refused leave the selection as it was.

A list of indices can be refused halfway.  It is taken up to the first index outside the space, that
one included, and what then is stored is what the indices before it would have left by themselves.
All of this comes down to one rule: a list in two parts is taken like the first part, and then, if
that went through, like the second.

The elements of another selection are brought in all at once or not at all.  Before that, only one
index is looked at: the greatest of them.  If it lies within the space, so do all others, and the
runs that make up the elements can be stored one after the other without a further check.  If it
does not, it is named in the refusal, and nothing has been stored yet.  This rests on two facts: the
greatest stored bound is the greatest element, however the entries overlap, and the runs cover the
elements and end no later than they do.

Main definitions:

* `IndexSpace.SpanAnswer` — **the answers that bounds can get**, each under its condition;
* `IndexSpace.FirstOutside` — the first index of a list that lies outside a space, and where it
  stands;
* `IndexSpace.Selection.Intake.followedBy` — going on with more indices, unless one was refused;
* `IndexSpace.Selection.FitsIn` — all elements of a selection lie within a space;
* `IndexSpace.Selection.Joins` — what it is for a selection to join the elements of two others.

Main results:

* `IndexSpace.verdict_span_iff` — the answers are given under these conditions;
* `IndexSpace.Selection.addPoints_append` — **a list in two parts is taken part by part**;
* `IndexSpace.Selection.addPoints_of_firstOutside` — so it stops at the first index outside;
* `IndexSpace.Selection.refusals_exact` — **every refusal is told exactly**, with what it leaves;
* `IndexSpace.Selection.WellFormed.add_all_of_fitsIn`,
  `IndexSpace.Selection.WellFormed.add_all_of_not_fitsIn` — a selection that fits is stored run by
  run, and one that does not is refused by its greatest element;
* `IndexSpace.Selection.add_all_or_nothing` — **bringing in another selection does it completely, or
  changes nothing**.
-/

import IndexSpace.Proofs.Selection.Pieces

set_option relaxedAutoImplicit false
set_option autoImplicit false

namespace IndexSpace

/-! ### Bounds -/

/-- **The answers that two bounds can get** in a space of `size` indices, each under the condition
that leads to it. -/
inductive SpanAnswer (size lo hi : UInt32) : Option Refusal → Prop
  | empty : lo = hi → SpanAnswer size lo hi none
  | within : lo < hi → hi ≤ size → SpanAnswer size lo hi none
  | lower : lo ≠ hi → size ≤ lo → SpanAnswer size lo hi (some (.outside lo size))
  | upper : lo < size → size < hi → SpanAnswer size lo hi (some (.outside hi size))
  | reversed : hi < lo → lo < size → SpanAnswer size lo hi (some (.reversed lo hi))

/-- **Bounds are answered under these conditions**, although the checks are made one after the
other. -/
theorem verdict_span_iff {size lo hi : UInt32} {answer : Option Refusal} :
    (Addition.span lo hi).verdict size = .whole answer ↔ SpanAnswer size lo hi answer := by
  rw [Addition.verdict, Verdict.whole.injEq]
  constructor
  · -- a check that is passed takes its fault away from all answers that are given later
    rintro rfl
    split_ifs with heq hlo hhi hrev
    · exact .empty heq
    · exact .lower heq hlo
    · exact .upper (UInt32.not_le.1 hlo) hhi
    · exact .reversed hrev (UInt32.not_le.1 hlo)
    · exact .within (UInt32.lt_of_le_of_ne (UInt32.not_lt.1 hrev) heq) (UInt32.not_lt.1 hhi)
  · intro h
    cases h with
    | empty heq => rw [if_pos heq]
    | within hlt hle =>
        have hlo : ¬ size ≤ lo := UInt32.not_le.2 (UInt32.lt_of_lt_of_le hlt hle)
        rw [if_neg (UInt32.ne_of_lt hlt), if_neg hlo, if_neg (UInt32.not_lt.2 hle),
          if_neg (UInt32.lt_asymm hlt)]
    | lower hne hle => rw [if_neg hne, if_pos hle]
    | upper hlo hhi =>
        rw [if_neg (UInt32.ne_of_lt (UInt32.lt_trans hlo hhi)), if_neg (UInt32.not_le.2 hlo),
          if_pos hhi]
    | reversed hrev hlo =>
        have hhi : ¬ size < hi := UInt32.lt_asymm (UInt32.lt_trans hrev hlo)
        rw [if_neg (UInt32.ne_of_lt hrev).symm, if_neg (UInt32.not_le.2 hlo), if_neg hhi,
          if_pos hrev]

section

variable {size lo hi : UInt32}

theorem spanAnswer_none_iff : SpanAnswer size lo hi none ↔ lo = hi ∨ lo < hi ∧ hi ≤ size := by
  constructor
  · intro h
    cases h with
    | empty heq => exact .inl heq
    | within hlt hle => exact .inr ⟨hlt, hle⟩
  · rintro (heq | ⟨hlt, hle⟩)
    · exact .empty heq
    · exact .within hlt hle

theorem spanAnswer_outside_lo_iff :
    SpanAnswer size lo hi (some (.outside lo size)) ↔ lo ≠ hi ∧ size ≤ lo := by
  constructor
  · intro h
    generalize hr : Refusal.outside lo size = r at h
    cases h with
    | lower hne hle => exact ⟨hne, hle⟩
    | upper hlo hhi =>
        -- the upper bound would have to be the lower one as well
        obtain ⟨rfl, -⟩ := Refusal.outside.inj hr
        exact absurd hhi (UInt32.lt_asymm hlo)
    | reversed => cases hr
  · rintro ⟨hne, hle⟩
    exact .lower hne hle

theorem spanAnswer_outside_hi_iff :
    SpanAnswer size lo hi (some (.outside hi size)) ↔ lo < size ∧ size < hi := by
  constructor
  · intro h
    generalize hr : Refusal.outside hi size = r at h
    cases h with
    | lower hne =>
        obtain ⟨rfl, -⟩ := Refusal.outside.inj hr
        exact absurd rfl hne
    | upper hlo hhi => exact ⟨hlo, hhi⟩
    | reversed => cases hr
  · rintro ⟨hlo, hhi⟩
    exact .upper hlo hhi

theorem spanAnswer_reversed_iff :
    SpanAnswer size lo hi (some (.reversed lo hi)) ↔ hi < lo ∧ lo < size := by
  constructor
  · intro h
    cases h with
    | reversed hrev hlo => exact ⟨hrev, hlo⟩
  · rintro ⟨hrev, hlo⟩
    exact .reversed hrev hlo

end

/-! ### Lists of indices -/

/-- If all indices lie within the space, the longest initial part that does so is the list. -/
theorem takeWhile_lt_eq_self {size : UInt32} {is : List UInt32} (h : ∀ i ∈ is, i < size) :
    is.takeWhile (fun i => decide (i < size)) = is :=
  List.takeWhile_eq_self_iff.2 fun i hi => decide_eq_true (h i hi)

/-- **The first index of a list that lies outside a space**, and its position. -/
structure FirstOutside (size : UInt32) (is : List UInt32) (k : Nat) (i : UInt32) : Prop where
  at_position : is[k]? = some i
  outside : size ≤ i
  before : ∀ j ∈ is.take k, j < size

/-- If not all indices lie within the space, there is a first one that does not. -/
theorem exists_firstOutside {size : UInt32} {is : List UInt32} (h : ¬ ∀ i ∈ is, i < size) :
    ∃ k i, FirstOutside size is k i := by
  induction is with
  | nil => simp at h
  | cons i is ih =>
      by_cases hi : i < size
      · have his : ¬ ∀ j ∈ is, j < size := fun hall => h (List.forall_mem_cons.2 ⟨hi, hall⟩)
        obtain ⟨k, j, hat, hj, hbefore⟩ := ih his
        refine ⟨k + 1, j, by simpa using hat, hj, ?_⟩
        rw [List.take_succ_cons, List.forall_mem_cons]
        exact ⟨hi, hbefore⟩
      · exact ⟨0, i, rfl, UInt32.not_lt.1 hi, by simp⟩

/-- The list is what comes before that index, the index, and what comes after it. -/
theorem FirstOutside.eq_append {size i : UInt32} {is : List UInt32} {k : Nat}
    (h : FirstOutside size is k i) : is = is.take k ++ i :: is.drop (k + 1) := by
  obtain ⟨hlt, hi⟩ := List.getElem?_eq_some_iff.1 h.at_position
  rw [← hi, ← List.drop_eq_getElem_cons hlt, List.take_append_drop]

namespace Selection

/-- **Going on with more indices**, unless one was refused already. -/
def Intake.followedBy (o : Intake) (is : List UInt32) : Intake :=
  match o.refusal with
  | some _ => o
  | none =>
      { selection := (o.selection.addPoints is).selection
        taken := o.taken + (o.selection.addPoints is).taken
        refusal := (o.selection.addPoints is).refusal }

/-- **A list in two parts is taken part by part.** -/
theorem addPoints_append (s : Selection) (is js : List UInt32) :
    s.addPoints (is ++ js) = (s.addPoints is).followedBy js := by
  induction is generalizing s with
  | nil => simp [Intake.followedBy]
  | cons i is ih =>
      rw [List.cons_append, addPoints_cons, addPoints_cons, ih]
      by_cases hi : i < s.size
      · rw [if_pos hi, if_pos hi]
        -- whether the second part is looked at depends on the refusals in the first one alone
        cases hr : ((s.storePoint i).addPoints is).refusal with
        | some r => simp [Intake.followedBy, hr]
        | none => simp [Intake.followedBy, hr, Nat.add_right_comm]
      · rw [if_neg hi, if_neg hi]
        rfl

/-- Indices within the space are all taken. -/
theorem addPoints_of_forall_lt {s : Selection} {is : List UInt32} (h : ∀ i ∈ is, i < s.size) :
    (s.addPoints is).taken = is.length ∧ (s.addPoints is).refusal = none := by
  have hdrop : is.dropWhile (fun i => decide (i < s.size)) = [] :=
    List.dropWhile_eq_nil_iff.2 fun i hi => decide_eq_true (h i hi)
  rw [addPoints_taken, addPoints_refusal, takeWhile_lt_eq_self h, hdrop]
  exact ⟨rfl, rfl⟩

@[simp] theorem addPoints_size (s : Selection) (is : List UInt32) :
    (s.addPoints is).selection.size = s.size := by
  rw [addPoints_selection, storeEach_size]

/-- **A list is taken up to the first index outside the space**, that one included, and leaves what
the indices before it leave. -/
theorem addPoints_of_firstOutside {s : Selection} {is : List UInt32} {k : Nat} {i : UInt32}
    (h : FirstOutside s.size is k i) :
    s.addPoints is =
      ⟨(s.addPoints (is.take k)).selection, k + 1, some (.outside i s.size)⟩ := by
  obtain ⟨htaken, hrefusal⟩ := addPoints_of_forall_lt h.before
  have hk : (is.take k).length = k :=
    List.length_take_of_le (Nat.le_of_lt (List.getElem?_eq_some_iff.1 h.at_position).1)
  have hi : ¬ i < s.size := UInt32.not_lt.2 h.outside
  -- the indices before it go through, and then the first of the others is refused
  rw [congrArg s.addPoints h.eq_append, addPoints_append, Intake.followedBy, hrefusal]
  simp only [addPoints_cons, addPoints_size, hi, if_false, htaken, hk]

theorem refusal_eq_none_iff {s : Selection} {is : List UInt32} :
    (s.addPoints is).refusal = none ↔ ∀ i ∈ is, i < s.size := by
  constructor
  · intro hnone
    refine Decidable.byContradiction fun hall => ?_
    obtain ⟨k, i, h⟩ := exists_firstOutside hall
    rw [addPoints_of_firstOutside h] at hnone
    cases hnone
  · intro h
    exact (addPoints_of_forall_lt h).2

/-- Bounds that are refused leave the selection as it was. -/
theorem add_span_selection_of_refused {s : Selection} {lo hi : UInt32}
    (h : (s.add (.span lo hi)).2 ≠ .whole none) : (s.add (.span lo hi)).1 = s := by
  have hpieces : ¬ (lo < hi ∧ hi ≤ s.size) := by
    rintro ⟨hlt, hle⟩
    rw [add_verdict] at h
    exact h (verdict_span_iff.2 (.within hlt hle))
  rw [add_selection, Addition.pieces, if_neg hpieces, storeEach_nil]

/-- **Every refusal is told exactly, with what it leaves behind**, whatever is stored.  Bounds go
through if they are equal or those of a span within the space; a lower bound outside the space is
named before an upper one, and either of them before bounds in the wrong order; and refused bounds
change nothing.  A list of indices goes through if all of them lie within the space, and then all
have been looked at.  Otherwise the first one outside is named, it is the last one looked at, and
what is stored is what those before it leave.  A list in two parts is taken like the first part and,
if no index of it was refused, like the second after it. -/
theorem refusals_exact (s : Selection) (lo hi : UInt32) (is js : List UInt32) :
    ((s.add (.span lo hi)).2 = .whole none ↔ lo = hi ∨ lo < hi ∧ hi ≤ s.size) ∧
      ((s.add (.span lo hi)).2 = .whole (some (.outside lo s.size)) ↔ lo ≠ hi ∧ s.size ≤ lo) ∧
      ((s.add (.span lo hi)).2 = .whole (some (.outside hi s.size)) ↔
        lo < s.size ∧ s.size < hi) ∧
      ((s.add (.span lo hi)).2 = .whole (some (.reversed lo hi)) ↔ hi < lo ∧ lo < s.size) ∧
      ((s.add (.span lo hi)).2 ≠ .whole none → (s.add (.span lo hi)).1 = s) ∧
      ((s.addPoints is).refusal = none ↔ ∀ i ∈ is, i < s.size) ∧
      ((s.addPoints is).refusal = none → (s.addPoints is).taken = is.length) ∧
      ((s.addPoints is).refusal ≠ none → ∃ k i, FirstOutside s.size is k i ∧
        s.addPoints is =
          ⟨(s.addPoints (is.take k)).selection, k + 1, some (.outside i s.size)⟩) ∧
      s.addPoints (is ++ js) = (s.addPoints is).followedBy js := by
  rw [add_verdict, verdict_span_iff, verdict_span_iff, verdict_span_iff, verdict_span_iff]
  refine ⟨spanAnswer_none_iff, spanAnswer_outside_lo_iff, spanAnswer_outside_hi_iff,
    spanAnswer_reversed_iff, ?_, refusal_eq_none_iff, ?_, ?_, s.addPoints_append is js⟩
  · rw [← add_verdict]
    exact add_span_selection_of_refused
  · intro hnone
    exact (addPoints_of_forall_lt (refusal_eq_none_iff.1 hnone)).1
  · intro hsome
    obtain ⟨k, i, h⟩ := exists_firstOutside fun hall => hsome (refusal_eq_none_iff.2 hall)
    exact ⟨k, i, h, addPoints_of_firstOutside h⟩

/-- Of five indices the third lies outside the space: the two before it are stored, and one of those
after it would have been within the space. -/
example :
    ((empty 9).addPoints [4, 0, 9, 2, 70]).selection = ((empty 9).addPoints [4, 0]).selection ∧
      ((empty 9).addPoints [4, 0, 9, 2, 70]).taken = 3 := by
  decide +kernel

/-! ### What fits into a space -/

/-- Every index that is found in the selection lies within a space of `size` indices. -/
def FitsIn (t : Selection) (size : UInt32) : Prop := ∀ i, t.contains i = true → i < size

theorem WellFormed.fitsIn_iff {t : Selection} (ht : t.WellFormed) {size : UInt32} :
    t.FitsIn size ↔ ∀ i ∈ t, i < size := by
  simp only [FitsIn, ht.contains_iff]

/-- **`u` joins the elements of `t` to those of `s`**, in the space of `s`.  The entries of `s` are
still there, and those that have come in lie within the space. -/
structure Joins (u s t : Selection) : Prop where
  size_eq : u.size = s.size
  contains_eq : ∀ i, u.contains i = (s.contains i || t.contains i)
  spans_kept : ∀ v ∈ s.spans, v ∈ u.spans
  points_kept : ∀ i ∈ s.points, i ∈ u.points
  spans_within : ∀ v ∈ u.spans, v ∈ s.spans ∨ v.Within s.size
  points_within : ∀ i ∈ u.points, i ∈ s.points ∨ i < s.size
  eq_of_no_element : (∀ i, t.contains i = false) → u = s

namespace WellFormed

variable {s t : Selection}

/-- **What fits is stored run by run.** -/
theorem add_all_of_fitsIn (ht : t.WellFormed) (h : t.FitsIn s.size) :
    s.add (.all t) = (s.storeEach t.runs, .whole none) := by
  have hlt := ht.fitsIn_iff.1 h
  refine Prod.ext ?_ ?_
  · rw [add_selection, Addition.pieces, if_pos (ht.all_last?_iff.2 hlt)]
  · rw [add_verdict, Addition.verdict, ht.filter_last?_eq_none_iff.2 hlt]
    rfl

/-- **What does not fit is refused by its greatest element**, which lies outside the space. -/
theorem add_all_of_not_fitsIn (ht : t.WellFormed) (h : ¬ t.FitsIn s.size) :
    ∃ i, t.contains i = true ∧ (∀ j, t.contains j = true → j ≤ i) ∧
      s.add (.all t) = (s, .whole (some (.outside i s.size))) := by
  have hall : ¬ t.last?.all (fun i => decide (i < s.size)) = true := fun hall =>
    h (ht.fitsIn_iff.2 (ht.all_last?_iff.1 hall))
  cases hlast : t.last? with
  | none => simp [hlast] at hall
  | some i =>
      obtain ⟨hi, hmax⟩ := ht.last?_eq_some_iff_mem.1 hlast
      have hle : s.size ≤ i := by simpa [hlast] using hall
      refine ⟨i, ht.contains_iff.2 hi, fun j hj => hmax j (ht.contains_iff.1 hj), ?_⟩
      refine Prod.ext ?_ ?_
      · rw [add_selection, Addition.pieces, if_neg hall]
        rfl
      · rw [add_verdict, Addition.verdict, hlast]
        simp [Option.filter, hle]

/-- A selection without elements has no runs. -/
theorem runs_eq_nil (ht : t.WellFormed) (h : ∀ i, t.contains i = false) : t.runs = [] := by
  refine List.eq_nil_iff_forall_not_mem.2 ?_
  intro v hv
  have hlo : t.contains v.lo = true :=
    ht.contains_iff_covers_runs.2 ⟨v, hv, (ht.separated_runs.1 v hv).lo_mem⟩
  rw [h v.lo] at hlo
  cases hlo

/-- Storing the runs of a selection that fits joins its elements. -/
theorem joins_storeEach_runs (hs : s.WellFormed) (ht : t.WellFormed) (h : t.FitsIn s.size) :
    (s.storeEach t.runs).Joins s t := by
  have hruns := ht.within_runs (ht.fitsIn_iff.1 h)
  have hwf : (s.storeEach t.runs).WellFormed := hs.storeEach hruns
  refine ⟨s.storeEach_size _, fun i => ?_, fun v hv => ?_, fun i hi => ?_, fun v hv => ?_,
    fun i hi => ?_, fun hnone => ?_⟩
  · rw [Bool.eq_iff_iff, Bool.or_eq_true, hwf.contains_iff, hs.contains_iff, ht.contains_iff,
      mem_storeEach ht.separated_runs.1, ht.covers_runs, or_comm]
  · exact mem_spans_storeEach.2 (.inl hv)
  · exact mem_points_storeEach.2 (.inl hi)
  · exact (mem_spans_storeEach.1 hv).imp_right fun hnew => hruns v hnew.1
  · refine (mem_points_storeEach.1 hi).imp_right ?_
    rintro ⟨v, hv, -, rfl⟩
    exact UInt32.lt_of_lt_of_le (hruns v hv).1 (hruns v hv).2
  · rw [ht.runs_eq_nil hnone, storeEach_nil]

end WellFormed

/-- **Bringing in another selection does it completely, or changes nothing.**  It goes through
exactly if every element of the other selection lies within the space, whatever the sizes of the two
spaces and however the two are stored; then the elements are joined.  Otherwise the greatest element
of the other selection is named together with the size of the space, and the selection is the same
in all its parts. -/
theorem add_all_or_nothing {s t : Selection} (hs : s.Reachable) (ht : t.Reachable) :
    ((s.add (.all t)).2 = .whole none ↔ ∀ i, t.contains i = true → i < s.size) ∧
      ((s.add (.all t)).2 = .whole none → (s.add (.all t)).1.Joins s t) ∧
      ((s.add (.all t)).2 ≠ .whole none →
        ∃ i, t.contains i = true ∧ (∀ j, t.contains j = true → j ≤ i) ∧
          s.add (.all t) = (s, .whole (some (.outside i s.size)))) := by
  have hsw := hs.wellFormed
  have htw := ht.wellFormed
  by_cases h : t.FitsIn s.size
  · rw [htw.add_all_of_fitsIn h]
    exact ⟨iff_of_true rfl h, fun _ => hsw.joins_storeEach_runs htw h, fun hne => absurd rfl hne⟩
  · obtain ⟨i, hi, hmax, hadd⟩ := htw.add_all_of_not_fitsIn h
    have hne : ¬ (s.add (.all t)).2 = .whole none := by simp [hadd]
    exact ⟨iff_of_false hne h, fun heq => absurd heq hne, fun _ => ⟨i, hi, hmax, hadd⟩⟩

/-- An index and nested spans, the one that comes first in order reaching farthest.  They fit into a
space of nine indices that holds some of them already. -/
theorem add_all_or_nothing_nested :
    ((empty 9).add (.points [8, 0])).1.Reachable ∧
      ((((empty 20).add (.span 1 9)).1.add (.span 3 5)).1.add (.point 4)).1.Reachable ∧
      (((empty 9).add (.points [8, 0])).1.add (.all
        ((((empty 20).add (.span 1 9)).1.add (.span 3 5)).1.add (.point 4)).1)).1.Joins
        ((empty 9).add (.points [8, 0])).1
        ((((empty 20).add (.span 1 9)).1.add (.span 3 5)).1.add (.point 4)).1 := by
  have hs : ((empty 9).add (.points [8, 0])).1.Reachable :=
    (Reachable.empty 9).add (by simp [Addition.refs])
  have ht : ((((empty 20).add (.span 1 9)).1.add (.span 3 5)).1.add (.point 4)).1.Reachable := by
    refine (((Reachable.empty 20).add ?_).add ?_).add ?_ <;> simp [Addition.refs]
  have hok : (((empty 9).add (.points [8, 0])).1.add (.all
      ((((empty 20).add (.span 1 9)).1.add (.span 3 5)).1.add (.point 4)).1)).2 = .whole none := by
    decide +kernel
  exact ⟨hs, ht, (add_all_or_nothing hs ht).2.1 hok⟩

end Selection

end IndexSpace
