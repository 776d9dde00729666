/-
**The indices between two bounds may be added in any pieces.**

What additions leave behind is told by the indices that they bring in.  The pieces may be spans that
overlap, nest or touch, or single indices; they may come in any order and more than once; and the
selection to which they are added may hold some of them already.  They end up in different
containers, and so the stored forms differ, but the selections agree, and normalization leads to the
same stored form.  The indices between two bounds are a case of this: they may be added by their
bounds, by a list of them, or by any bounds whose spans make them up.

Only in two cases is the stored form itself the same: a span of one index is stored as that index,
and equal bounds add nothing at all, even where they lie outside the space.

Main definitions:

* `IndexSpace.Addition.eachSpan` — the additions of some spans by their bounds.

Main results:

* `IndexSpace.Selection.WellFormed.equivalent_addEach` — **additions that bring in the same indices
  lead to the same elements**;
* `IndexSpace.exists_covers_pieces_eachSpan_iff` — spans within the space bring in what they cover;
* `IndexSpace.Selection.add_span_succ`, `IndexSpace.Selection.add_span_self` — the two cases in
  which the stored form is the same;
* `IndexSpace.Selection.add_span_in_pieces` — **a span may be added in any pieces**.
-/

import IndexSpace.Proofs.Selection.Agreement
import IndexSpace.Proofs.Selection.Meaning
import IndexSpace.Proofs.Selection.Rearrangement
import IndexSpace.Proofs.Selection.Refused

set_option relaxedAutoImplicit false
set_option autoImplicit false

namespace IndexSpace

/-! ### What additions bring in -/

theorem Span.covers_flatMap {α : Type} {l : List α} {f : α → List Span} {i : UInt32} :
    Covers (l.flatMap f) i ↔ ∃ a ∈ l, Covers (f a) i := by
  constructor
  · rintro ⟨t, ht, hi⟩
    obtain ⟨a, ha, hta⟩ := List.mem_flatMap.1 ht
    exact ⟨a, ha, t, hta, hi⟩
  · rintro ⟨a, ha, t, hta, hi⟩
    exact ⟨t, List.mem_flatMap.2 ⟨a, ha, hta⟩, hi⟩

/-- **The additions of some spans by their bounds**, one after the other. -/
def Addition.eachSpan (family : List Span) : List (Addition Selection) :=
  family.map fun t => .span t.lo t.hi

theorem Addition.refs_eq_nil_of_mem_eachSpan {family : List Span} {a : Addition Selection}
    (h : a ∈ eachSpan family) : a.refs = [] := by
  obtain ⟨t, -, rfl⟩ := List.mem_map.1 h
  rfl

/-- **Spans within the space bring in what they cover.**  Bounds that enclose no index cover
nothing, and bring in nothing, whether they are refused or not. -/
theorem exists_covers_pieces_eachSpan_iff {family : List Span} {size i : UInt32}
    (h : ∀ t ∈ family, t.Proper → t.hi ≤ size) :
    (∃ a ∈ Addition.eachSpan family, Span.Covers (a.pieces size) i) ↔ Span.Covers family i := by
  constructor
  · rintro ⟨a, ha, hi⟩
    obtain ⟨t, ht, rfl⟩ := List.mem_map.1 ha
    exact ⟨t, ht, (covers_pieces_span.1 hi).2⟩
  · rintro ⟨t, ht, hi⟩
    have hproper : t.Proper := UInt32.lt_of_le_of_lt hi.1 hi.2
    refine ⟨.span t.lo t.hi, List.mem_map.2 ⟨t, ht, rfl⟩, ?_⟩
    exact covers_pieces_span.2 ⟨⟨hproper, h t ht hproper⟩, hi⟩

namespace Selection

variable {s : Selection}

theorem proper_of_mem_flatMap_pieces (size : UInt32) {as : List (Addition Selection)}
    (has : ∀ a ∈ as, ∀ t ∈ a.refs, t.WellFormed) :
    ∀ t ∈ as.flatMap (Addition.pieces size), t.Proper ∧ t.hi ≤ size := by
  intro t ht
  obtain ⟨a, ha, hta⟩ := List.mem_flatMap.1 ht
  exact proper_of_mem_pieces (has a ha) t hta

/-- **Additions that bring in the same indices lead to the same elements**, whatever is stored
already. -/
theorem WellFormed.equivalent_addEach (h : s.WellFormed) {as bs : List (Addition Selection)}
    (has : ∀ a ∈ as, ∀ t ∈ a.refs, t.WellFormed) (hbs : ∀ b ∈ bs, ∀ t ∈ b.refs, t.WellFormed)
    (hsame : ∀ i, (∃ a ∈ as, Span.Covers (a.pieces s.size) i) ↔
      ∃ b ∈ bs, Span.Covers (b.pieces s.size) i) :
    (s.addEach as).1.Equivalent (s.addEach bs).1 := by
  have hleft := proper_of_mem_flatMap_pieces s.size has
  have hright := proper_of_mem_flatMap_pieces s.size hbs
  rw [addEach_selection, addEach_selection]
  refine ⟨h.storeEach hleft, h.storeEach hright, ?_, fun i => ?_⟩
  · rw [storeEach_size, storeEach_size]
  · rw [mem_storeEach fun t ht => (hleft t ht).1, mem_storeEach fun t ht => (hright t ht).1,
      Span.covers_flatMap, Span.covers_flatMap, hsame i]

/-! ### The same stored form -/

/-- **A span of one index is added like that index.**  Both are refused alike outside the space, and
the top index lies outside every space. -/
theorem add_span_succ (s : Selection) (i : UInt32) :
    s.add (.span i (i + 1)) = s.add (.point i) := by
  by_cases hi : i < s.size
  · have hwithin : i < i + 1 ∧ i + 1 ≤ s.size := Span.unit_within hi
    refine Prod.ext ?_ ?_
    · rw [add_selection, add_selection, Addition.pieces, Addition.pieces, if_pos hwithin, if_pos hi]
      rfl
    · rw [add_verdict, add_verdict, verdict_span_iff.2 (.within hwithin.1 hwithin.2),
        Addition.verdict, if_pos hi]
  · have hne : i ≠ i + 1 := by
      rw [Ne, ← UInt32.toNat_inj, UInt32.toNat_add, UInt32.toNat_one]
      have := i.toNat_lt
      omega
    have hspan : (s.add (.span i (i + 1))).2 = .whole (some (.outside i s.size)) := by
      rw [add_verdict]
      exact verdict_span_iff.2 (.lower hne (UInt32.not_lt.1 hi))
    have hrefused : (s.add (.span i (i + 1))).2 ≠ .whole none := by simp [hspan]
    refine Prod.ext ?_ ?_
    · rw [add_span_selection_of_refused hrefused, add_selection, Addition.pieces, if_neg hi,
        storeEach_nil]
    · rw [hspan, add_verdict, Addition.verdict, if_neg hi]

/-- **Equal bounds add nothing**, and are not refused anywhere. -/
theorem add_span_self (s : Selection) (i : UInt32) : s.add (.span i i) = (s, .whole none) := by
  rw [add, addSpan, if_pos rfl, attempt_ok]

/-! ### Any pieces -/

section

variable {lo hi : UInt32}

/-- Whatever brings in the indices between two bounds does as well as the bounds. -/
theorem WellFormed.equivalent_add_span (h : s.WellFormed) (hlt : lo < hi) (hle : hi ≤ s.size)
    {as : List (Addition Selection)} (has : ∀ a ∈ as, ∀ t ∈ a.refs, t.WellFormed)
    (hcov : ∀ i, (∃ a ∈ as, Span.Covers (a.pieces s.size) i) ↔ lo ≤ i ∧ i < hi) :
    (s.add (.span lo hi)).1.Equivalent (s.addEach as).1 := by
  have hself : ∀ a ∈ [(.span lo hi : Addition Selection)], ∀ t ∈ a.refs, t.WellFormed := by
    simp [Addition.refs]
  have hspan : ∀ i, (∃ a ∈ [(.span lo hi : Addition Selection)], Span.Covers (a.pieces s.size) i) ↔
      lo ≤ i ∧ i < hi := by
    intro i
    simp only [List.mem_singleton, exists_eq_left, covers_pieces_span]
    exact and_iff_right ⟨hlt, hle⟩
  exact h.equivalent_addEach hself has fun i => (hspan i).trans (hcov i).symm

/-- A list of the indices between the bounds does. -/
theorem WellFormed.equivalent_add_points (h : s.WellFormed) (hlt : lo < hi) (hle : hi ≤ s.size)
    {is : List UInt32} (his : ∀ i, i ∈ is ↔ lo ≤ i ∧ i < hi) :
    (s.add (.span lo hi)).1.Equivalent (s.add (.points is)).1 := by
  have hall : ∀ i ∈ is, i < s.size := fun i hi => UInt32.lt_of_lt_of_le ((his i).1 hi).2 hle
  have hself : ∀ a ∈ [(.points is : Addition Selection)], ∀ t ∈ a.refs, t.WellFormed := by
    simp [Addition.refs]
  refine h.equivalent_add_span hlt hle hself ?_
  intro i
  simp only [List.mem_singleton, exists_eq_left, covers_pieces_points, takeWhile_lt_eq_self hall]
  exact his i

/-- Spans that cover something within the space end within the space. -/
theorem hi_le_size_of_covers_iff (hle : hi ≤ s.size) {family : List Span}
    (hfamily : ∀ i, Span.Covers family i ↔ lo ≤ i ∧ i < hi) :
    ∀ t ∈ family, t.Proper → t.hi ≤ s.size := by
  intro t ht hproper
  have hend : t.hi ≤ hi := hproper.hi_le_of_forall_lt fun i hit =>
    ((hfamily i).1 ⟨t, ht, hit⟩).2
  exact UInt32.le_trans hend hle

/-- And so do spans that cover exactly these indices. -/
theorem WellFormed.equivalent_addEach_eachSpan (h : s.WellFormed) (hlt : lo < hi)
    (hle : hi ≤ s.size) {family : List Span}
    (hfamily : ∀ i, Span.Covers family i ↔ lo ≤ i ∧ i < hi) :
    (s.add (.span lo hi)).1.Equivalent (s.addEach (Addition.eachSpan family)).1 := by
  refine h.equivalent_add_span hlt hle ?_ ?_
  · intro a ha
    simp [Addition.refs_eq_nil_of_mem_eachSpan ha]
  · intro i
    rw [exists_covers_pieces_eachSpan_iff (hi_le_size_of_covers_iff hle hfamily), hfamily i]

/-- Of spans within the space none is refused, unless its bounds are in the wrong order. -/
theorem addEach_eachSpan_accepted {family : List Span}
    (hwithin : ∀ t ∈ family, t.Proper → t.hi ≤ s.size) (horder : ∀ t ∈ family, t.lo ≤ t.hi) :
    ∀ answer ∈ (s.addEach (Addition.eachSpan family)).2, answer = .whole none := by
  intro answer hanswer
  rw [addEach_verdicts, Addition.eachSpan, List.map_map] at hanswer
  obtain ⟨t, ht, rfl⟩ := List.mem_map.1 hanswer
  rw [Function.comp_apply, add_verdict, verdict_span_iff]
  rcases UInt32.lt_or_eq_of_le (horder t ht) with hproper | heq
  · exact .within hproper (hwithin t ht hproper)
  · exact .empty heq

end

/-- **A span may be added in any pieces.**  Let two bounds enclose some indices of the space, and
let these be added by the bounds, by a list in which they occur in any order and number, or by the
bounds of any spans, in any order, that cover them together.  Nothing is refused, as long as no
bounds are in the wrong order.  The selections agree, and once normalized they are the same in all
their parts.  A span of one index is the same as the index even without normalization, and equal
bounds leave every selection as it was, wherever they lie. -/
theorem add_span_in_pieces (hs : s.Reachable) :
    (∀ lo hi, lo < hi → hi ≤ s.size →
      (s.add (.span lo hi)).2 = .whole none ∧
        (∀ is : List UInt32, (∀ i, i ∈ is ↔ lo ≤ i ∧ i < hi) →
          (s.add (.points is)).2 = .intake is.length none ∧
            (s.add (.span lo hi)).1.agrees (s.add (.points is)).1 = true ∧
            (s.add (.span lo hi)).1.normalize = (s.add (.points is)).1.normalize) ∧
        ∀ family : List Span, (∀ i, Span.Covers family i ↔ lo ≤ i ∧ i < hi) →
          ((∀ t ∈ family, t.lo ≤ t.hi) →
            ∀ answer ∈ (s.addEach (Addition.eachSpan family)).2, answer = .whole none) ∧
            (s.add (.span lo hi)).1.agrees (s.addEach (Addition.eachSpan family)).1 = true ∧
            (s.add (.span lo hi)).1.normalize =
              (s.addEach (Addition.eachSpan family)).1.normalize) ∧
      (∀ i, s.add (.span i (i + 1)) = s.add (.point i)) ∧
      ∀ i, s.add (.span i i) = (s, .whole none) := by
  have h := hs.wellFormed
  refine ⟨fun lo hi hlt hle => ⟨?_, ?_, ?_⟩, s.add_span_succ, s.add_span_self⟩
  · rw [add_verdict]
    exact verdict_span_iff.2 (.within hlt hle)
  · intro is his
    have hequiv := h.equivalent_add_points hlt hle his
    obtain ⟨htaken, hrefusal⟩ := addPoints_of_forall_lt fun i hi =>
      UInt32.lt_of_lt_of_le ((his i).1 hi).2 hle
    refine ⟨?_, hequiv.agrees, hequiv.normalize_eq⟩
    rw [add, htaken, hrefusal]
  · intro family hfamily
    have hequiv := h.equivalent_addEach_eachSpan hlt hle hfamily
    exact ⟨addEach_eachSpan_accepted (hi_le_size_of_covers_iff hle hfamily), hequiv.agrees,
      hequiv.normalize_eq⟩

/-- Some indices are there already, partly normalized and partly not.  Those from five to ten are
added by their bounds, as a list backwards with a repetition, and as spans that nest, touch and
overlap, one of a single index among them. -/
theorem add_span_in_pieces_nested :
    (((empty 20).add (.span 2 7)).1.normalize.add (.points [11, 8])).1.Reachable ∧
      (5 : UInt32) < 11 ∧
      (11 : UInt32) ≤ (((empty 20).add (.span 2 7)).1.normalize.add (.points [11, 8])).1.size ∧
      ((((empty 20).add (.span 2 7)).1.normalize.add (.points [11, 8])).1.add
        (.span 5 11)).1.normalize =
        ((((empty 20).add (.span 2 7)).1.normalize.add (.points [11, 8])).1.add
          (.points [10, 9, 8, 9, 7, 6, 5])).1.normalize ∧
      ((((empty 20).add (.span 2 7)).1.normalize.add (.points [11, 8])).1.add
        (.span 5 11)).1.agrees
        ((((empty 20).add (.span 2 7)).1.normalize.add (.points [11, 8])).1.addEach
          (Addition.eachSpan [⟨9, 11⟩, ⟨6, 10⟩, ⟨7, 8⟩, ⟨5, 6⟩])).1 = true := by
  have hs : (((empty 20).add (.span 2 7)).1.normalize.add (.points [11, 8])).1.Reachable := by
    refine (((Reachable.empty 20).add ?_).normalize).add ?_ <;> simp [Addition.refs]
  have hlt : (5 : UInt32) < 11 := by decide
  have hle : (11 : UInt32) ≤
      (((empty 20).add (.span 2 7)).1.normalize.add (.points [11, 8])).1.size := by
    decide +kernel
  have hpoints : ∀ i : UInt32, i ∈ [10, 9, 8, 9, 7, 6, 5] ↔ 5 ≤ i ∧ i < 11 := by
    intro i
    simp only [List.mem_cons, List.not_mem_nil, or_false, ← UInt32.toNat_inj,
      UInt32.le_iff_toNat_le, UInt32.lt_iff_toNat_lt, UInt32.reduceToNat]
    omega
  have hfamily : ∀ i, Span.Covers [⟨9, 11⟩, ⟨6, 10⟩, ⟨7, 8⟩, ⟨5, 6⟩] i ↔ 5 ≤ i ∧ i < 11 := by
    intro i
    simp only [Span.covers_cons, Span.not_covers_nil, or_false, Span.mem_def,
      UInt32.le_iff_toNat_le, UInt32.lt_iff_toNat_lt, UInt32.reduceToNat]
    omega
  obtain ⟨-, hlist, hspans⟩ := (add_span_in_pieces hs).1 5 11 hlt hle
  exact ⟨hs, hlt, hle, (hlist _ hpoints).2.2, (hspans _ hfamily).2.1⟩

end Selection

end IndexSpace
