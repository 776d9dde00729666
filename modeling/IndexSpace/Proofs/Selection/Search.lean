/-
**Both ways through the spans find the same.**

With the mark, an index is looked for in a single span: the greatest one that begins at or before
it.  Without the mark, the spans are gone through in ascending order, up to the first one that
begins beyond the index.  The first way is right only if the spans are separated, since among
overlapping spans an early long one may hold what the greatest candidate does not.  The second way
is right for all spans, because no span after the one at which it stops can begin early enough.  So
wherever the mark may stand at all, it makes no difference which way it chooses, and neither way
differs from going through everything that is stored.

Main definitions:

* `IndexSpace.Selection.withMark` — the same entries, with the mark set or taken away.

Main results:

* `IndexSpace.getLE?_eq_some_iff` — the container finds the greatest entry at or below a key;
* `IndexSpace.Selection.getLE?_ceiling_eq_some_iff` — **the candidate is the greatest span that
  begins at or before the index**;
* `IndexSpace.Selection.lookup_iff_of_separated` — among separated spans the candidate decides;
* `IndexSpace.Selection.contains_withMark` — **both ways answer what a search of all entries
  answers**.
-/

import IndexSpace.Selection.Question
import IndexSpace.Proofs.RunStream.Merging

set_option relaxedAutoImplicit false
set_option autoImplicit false

namespace IndexSpace

/-! ### The greatest entry at or below a key -/

/-- The last member of an ascending list that has a property is the greatest one that has it. -/
theorem isLE_compare_of_findRev?_eq_some {α : Type} [Ord α] [Std.ReflOrd α] {l : List α}
    (h : l.Pairwise fun a b => compare a b = .lt) {p : α → Bool} {a : α}
    (hfind : l.findRev? p = some a) {b : α} (hb : b ∈ l) (hpb : p b = true) :
    (compare b a).isLE = true := by
  rw [List.findRev?_eq_find?_reverse] at hfind
  obtain ⟨-, after, before, hrev, hafter⟩ := List.find?_eq_some_iff_append.1 hfind
  have hmem : b ∈ after ++ a :: before := hrev ▸ List.mem_reverse.2 hb
  rcases List.mem_append.1 hmem with hmem | hmem
  · have hnot := hafter b hmem
    simp [hpb] at hnot
  rcases List.mem_cons.1 hmem with rfl | hmem
  · exact Std.ReflCmp.isLE_rfl
  · have hpair : (after ++ a :: before).Pairwise fun a b => compare b a = .lt := by
      rw [← hrev, List.pairwise_reverse]
      exact h
    have hlt : compare b a = .lt :=
      (List.pairwise_cons.1 (List.pairwise_append.1 hpair).2.1).1 b hmem
    rw [hlt]
    rfl

/-- **The container finds the greatest entry at or below a key**, if it has one. -/
theorem getLE?_eq_some_iff {α : Type} [Ord α] [Std.TransOrd α] [Std.LawfulEqOrd α]
    {t : Std.ExtTreeSet α} {key a : α} :
    t.getLE? key = some a ↔
      a ∈ t ∧ (compare a key).isLE = true ∧
        ∀ b ∈ t, (compare b key).isLE = true → (compare b a).isLE = true := by
  have hgreatest : ∀ c, t.getLE? key = some c →
      ∀ b ∈ t, (compare b key).isLE = true → (compare b c).isLE = true := by
    intro c hc b hb hkey
    rw [getLE?_eq_findRev?] at hc
    exact isLE_compare_of_findRev?_eq_some Std.ExtTreeSet.ordered_toList hc
      (Std.ExtTreeSet.mem_toList.2 hb) hkey
  have hfound : ∀ c, t.getLE? key = some c → c ∈ t ∧ (compare c key).isLE = true := by
    intro c hc
    rw [getLE?_eq_findRev?, List.findRev?_eq_find?_reverse] at hc
    have hmem := List.mem_reverse.1 (List.mem_of_find?_eq_some hc)
    have hkey := (List.find?_eq_some_iff_append.1 hc).1
    exact ⟨Std.ExtTreeSet.mem_toList.1 hmem, hkey⟩
  constructor
  · intro h
    exact ⟨(hfound a h).1, (hfound a h).2, hgreatest a h⟩
  · rintro ⟨ha, hkey, hmax⟩
    cases hc : t.getLE? key with
    | none =>
        rw [getLE?_eq_findRev?, List.findRev?_eq_find?_reverse] at hc
        have hnone := List.find?_eq_none.1 hc a
          (List.mem_reverse.2 (Std.ExtTreeSet.mem_toList.2 ha))
        exact absurd hkey hnone
    | some c =>
        -- two greatest entries are at or below each other
        have hle := hgreatest c hc a ha hkey
        have hge := hmax c (hfound c hc).1 (hfound c hc).2
        have heq := Std.OrientedCmp.isLE_antisymm hge hle
        rw [Std.compare_eq_iff_eq.1 heq]

/-! ### Separated spans -/

namespace Span

theorem isLE_compare_ceiling_iff {t : Span} {i : UInt32} :
    (compare t (ceiling i)).isLE = true ↔ t.lo ≤ i := by
  rw [isLE_compare_iff]
  constructor
  · rintro (h | ⟨h, -⟩)
    · exact UInt32.le_of_lt h
    · exact UInt32.le_of_eq h
  · intro h
    rcases UInt32.lt_or_eq_of_le h with h | h
    · exact .inl h
    · exact .inr ⟨h, le_top t.hi⟩

end Span

namespace Selection

theorem covers_toList_spans {s : Selection} {i : UInt32} :
    Span.Covers s.spans.toList i ↔ ∃ t ∈ s.spans, i ∈ t := by
  simp [Span.Covers, Std.ExtTreeSet.mem_toList]

/-! ### One candidate or all of them -/

/-- **The candidate is the greatest span that begins at or before the index.** -/
theorem getLE?_ceiling_eq_some_iff {s : Selection} {i : UInt32} {t : Span} :
    s.spans.getLE? (Span.ceiling i) = some t ↔
      t ∈ s.spans ∧ t.lo ≤ i ∧ ∀ u ∈ s.spans, u.lo ≤ i → (compare u t).isLE = true := by
  simp only [getLE?_eq_some_iff, Span.isLE_compare_ceiling_iff]

theorem getLE?_ceiling_eq_none_iff {s : Selection} {i : UInt32} :
    s.spans.getLE? (Span.ceiling i) = none ↔ ∀ t ∈ s.spans, ¬ t.lo ≤ i := by
  simp [getLE?_eq_findRev?, Span.isLE_compare_ceiling_iff]

/-- **Among separated spans the candidate decides.**  A lesser span ends before the candidate
begins, and so before the index. -/
theorem lookup_iff_of_separated {s : Selection} (h : Span.Separated s.spans.toList) {i : UInt32} :
    s.lookup i = true ↔ ∃ t ∈ s.spans, i ∈ t := by
  rw [lookup]
  constructor
  · intro hany
    obtain ⟨t, hfind, hi⟩ := (Option.any_eq_true _ _).1 hany
    exact ⟨t, (getLE?_ceiling_eq_some_iff.1 hfind).1, Span.contains_iff.1 hi⟩
  · rintro ⟨t, ht, hi⟩
    cases hfind : s.spans.getLE? (Span.ceiling i) with
    | none => exact absurd hi.1 (getLE?_ceiling_eq_none_iff.1 hfind t ht)
    | some u =>
        obtain ⟨hu, hui, hmax⟩ := getLE?_ceiling_eq_some_iff.1 hfind
        have hle : t.lo ≤ u.lo := Span.lo_le_of_isLE_compare (hmax t ht hi.1)
        have hcases := h.eq_or_gap (Std.ExtTreeSet.mem_toList.2 ht) (Std.ExtTreeSet.mem_toList.2 hu)
        rcases hcases with rfl | hgap | hgap
        · simpa using hi
        · have hend : t.hi ≤ i := UInt32.le_of_lt (UInt32.lt_of_lt_of_le hgap hui)
          exact absurd hi.2 (UInt32.not_lt.2 hend)
        · -- the candidate would end before the lesser span begins
          have hproper : u.lo < u.hi := h.1 u (Std.ExtTreeSet.mem_toList.2 hu)
          have hback : u.lo < t.lo := UInt32.lt_trans hproper hgap
          exact absurd hle (UInt32.not_le.2 hback)

/-! ### With the mark and without it -/

/-- The same entries, with the mark set or taken away. -/
def withMark (s : Selection) (normal : Bool) : Selection := { s with normal }

theorem contains_withMark_true {s : Selection} {i : UInt32} :
    (s.withMark true).contains i = (s.points.contains i || s.lookup i) := rfl

theorem contains_withMark_false {s : Selection} {i : UInt32} :
    (s.withMark false).contains i = (s.points.contains i || s.scan i) := rfl

/-- **Both ways through the spans answer what a search of all entries answers.**  Where the stored
form is normal, with no single indices and with separated spans, it makes no difference whether it
is marked: the one candidate, the greatest span that begins at or before the index, says what going
through the spans in order says, and this is whether some stored span holds the index.  Without the
mark nothing is asked of the stored form: its spans may overlap, lie within each other or begin
together, and all the same nothing is missed by stopping early. -/
theorem contains_withMark (s : Selection) (i : UInt32) :
    (s.points = ∅ ∧ Span.Separated s.spans.toList →
        s.lookup i = s.scan i ∧
          (s.withMark true).contains i = (s.withMark false).contains i ∧
          ((s.withMark true).contains i = true ↔ ∃ t ∈ s.spans, t.contains i = true)) ∧
      (∀ t, s.spans.getLE? (Span.ceiling i) = some t ↔
        t ∈ s.spans ∧ t.lo ≤ i ∧ ∀ u ∈ s.spans, u.lo ≤ i → (compare u t).isLE = true) ∧
      (s.withMark false).contains i =
        (s.points.toList.any (fun j => j == i) || s.spans.toList.any fun t => t.contains i) := by
  refine ⟨?_, fun t => getLE?_ceiling_eq_some_iff, ?_⟩
  · rintro ⟨hpoints, hsep⟩
    have hway : s.lookup i = s.scan i := by
      rw [Bool.eq_iff_iff, lookup_iff_of_separated hsep, scan_iff]
    refine ⟨hway, ?_, ?_⟩
    · rw [contains_withMark_true, contains_withMark_false, hway]
    · simp [contains_withMark_true, hpoints, lookup_iff_of_separated hsep]
  · rw [contains_withMark_false, scan, any_takeWhile_contains Std.ExtTreeSet.ordered_toList]
    refine congrArg (· || _) ?_
    rw [Bool.eq_iff_iff]
    simp [Std.ExtTreeSet.mem_toList]

/-- Two separated spans, the second one up to the greatest bound. -/
def spansToTop : Selection :=
  (((empty 0xFFFFFFFF).storeSpan ⟨3, 5⟩).storeSpan ⟨9, 0xFFFFFFFF⟩).withMark true

/-- Right below the greatest bound both ways give the same answer. -/
theorem contains_withMark_spansToTop :
    spansToTop.points = ∅ ∧ Span.Separated spansToTop.spans.toList ∧
      spansToTop.lookup 0xFFFFFFFE = spansToTop.scan 0xFFFFFFFE := by
  have hsep : Span.Separated spansToTop.spans.toList := by decide +kernel
  have hways := (contains_withMark spansToTop 0xFFFFFFFE).1 ⟨rfl, hsep⟩
  exact ⟨rfl, hsep, hways.1⟩

end Selection

end IndexSpace
