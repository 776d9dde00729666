/-
**Agreement is sameness of elements, and the normal form stands for it.**

Two selections are compared run by run, while an index is looked up among the stored entries; and
the ways through the entries differ with the mark.  All the same the comparison says no more and no
less than that the two have the same space and that every index is found in both or in neither.  In
one direction this is because the runs cover exactly the elements, in the other because nothing but
the elements determines the runs.

The normal form therefore stands for all selections that agree with one another.  However they came
about, once normalized they store the same, down to the last entry; and normalization does nothing
to a selection whose stored form is marked, since a marked form stores its runs already.

Main results:

* `IndexSpace.Selection.Equivalent.normalize_eq` — selections with the same elements have the same
  normal form;
* `IndexSpace.Selection.agrees_iff_contains_eq` — **selections agree exactly when they have the same
  size and every look-up answers the same**, and agreement is an equivalence;
* `IndexSpace.Selection.agrees_iff_normalize_eq` — **selections agree exactly when their normal
  forms are equal**.
-/

import IndexSpace.Proofs.Selection.Representation
import IndexSpace.Proofs.Selection.Recovery

set_option relaxedAutoImplicit false
set_option autoImplicit false

namespace IndexSpace.Selection

variable {s t : Selection}

/-! ### The same elements -/

theorem WellFormed.agrees_iff_equivalent (hs : s.WellFormed) (ht : t.WellFormed) :
    s.agrees t = true ↔ s.Equivalent t :=
  ⟨hs.equivalent_of_agrees ht, Equivalent.agrees⟩

theorem WellFormed.equivalent_iff_contains_eq (hs : s.WellFormed) (ht : t.WellFormed) :
    s.Equivalent t ↔ s.size = t.size ∧ ∀ i, s.contains i = t.contains i := by
  constructor
  · intro h
    exact ⟨h.size_eq, congrFun h.contains_eq⟩
  · rintro ⟨hsize, hcontains⟩
    refine ⟨hs, ht, hsize, ?_⟩
    intro i
    rw [← hs.contains_iff, ← ht.contains_iff, hcontains]

/-- Agreement is equality of sizes and runs, and so an equivalence. -/
theorem agrees_equivalence : Equivalence fun s t : Selection => s.agrees t = true where
  refl s := agrees_iff.2 ⟨rfl, rfl⟩
  symm {s t} h := by rwa [agrees_comm]
  trans {s t u} hst htu := by
    obtain ⟨hsize, hruns⟩ := agrees_iff.1 hst
    obtain ⟨hsize', hruns'⟩ := agrees_iff.1 htu
    exact agrees_iff.2 ⟨hsize.trans hsize', hruns.trans hruns'⟩

/-- **Selections agree exactly when they have the same size and every look-up answers the same**,
whatever mixture of spans and indices they store and whichever of them carries the mark.  Agreement
is an equivalence. -/
theorem agrees_iff_contains_eq (hs : s.Reachable) (ht : t.Reachable) :
    (s.agrees t = true ↔ s.size = t.size ∧ ∀ i, s.contains i = t.contains i) ∧
      Equivalence fun s t : Selection => s.agrees t = true := by
  refine ⟨?_, agrees_equivalence⟩
  rw [hs.wellFormed.agrees_iff_equivalent ht.wellFormed,
    hs.wellFormed.equivalent_iff_contains_eq ht.wellFormed]

/-- A span and two indices inside it and at its end, against two touching spans: the first is
normalized before the last addition, the second is not. -/
theorem agrees_iff_contains_eq_touching :
    (((empty 9).add (.span 2 5)).1.normalize.add (.points [5, 3])).1.Reachable ∧
      (((empty 9).add (.span 2 4)).1.add (.span 4 6)).1.Reachable ∧
      ∀ i, (((empty 9).add (.span 2 5)).1.normalize.add (.points [5, 3])).1.contains i =
        (((empty 9).add (.span 2 4)).1.add (.span 4 6)).1.contains i := by
  have hs : (((empty 9).add (.span 2 5)).1.normalize.add (.points [5, 3])).1.Reachable := by
    refine (((Reachable.empty 9).add ?_).normalize).add ?_ <;> simp [Addition.refs]
  have ht : (((empty 9).add (.span 2 4)).1.add (.span 4 6)).1.Reachable := by
    refine ((Reachable.empty 9).add ?_).add ?_ <;> simp [Addition.refs]
  have hagrees : (((empty 9).add (.span 2 5)).1.normalize.add (.points [5, 3])).1.agrees
      (((empty 9).add (.span 2 4)).1.add (.span 4 6)).1 = true := by
    decide +kernel
  exact ⟨hs, ht, ((agrees_iff_contains_eq hs ht).1.1 hagrees).2⟩

/-! ### The same normal form -/

/-- **Selections with the same elements have the same normal form**, since it stores the runs and
nothing else. -/
theorem Equivalent.normalize_eq (h : s.Equivalent t) : s.normalize = t.normalize := by
  have hspans : s.normalize.spans = t.normalize.spans := by
    rw [← Std.ExtTreeSet.toList_inj, h.left.toList_spans_normalize,
      h.right.toList_spans_normalize, h.runs_eq]
  have hpoints : s.normalize.points = t.normalize.points := by
    rw [h.left.points_normalize, h.right.points_normalize]
  have hsize : s.normalize.size = t.normalize.size := by
    rw [normalize_size, normalize_size, h.size_eq]
  have hnormal : s.normalize.normal = t.normalize.normal := by
    rw [normalize_normal, normalize_normal]
  cases hs : s.normalize
  cases ht : t.normalize
  simp_all

theorem WellFormed.equivalent_refl (h : s.WellFormed) : s.Equivalent s :=
  ⟨h, h, rfl, fun _ => Iff.rfl⟩

theorem WellFormed.normalize_eq_iff_agrees (hs : s.WellFormed) (ht : t.WellFormed) :
    s.normalize = t.normalize ↔ s.agrees t = true := by
  rw [hs.agrees_iff_equivalent ht]
  constructor
  · intro h
    -- both hold the elements of the one normal form
    have hleft : s.normalize.Equivalent s := hs.equivalent_refl.normalize_left
    have hright : t.normalize.Equivalent t := ht.equivalent_refl.normalize_left
    refine ⟨hs, ht, ?_, fun i => ?_⟩
    · rw [← hleft.size_eq, h, hright.size_eq]
    · rw [← hleft.mem_iff, h, hright.mem_iff]
  · exact Equivalent.normalize_eq

/-- **Selections agree exactly when their normal forms are equal**, or equivalently when these are
written in the same way.  Normal forms are the same whenever size and elements are, by whatever
route the selections came about.  Normalization keeps the size and every look-up, leads to a
selection that agrees with the one before it in either order, and does and reports nothing when it
is carried out a second time. -/
theorem agrees_iff_normalize_eq (hs : s.Reachable) (ht : t.Reachable) :
    (s.agrees t = true ↔ s.normalize = t.normalize) ∧
      (s.agrees t = true ↔ s.normalize.dump = t.normalize.dump) ∧
      (s.size = t.size → (∀ i, s.contains i = t.contains i) → s.normalize = t.normalize) ∧
      s.normalize.size = s.size ∧ (∀ i, s.normalize.contains i = s.contains i) ∧
      s.normalize.agrees s = true ∧ s.agrees s.normalize = true ∧
      s.normalize.edit .normalize = ⟨s.normalize, .whole none, []⟩ := by
  have hself := hs.wellFormed.equivalent_refl
  have hnormal := hs.wellFormed.normalize_eq_iff_agrees ht.wellFormed
  refine ⟨hnormal.symm, ?_, ?_, s.normalize_size,
    congrFun hself.normalize_left.contains_eq, hself.normalize_left.agrees,
    hself.normalize_right.agrees, ?_⟩
  · rw [dump_inj, hnormal]
  · intro hsize hcontains
    have hequiv := (hs.wellFormed.equivalent_iff_contains_eq ht.wellFormed).2 ⟨hsize, hcontains⟩
    exact hequiv.normalize_eq
  · rw [edit, normalize_normalize, normalizeEvents_normalize]

/-- All indices of a space, as one span that was never anything else, and as a normalized index that
a span and a list were added to. -/
theorem agrees_iff_normalize_eq_complete :
    (complete 6).Reachable ∧
      ((((empty 6).add (.point 2)).1.normalize.add (.span 0 2)).1.add
        (.points [5, 4, 3])).1.Reachable ∧
      (complete 6).normalize =
        ((((empty 6).add (.point 2)).1.normalize.add (.span 0 2)).1.add
          (.points [5, 4, 3])).1.normalize := by
  have hs : (complete 6).Reachable := .complete 6
  have ht : ((((empty 6).add (.point 2)).1.normalize.add (.span 0 2)).1.add
      (.points [5, 4, 3])).1.Reachable := by
    refine ((((Reachable.empty 6).add ?_).normalize).add ?_).add ?_ <;> simp [Addition.refs]
  have hagrees : (complete 6).agrees
      ((((empty 6).add (.point 2)).1.normalize.add (.span 0 2)).1.add
        (.points [5, 4, 3])).1 = true := by
    decide +kernel
  exact ⟨hs, ht, (agrees_iff_normalize_eq hs ht).1.1 hagrees⟩

end IndexSpace.Selection
