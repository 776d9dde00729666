/-
**The stored form cannot be told from outside.**

Two selections that agree may be stored in different ways: the one as indices, the other as spans,
the one with its mark and the other without.  Whatever is asked of them and whatever is done to them
next, they answer alike, and they still agree afterwards.  Nor does it matter when, and how often,
either of them is normalized on the way, or in which stored form elements are brought in from
elsewhere.  So normalization is a matter of space and time only.

The proof is a simulation.  Well-formed selections of one size with the same elements have the same
runs; every answer that does not speak of the stored form is read off the runs, and every change
stores pieces that depend on the size alone.

Main definitions:

* `IndexSpace.Question.aboutStorage` — whether a question is about the stored form;
* `IndexSpace.Selection.SameView` — two selections that answer alike;
* `IndexSpace.Selection.SameElements` — selections that operations lead to, with the same elements;
* `IndexSpace.Edit.Alike` — sequences of changes that differ in normalizations, and in the stored
  form of what is brought in;
* `IndexSpace.Selection.editEach`, `IndexSpace.Selection.outcomes` — changes in order, and the
  outcomes of those that are not normalizations.

Main results:

* `IndexSpace.Selection.Equivalent.sameView` — agreeing selections answer alike;
* `IndexSpace.Selection.Equivalent.edit` — and agree after corresponding changes;
* `IndexSpace.Selection.outcomes_alike` — **so they do through all changes**.
-/

import Mathlib.Data.List.Forall2
import IndexSpace.Proofs.Selection.Contiguity
import IndexSpace.Proofs.Selection.Correspondence

set_option relaxedAutoImplicit false
set_option autoImplicit false

namespace IndexSpace

/-! ### Answering alike -/

/-- Whether a question is about the stored form, and not about the elements. -/
def Question.aboutStorage : Question → Bool
  | heapBytes | normal | dump => true
  | _ => false

namespace Selection

/-- **Two selections that answer alike** whatever is asked, short of how they are stored.  They
agree with each other, and with the same other selections. -/
structure SameView (s t : Selection) : Prop where
  answer : ∀ q : Question, q.aboutStorage = false → s.answer q = t.answer q
  agrees : s.agrees t = true
  agrees_left : ∀ u, s.agrees u = t.agrees u
  size : s.size = t.size
  contains : ∀ i, s.contains i = t.contains i
  isEmpty : s.isEmpty = t.isEmpty
  count : s.count = t.count
  isContiguous : s.isContiguous = t.isContiguous
  text : s.text = t.text

/-- Well-formed selections of one size, with the same elements. -/
structure Equivalent (s t : Selection) : Prop where
  left : s.WellFormed
  right : t.WellFormed
  size_eq : s.size = t.size
  mem_iff : ∀ i, i ∈ s ↔ i ∈ t

namespace Equivalent

variable {s t : Selection}

theorem runs_eq (h : s.Equivalent t) : s.runs = t.runs := h.left.runs_congr h.right h.mem_iff

theorem agrees (h : s.Equivalent t) : s.agrees t = true := agrees_iff.2 ⟨h.size_eq, h.runs_eq⟩

theorem isEmpty_eq (h : s.Equivalent t) : s.isEmpty = t.isEmpty := by
  rw [Bool.eq_iff_iff, h.left.isEmpty_iff_forall_not_mem, h.right.isEmpty_iff_forall_not_mem]
  simp only [h.mem_iff]

theorem contains_eq (h : s.Equivalent t) : s.contains = t.contains :=
  funext (h.left.contains_congr h.right h.mem_iff)

theorem count_eq (h : s.Equivalent t) : s.count = t.count := by
  rw [count, count, h.runs_eq]

theorem isContiguous_eq (h : s.Equivalent t) : s.isContiguous = t.isContiguous := by
  rw [h.left.isContiguous_eq, h.right.isContiguous_eq, h.runs_eq]

theorem text_eq (h : s.Equivalent t) : s.text = t.text := by
  rw [text, text, h.runs_eq]

theorem answer_eq (h : s.Equivalent t) {q : Question} (hq : q.aboutStorage = false) :
    s.answer q = t.answer q := by
  cases q with
  | size => rw [answer, answer, h.size_eq]
  | count => rw [answer, answer, h.count_eq]
  | empty => rw [answer, answer, h.isEmpty_eq]
  | contiguous => rw [answer, answer, h.isContiguous_eq]
  | text => rw [answer, answer, h.text_eq]
  | contains is => rw [answer, answer, h.contains_eq]
  | elements lo hi => rw [answer, answer, elementsIn, elementsIn, h.contains_eq]
  | heapBytes | normal | dump => simp [Question.aboutStorage] at hq

theorem agrees_left_eq (h : s.Equivalent t) (u : Selection) : s.agrees u = t.agrees u := by
  rw [Bool.eq_iff_iff, agrees_iff, agrees_iff, h.size_eq, h.runs_eq]

/-- **Agreeing selections answer alike**: every answer is read off the size and the runs. -/
theorem sameView (h : s.Equivalent t) : s.SameView t where
  answer := fun _ hq => h.answer_eq hq
  agrees := h.agrees
  agrees_left := h.agrees_left_eq
  size := h.size_eq
  contains := congrFun h.contains_eq
  isEmpty := h.isEmpty_eq
  count := h.count_eq
  isContiguous := h.isContiguous_eq
  text := h.text_eq

theorem normalize_left (h : s.Equivalent t) : s.normalize.Equivalent t where
  left := h.left.normalize
  right := h.right
  size_eq := s.normalize_size.trans h.size_eq
  mem_iff := fun i => h.left.mem_normalize.trans (h.mem_iff i)

theorem normalize_right (h : s.Equivalent t) : s.Equivalent t.normalize where
  left := h.left
  right := h.right.normalize
  size_eq := h.size_eq.trans t.normalize_size.symm
  mem_iff := fun i => (h.mem_iff i).trans h.right.mem_normalize.symm

end Equivalent

theorem WellFormed.equivalent_of_agrees {s t : Selection} (hs : s.WellFormed) (ht : t.WellFormed)
    (h : s.agrees t = true) : s.Equivalent t := by
  obtain ⟨hsize, hruns⟩ := agrees_iff.1 h
  refine ⟨hs, ht, hsize, ?_⟩
  intro i
  rw [← hs.covers_runs, ← ht.covers_runs, hruns]

/-! ### Corresponding changes -/

/-- Selections that operations lead to and that hold the same elements, each in its own space. -/
structure SameElements (s t : Selection) : Prop where
  left : s.Reachable
  right : t.Reachable
  contains_eq : ∀ i, s.contains i = t.contains i

theorem SameElements.mem_iff {s t : Selection} (h : s.SameElements t) (i : UInt32) :
    i ∈ s ↔ i ∈ t := by
  rw [← h.left.wellFormed.contains_iff, ← h.right.wellFormed.contains_iff, h.contains_eq]

variable {a b : Addition Selection}

/-- Additions that bring in the same elements store the same pieces. -/
theorem pieces_eq_of_rel (h : a.Rel SameElements b) (size : UInt32) :
    a.pieces size = b.pieces size := by
  cases h with
  | point | span | points => rfl
  | all hst =>
      have hs := hst.left.wellFormed
      have ht := hst.right.wellFormed
      simp only [Addition.pieces, hs.last?_congr ht hst.mem_iff, hs.runs_congr ht hst.mem_iff]

/-- And they are answered alike. -/
theorem verdict_eq_of_rel (h : a.Rel SameElements b) (size : UInt32) :
    a.verdict size = b.verdict size := by
  cases h with
  | point | span | points => rfl
  | all hst =>
      simp only [Addition.verdict,
        hst.left.wellFormed.last?_congr hst.right.wellFormed hst.mem_iff]

theorem wellFormed_of_mem_refs_left (h : a.Rel SameElements b) :
    ∀ t ∈ a.refs, t.WellFormed :=
  h.forall_mem_refs fun _ _ hst => hst.left.wellFormed

namespace Equivalent

variable {s t : Selection}

theorem storeEach (h : s.Equivalent t) {pieces : List Span}
    (hpieces : ∀ u ∈ pieces, u.Proper ∧ u.hi ≤ s.size) :
    (s.storeEach pieces).Equivalent (t.storeEach pieces) := by
  have hproper : ∀ u ∈ pieces, u.Proper := fun u hu => (hpieces u hu).1
  refine ⟨h.left.storeEach hpieces, h.right.storeEach (h.size_eq ▸ hpieces), ?_, fun i => ?_⟩
  · rw [storeEach_size, storeEach_size, h.size_eq]
  · rw [mem_storeEach hproper, mem_storeEach hproper, h.mem_iff]

theorem add (h : s.Equivalent t) (hab : a.Rel SameElements b) :
    (s.add a).1.Equivalent (t.add b).1 := by
  rw [add_selection, add_selection, ← h.size_eq, ← pieces_eq_of_rel hab]
  exact h.storeEach (proper_of_mem_pieces (wellFormed_of_mem_refs_left hab))

theorem resize (h : s.Equivalent t) (size : UInt32) :
    (s.attempt (s.resize size)).1.Equivalent (t.attempt (t.resize size)).1 := by
  have hleft := h.left.resize size
  have hright := h.right.resize size
  unfold Selection.resize at hleft hright ⊢
  rw [h.isEmpty_eq] at hleft ⊢
  split
  next hempty =>
    rw [if_pos hempty] at hleft hright
    exact ⟨hleft, hright, rfl, h.mem_iff⟩
  next => exact h

/-- **Agreeing selections agree after corresponding changes.** -/
theorem edit (h : s.Equivalent t) {c d : Edit Selection} (hcd : c.Rel SameElements d) :
    (s.edit c).selection.Equivalent (t.edit d).selection := by
  cases hcd with
  | add hab => exact h.add hab
  | resize size => exact h.resize size
  | normalize => exact h.normalize_left.normalize_right

theorem verdict_eq (h : s.Equivalent t) {c d : Edit Selection} (hcd : c.Rel SameElements d) :
    (s.edit c).verdict = (t.edit d).verdict := by
  cases hcd with
  | add hab =>
      simp only [Selection.edit, add_verdict, h.size_eq, verdict_eq_of_rel hab]
  | resize size =>
      simp only [Selection.edit, Selection.resize, h.isEmpty_eq, h.size_eq]
      split <;> rfl
  | normalize => rfl

/-- Only a resize that is refused reports anything, apart from normalizations. -/
theorem events_eq (h : s.Equivalent t) {c d : Edit Selection} (hcd : c.Rel SameElements d)
    (hc : c ≠ .normalize) : (s.edit c).events = (t.edit d).events := by
  cases hcd with
  | add => rfl
  | resize size => simp only [Selection.edit, resizeEvents, h.isEmpty_eq, h.size_eq]
  | normalize => exact absurd rfl hc

end Equivalent

end Selection

/-! ### Changes in order -/

/-- **Two sequences of changes that differ in nothing that matters**: each of them may be normalized
anywhere, and what is brought in from elsewhere may be stored in another way. -/
inductive Edit.Alike : List (Edit Selection) → List (Edit Selection) → Prop
  | nil : Alike [] []
  | left {cs ds : List (Edit Selection)} : Alike cs ds → Alike (.normalize :: cs) ds
  | right {cs ds : List (Edit Selection)} : Alike cs ds → Alike cs (.normalize :: ds)
  | both {c d : Edit Selection} {cs ds : List (Edit Selection)} :
      c.Rel Selection.SameElements d → Alike cs ds → Alike (c :: cs) (d :: ds)

namespace Selection

/-- The selection after changes in order. -/
def editEach (s : Selection) : List (Edit Selection) → Selection
  | [] => s
  | c :: cs => (s.edit c).selection.editEach cs

/-- Changes may be carried out in two parts. -/
theorem editEach_append (s : Selection) (cs ds : List (Edit Selection)) :
    s.editEach (cs ++ ds) = (s.editEach cs).editEach ds := by
  induction cs generalizing s with
  | nil => rfl
  | cons c cs ih => exact ih (s.edit c).selection

theorem WellFormed.editEach {s : Selection} (h : s.WellFormed) {cs : List (Edit Selection)}
    (hcs : ∀ c ∈ cs, ∀ t ∈ c.refs, t.WellFormed) : (s.editEach cs).WellFormed := by
  induction cs generalizing s with
  | nil => exact h
  | cons c cs ih =>
      obtain ⟨hc, hcs⟩ := List.forall_mem_cons.1 hcs
      exact ih (h.edit hc) hcs

/-- **The outcomes of changes in order**, those of normalizations left out. -/
def outcomes (s : Selection) : List (Edit Selection) → List Outcome
  | [] => []
  | c :: cs =>
      let rest := (s.edit c).selection.outcomes cs
      if c = .normalize then rest else s.edit c :: rest

/-- The same answer and the same report, and selections that answer alike. -/
structure SameOutcome (o p : Outcome) : Prop where
  verdict : o.verdict = p.verdict
  events : o.events = p.events
  view : o.selection.SameView p.selection

theorem Equivalent.outcomes {s t : Selection} (h : s.Equivalent t) {cs ds : List (Edit Selection)}
    (hcd : Edit.Alike cs ds) :
    List.Forall₂ SameOutcome (s.outcomes cs) (t.outcomes ds) ∧
      (s.editEach cs).Equivalent (t.editEach ds) := by
  -- induction on the correspondence of the two sequences, with equivalence as the invariant
  induction hcd generalizing s t with
  | nil => exact ⟨.nil, h⟩
  | left _ ih => exact ih h.normalize_left
  | right _ ih => exact ih h.normalize_right
  | @both c d cs ds hrel _ ih =>
      obtain ⟨houtcomes, hend⟩ := ih (h.edit hrel)
      refine ⟨?_, hend⟩
      -- corresponding changes are normalizations on both sides or on neither
      by_cases hc : c = .normalize
      · subst hc
        cases hrel
        exact houtcomes
      · have hd : d ≠ .normalize := by
          rintro rfl
          cases hrel
          exact hc rfl
        rw [Selection.outcomes, Selection.outcomes, if_neg hc, if_neg hd]
        exact .cons ⟨h.verdict_eq hrel, h.events_eq hrel hc, (h.edit hrel).sameView⟩ houtcomes

/-- **Agreeing selections cannot be told apart by anything that is done to them.**  Let them go
through changes that differ in nothing but normalizations and the stored form of what is brought in.
Then every change is answered and reported alike, the selections answer alike after it, and so they
do at the end. -/
theorem outcomes_alike {s t : Selection} (hs : s.Reachable) (ht : t.Reachable)
    (h : s.agrees t = true) {cs ds : List (Edit Selection)} (hcd : Edit.Alike cs ds) :
    List.Forall₂ SameOutcome (s.outcomes cs) (t.outcomes ds) ∧
      (s.editEach cs).SameView (t.editEach ds) := by
  have hequiv := hs.wellFormed.equivalent_of_agrees ht.wellFormed h
  obtain ⟨houtcomes, hend⟩ := hequiv.outcomes hcd
  exact ⟨houtcomes, hend.sameView⟩

/-- All indices of a small space, once as a span and once as a list, brought into each other with
and without normalization, and a refused resize. -/
theorem outcomes_alike_complete :
    (complete 2).Reachable ∧ ((empty 2).add (.points [0, 1])).1.Reachable ∧
      (complete 2).agrees ((empty 2).add (.points [0, 1])).1 = true ∧
      List.Forall₂ SameOutcome
        ((complete 2).outcomes [.add (.all (complete 2)), .normalize, .resize 3])
        (((empty 2).add (.points [0, 1])).1.outcomes
          [.normalize, .add (.all ((empty 2).add (.points [0, 1])).1), .resize 3]) := by
  have hs : (complete 2).Reachable := .complete 2
  have ht : ((empty 2).add (.points [0, 1])).1.Reachable :=
    (Reachable.empty 2).add (by simp [Addition.refs])
  have hagrees : (complete 2).agrees ((empty 2).add (.points [0, 1])).1 = true := by
    decide +kernel
  have hsame : (complete 2).SameElements ((empty 2).add (.points [0, 1])).1 :=
    ⟨hs, ht, (hs.wellFormed.equivalent_of_agrees ht.wellFormed hagrees).sameView.contains⟩
  refine ⟨hs, ht, hagrees, (outcomes_alike hs ht hagrees ?_).1⟩
  exact .right (.both (.add (.all hsame)) (.left (.both (.resize 3) .nil)))

end Selection

end IndexSpace
