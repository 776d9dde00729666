/-
**The two phases in the life of a selection.**

A selection is vacant as long as nothing was brought into it: the size of its space may be chosen
again and again, and refused or empty additions do not matter.  With the first index that is brought
in it becomes occupied, and stays so whatever is done to it: the size of its space is settled, a
resize is refused even if it asks for the present size, no element is ever lost, and the count never
goes down.  A selection that begins with all indices of a space is occupied from its beginning,
unless the space has none.

Main definitions:

* `IndexSpace.Seed.Brings`, `IndexSpace.Edit.Brings` — a beginning or a change brings in an index;
* `IndexSpace.Selection.Receives` — some of the changes in order does so;
* `IndexSpace.Selection.Vacant`, `IndexSpace.Selection.Occupied` — **the two phases**;
* `IndexSpace.Selection.Grows` — a selection over the same space, with no fewer elements.

Main results:

* `IndexSpace.Selection.WellFormed.isEmpty_edit_iff`,
  `IndexSpace.Selection.WellFormed.isEmpty_editEach_iff` — a change, and changes in order, leave a
  selection empty exactly if they bring in nothing;
* `IndexSpace.Selection.WellFormed.grows_edit`, `IndexSpace.Selection.WellFormed.grows_editEach` —
  they let an occupied one only grow;
* `IndexSpace.Selection.vacant_then_occupied` — **the first index that is brought in ends the first
  phase, and nothing ends the second**.
-/

import IndexSpace.Proofs.Selection.Counting
import IndexSpace.Proofs.Selection.Meaning

set_option relaxedAutoImplicit false
set_option autoImplicit false

namespace IndexSpace

/-! ### Bringing in indices -/

/-- The selection begins with an element. -/
def Seed.Brings : Seed → Prop
  | .empty _ => False
  | .complete size => 0 < size

/-- **The change brings an index into a space of `size` indices**: it is an addition of which not
all is refused or empty. -/
def Edit.Brings (size : UInt32) : Edit Selection → Prop
  | .add a => ((a.map Selection.meaning).brought size).Nonempty
  | _ => False

namespace Selection

/-- **Some of the changes in order brings an index** into the space as it is at that time. -/
def Receives (s : Selection) : List (Edit Selection) → Prop
  | [] => False
  | e :: es => e.Brings s.size ∨ (s.edit e).selection.Receives es

/-! ### The phases -/

/-- **The first phase**: there are no elements, and any size may be chosen. -/
structure Vacant (s : Selection) : Prop where
  isEmpty_eq : s.isEmpty = true
  contains_eq : ∀ i, s.contains i = false
  edit_resize : ∀ size, s.edit (.resize size) = ⟨{ s with size }, .whole none, []⟩

/-- **The second phase**: there are elements, and every resize is refused and leaves the selection
as it is. -/
structure Occupied (s : Selection) : Prop where
  isEmpty_eq : s.isEmpty = false
  exists_contains : ∃ i, s.contains i = true
  edit_resize : ∀ size, s.edit (.resize size) =
    ⟨s, .whole (some (.occupied s.size)), [.rejectedResize s.size size]⟩

/-- **Nothing is lost** from `s` to `t`: the space has the same size, elements stay elements, and
the count does not go down. -/
structure Grows (s t : Selection) : Prop where
  size_eq : t.size = s.size
  contains_of_contains : ∀ i, s.contains i = true → t.contains i = true
  count_le : s.count ≤ t.count

theorem Grows.refl (s : Selection) : s.Grows s := ⟨rfl, fun _ hi => hi, UInt64.le_refl _⟩

theorem Grows.trans {s t u : Selection} (hst : s.Grows t) (htu : t.Grows u) : s.Grows u where
  size_eq := htu.size_eq.trans hst.size_eq
  contains_of_contains := fun i hi => htu.contains_of_contains i (hst.contains_of_contains i hi)
  count_le := UInt64.le_trans hst.count_le htu.count_le

/-- A beginning is empty exactly if it brings in nothing. -/
theorem isEmpty_seed_iff (x : Seed) : x.selection.isEmpty = true ↔ ¬ x.Brings := by
  have hmem := (means_seed x).wellFormed.isEmpty_iff_forall_not_mem
  cases x with
  | empty size => simpa [Seed.selection, Seed.Brings] using hmem
  | complete size =>
      rw [hmem]
      simp only [Seed.selection, mem_complete, Seed.Brings]
      constructor
      · intro hnone
        exact hnone 0
      · intro hzero i hi
        exact hzero (UInt32.lt_of_le_of_lt UInt32.zero_le hi)

namespace WellFormed

variable {s : Selection} {e : Edit Selection} {es : List (Edit Selection)}

theorem vacant (h : s.WellFormed) (hempty : s.isEmpty = true) : s.Vacant := by
  refine ⟨hempty, fun i => ?_, edit_resize_of_isEmpty hempty⟩
  rw [← Bool.not_eq_true, h.contains_iff]
  exact h.isEmpty_iff_forall_not_mem.1 hempty i

theorem occupied (h : s.WellFormed) (hne : s.isEmpty = false) : s.Occupied := by
  refine ⟨hne, ?_, edit_resize_of_not_isEmpty hne⟩
  have hsome : ¬ ∀ i, ¬ i ∈ s := by
    rw [← h.isEmpty_iff_forall_not_mem, hne]
    exact Bool.false_ne_true
  obtain ⟨i, hi⟩ := not_forall_not.1 hsome
  exact ⟨i, h.contains_iff.2 hi⟩

/-- **A change leaves a selection empty exactly if it was so and nothing is brought in.** -/
theorem isEmpty_edit_iff (h : s.WellFormed) (he : ∀ t ∈ e.refs, t.WellFormed) :
    (s.edit e).selection.isEmpty = true ↔ s.isEmpty = true ∧ ¬ e.Brings s.size := by
  cases e with
  | add a =>
      have hadd : (s.add a).1.WellFormed := h.add he
      simp only [Selection.edit, Edit.Brings, hadd.isEmpty_iff_forall_not_mem,
        h.isEmpty_iff_forall_not_mem, h.mem_add_iff he, Set.Nonempty, not_or, not_exists]
      exact forall_and
  | resize size =>
      cases hempty : s.isEmpty with
      | true => simpa [edit_resize_of_isEmpty hempty, Edit.Brings] using hempty
      | false => simp [edit_resize_of_not_isEmpty hempty, hempty]
  | normalize =>
      have hnorm : s.normalize.isEmpty = true ↔ s.isEmpty = true := by
        rw [h.normalize.isEmpty_iff_forall_not_mem, h.isEmpty_iff_forall_not_mem]
        simp only [h.mem_normalize]
      exact hnorm.trans (and_iff_left id).symm

/-- **So do changes in order**: the selection is empty after them exactly if it was so and none of
them brought in anything. -/
theorem isEmpty_editEach_iff (h : s.WellFormed) (hes : ∀ e ∈ es, ∀ t ∈ e.refs, t.WellFormed) :
    (s.editEach es).isEmpty = true ↔ s.isEmpty = true ∧ ¬ s.Receives es := by
  induction es generalizing s with
  | nil => exact (and_iff_left id).symm
  | cons e es ih =>
      obtain ⟨he, hes⟩ := List.forall_mem_cons.1 hes
      rw [Selection.editEach, ih (h.edit he) hes, h.isEmpty_edit_iff he, Receives, not_or,
        and_assoc]

/-- **A change lets an occupied selection only grow.** -/
theorem grows_edit (h : s.WellFormed) (he : ∀ t ∈ e.refs, t.WellFormed)
    (hne : s.isEmpty = false) : s.Grows (s.edit e).selection := by
  have hedit := h.edit he
  obtain ⟨hsize, hkept⟩ : (s.edit e).selection.size = s.size ∧
      ∀ i ∈ s, i ∈ (s.edit e).selection := by
    cases e with
    | add a => exact ⟨s.add_size a, fun i hi => (h.mem_add_iff he).2 (.inl hi)⟩
    | resize size =>
        rw [edit_resize_of_not_isEmpty hne]
        exact ⟨rfl, fun i hi => hi⟩
    | normalize => exact ⟨s.normalize_size, fun i hi => h.mem_normalize.2 hi⟩
  have hcontains : ∀ i, s.contains i = true → (s.edit e).selection.contains i = true := by
    intro i hi
    exact hedit.contains_iff.2 (hkept i (h.contains_iff.1 hi))
  exact ⟨hsize, hcontains, h.count_le_count hedit hcontains⟩

/-- **So do changes in order.** -/
theorem grows_editEach (h : s.WellFormed) (hes : ∀ e ∈ es, ∀ t ∈ e.refs, t.WellFormed)
    (hne : s.isEmpty = false) : s.Grows (s.editEach es) := by
  -- induction along the changes: none of them makes the selection empty again
  induction es generalizing s with
  | nil => exact .refl s
  | cons e es ih =>
      obtain ⟨he, hes⟩ := List.forall_mem_cons.1 hes
      have hstill : (s.edit e).selection.isEmpty = false := by
        rw [← Bool.not_eq_true, h.isEmpty_edit_iff he, hne]
        exact fun hboth => Bool.false_ne_true hboth.1
      exact (h.grows_edit he hne).trans (ih (h.edit he) hes hstill)

end WellFormed

/-- **The first index that is brought in ends the first phase, and nothing ends the second.**  As
long as neither the beginning nor a change has brought in an index, whatever was refused or empty
among the changes, the selection is vacant.  From then on it is occupied after all further changes,
and none of them takes anything away. -/
theorem vacant_then_occupied (x : Seed) {es : List (Edit Selection)}
    (hes : ∀ e ∈ es, ∀ t ∈ e.refs, t.Reachable) :
    (¬ x.Brings ∧ ¬ x.selection.Receives es → (x.selection.editEach es).Vacant) ∧
      (x.Brings ∨ x.selection.Receives es →
        ∀ more, (∀ e ∈ more, ∀ t ∈ e.refs, t.Reachable) →
          (x.selection.editEach (es ++ more)).Occupied ∧
            (x.selection.editEach es).Grows (x.selection.editEach (es ++ more))) := by
  have hwf : ∀ {cs : List (Edit Selection)}, (∀ e ∈ cs, ∀ t ∈ e.refs, t.Reachable) →
      ∀ e ∈ cs, ∀ t ∈ e.refs, t.WellFormed := fun hcs e he t ht => (hcs e he t ht).wellFormed
  have hseed := (Reachable.seed x).wellFormed
  have hend := hseed.editEach (hwf hes)
  have hempty : (x.selection.editEach es).isEmpty = true ↔
      ¬ x.Brings ∧ ¬ x.selection.Receives es := by
    rw [hseed.isEmpty_editEach_iff (hwf hes), isEmpty_seed_iff]
  refine ⟨fun hnothing => hend.vacant (hempty.2 hnothing), ?_⟩
  intro hsome more hmore
  have hne : (x.selection.editEach es).isEmpty = false := by
    rw [← Bool.not_eq_true, hempty]
    exact fun hnothing => hsome.elim hnothing.1 hnothing.2
  have hlater : ((x.selection.editEach es).editEach more).isEmpty = false := by
    rw [← Bool.not_eq_true, hend.isEmpty_editEach_iff (hwf hmore), hne]
    exact fun hboth => Bool.false_ne_true hboth.1
  rw [editEach_append]
  exact ⟨(hend.editEach (hwf hmore)).occupied hlater, hend.grows_editEach (hwf hmore) hne⟩

/-- Changes that bring nothing into a space of three indices: an empty span and an index outside it,
and another size. -/
def idleEdits : List (Edit Selection) := [.add (.span 9 9), .add (.point 5), .resize 8]

/-- After them the selection is vacant.  A list of which the first index is within the space makes
it occupied, and normalization and a resize to the present size leave it so. -/
theorem vacant_then_occupied_idleEdits :
    ((empty 3).editEach idleEdits).Vacant ∧
      (empty 3).Receives (idleEdits ++ [.add (.points [5, 9, 1])]) ∧
      ((empty 3).editEach
        ((idleEdits ++ [.add (.points [5, 9, 1])]) ++ [.normalize, .resize 8])).Occupied := by
  have hwf := (Reachable.empty 3).wellFormed
  have hidle : ¬ (empty 3).Receives idleEdits := by
    refine ((hwf.isEmpty_editEach_iff ?_).1 ?_).2
    · simp [idleEdits, Edit.refs, Addition.refs]
    · decide +kernel
  have hreceives : (empty 3).Receives (idleEdits ++ [.add (.points [5, 9, 1])]) := by
    by_contra hnot
    have hempty := (hwf.isEmpty_editEach_iff
      (by simp [idleEdits, Edit.refs, Addition.refs])).2 ⟨rfl, hnot⟩
    revert hempty
    decide +kernel
  refine ⟨?_, hreceives, ?_⟩
  · refine (vacant_then_occupied (.empty 3) ?_).1 ⟨id, hidle⟩
    simp [idleEdits, Edit.refs, Addition.refs]
  · refine ((vacant_then_occupied (.empty 3) ?_).2 (.inr hreceives) [.normalize, .resize 8] ?_).1
    · simp [idleEdits, Edit.refs, Addition.refs]
    · simp [Edit.refs]

end Selection

end IndexSpace
