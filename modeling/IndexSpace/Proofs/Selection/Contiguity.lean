/-
**Both ways to tell whether a selection is contiguous decide the same.**

A set of indices is contiguous if it has no gap: whatever lies between two of its members belongs to
it.  A selection is asked for this in one of two ways.  If its stored form is marked, the entries
are counted, and nothing else is looked at; otherwise the stored form is read as runs until there is
a second one.  The second way is right for every stored form, since the runs are separated: a second
run lies beyond an index that is no element.  The first way is right because a marked form stores
its runs; without the mark it would be wrong for two spans that touch.

Main definitions:

* `IndexSpace.Gapless` — a property of indices that holds between any two indices that have it;
* `IndexSpace.Selection.storesOneSpan`, `IndexSpace.Selection.hasOneRun` — the two ways, each for
  itself.

Main results:

* `IndexSpace.Span.Separated.gapless_covers_iff` — separated spans cover no gap exactly if there is
  one of them at most;
* `IndexSpace.Selection.hasOneRun_eq`, `IndexSpace.Selection.WellFormed.storesOneSpan_eq` — both
  ways count the runs;
* `IndexSpace.Selection.isContiguous_iff_gapless` — **a selection is contiguous exactly if there is
  no gap between its elements**.
-/

import IndexSpace.Proofs.Selection.Pieces

set_option relaxedAutoImplicit false
set_option autoImplicit false

namespace IndexSpace

/-! ### Gaps -/

/-- **A property of indices without a gap**: it holds between any two indices that have it. -/
def Gapless (p : UInt32 → Prop) : Prop := ∀ i j k, i < j → j < k → p i → p k → p j

namespace Span

/-- The indices of a single span have no gap. -/
theorem gapless_mem (t : Span) : Gapless fun i => i ∈ t := by
  intro i j k hij hjk hi hk
  have hlo : t.lo ≤ j := UInt32.le_of_lt (UInt32.lt_of_le_of_lt hi.1 hij)
  exact ⟨hlo, UInt32.lt_trans hjk hk.2⟩

/-- Between the first two of separated spans there is a gap: the end of the first one. -/
theorem Separated.not_gapless_covers {t u : Span} {spans : List Span}
    (h : Separated (t :: u :: spans)) : ¬ Gapless (Covers (t :: u :: spans)) := by
  intro hgapless
  obtain ⟨ht, hgap, hsep⟩ := separated_cons.1 h
  have hlo : Covers (t :: u :: spans) t.lo := covers_cons.2 (.inl ht.lo_mem)
  have hnext : Covers (t :: u :: spans) u.lo :=
    covers_cons.2 (.inr (covers_cons.2 (.inl (separated_cons.1 hsep).1.lo_mem)))
  have hhi := hgapless t.lo t.hi u.lo ht (hgap u List.mem_cons_self) hlo hnext
  exact h.not_covers_hi hhi

/-- **Separated spans cover no gap exactly if there is one of them at most.** -/
theorem Separated.gapless_covers_iff {spans : List Span} (h : Separated spans) :
    Gapless (Covers spans) ↔ spans.length ≤ 1 := by
  match spans, h with
  | [], _ => simp [Gapless]
  | [t], _ =>
      refine iff_of_true ?_ (Nat.le_refl 1)
      have hmem : Covers [t] = fun i => i ∈ t := funext fun i => by simp
      rw [hmem]
      exact t.gapless_mem
  | t :: u :: spans, h => exact iff_of_false h.not_gapless_covers (by simp)

end Span

namespace Selection

/-! ### The two ways -/

/-- The way of a marked form: no single index is stored, and one span at most. -/
def storesOneSpan (s : Selection) : Bool := s.points.isEmpty && decide (s.spans.size ≤ 1)

/-- The way of any other form: there is no second run. -/
def hasOneRun (s : Selection) : Bool := (s.stream.nth? 1).isNone

theorem isContiguous_eq_ite (s : Selection) :
    s.isContiguous = if s.normal then s.storesOneSpan else s.hasOneRun := rfl

/-- Asking for a second run counts the runs. -/
theorem hasOneRun_eq (s : Selection) : s.hasOneRun = decide (s.runs.length ≤ 1) := by
  rw [hasOneRun, RunStream.nth?_eq, ← runs, Bool.eq_iff_iff, Option.isNone_iff_eq_none,
    List.getElem?_eq_none_iff, decide_eq_true_iff]

namespace WellFormed

variable {s : Selection}

/-- With the mark, so does counting the entries. -/
theorem storesOneSpan_eq (h : s.WellFormed) (hn : s.normal = true) :
    s.storesOneSpan = decide (s.runs.length ≤ 1) := by
  rw [h.runs_of_normal hn, Std.ExtTreeSet.length_toList, storesOneSpan, h.points_of_normal hn]
  simp

/-- **Both ways count the runs.** -/
theorem isContiguous_eq (h : s.WellFormed) : s.isContiguous = decide (s.runs.length ≤ 1) := by
  rw [isContiguous_eq_ite]
  split
  next hn => exact h.storesOneSpan_eq hn
  next => exact s.hasOneRun_eq

/-- **There is one run at most exactly if no gap is between two elements.** -/
theorem length_runs_le_one_iff (h : s.WellFormed) :
    s.runs.length ≤ 1 ↔ Gapless fun i => s.contains i = true := by
  rw [h.contains_eq_covers_runs, h.separated_runs.gapless_covers_iff]

/-- Normalization leaves the runs, and so their number. -/
theorem runs_normalize (h : s.WellFormed) : s.normalize.runs = s.runs :=
  h.normalize.runs_congr h fun _ => h.mem_normalize

end WellFormed

/-- **A selection is contiguous exactly if there is no gap between its elements.**  It is told by
one of the two ways, as the mark says.  Reading a second run decides this for every stored form,
marked ones included; counting the entries decides it for every marked one.  So the answer is the
same when the selection is normalized first, and an empty selection is contiguous. -/
theorem isContiguous_iff_gapless {s : Selection} (hs : s.Reachable) :
    (s.isContiguous = true ↔ Gapless fun i => s.contains i = true) ∧
      s.isContiguous = (if s.normal then s.storesOneSpan else s.hasOneRun) ∧
      (s.hasOneRun = true ↔ Gapless fun i => s.contains i = true) ∧
      (s.normal = true →
        (s.storesOneSpan = true ↔ Gapless fun i => s.contains i = true)) ∧
      s.normalize.isContiguous = s.isContiguous ∧
      (s.isEmpty = true → s.isContiguous = true) := by
  have h := hs.wellFormed
  have hways : s.isContiguous = true ↔ Gapless fun i => s.contains i = true := by
    rw [h.isContiguous_eq, decide_eq_true_iff, h.length_runs_le_one_iff]
  refine ⟨hways, s.isContiguous_eq_ite, ?_, ?_, ?_, ?_⟩
  · rw [hasOneRun_eq, decide_eq_true_iff, h.length_runs_le_one_iff]
  · intro hn
    rw [h.storesOneSpan_eq hn, decide_eq_true_iff, h.length_runs_le_one_iff]
  · rw [h.normalize.isContiguous_eq, h.runs_normalize, h.isContiguous_eq]
  · intro hempty
    rw [hways]
    intro i j k _ _ hi
    exact absurd (h.contains_iff.1 hi) (h.isEmpty_iff_forall_not_mem.1 hempty i)

/-- A normalized span, and one that touches it at its end: two entries, and a single run.  An index
beyond a gap makes the second run. -/
theorem isContiguous_iff_gapless_touching :
    (((empty 9).add (.span 1 4)).1.normalize.add (.span 4 6)).1.Reachable ∧
      (Gapless fun i =>
        (((empty 9).add (.span 1 4)).1.normalize.add (.span 4 6)).1.contains i = true) ∧
      ¬ Gapless fun i =>
        ((((empty 9).add (.span 1 4)).1.normalize.add (.span 4 6)).1.add
          (.point 7)).1.contains i = true := by
  have hs : (((empty 9).add (.span 1 4)).1.normalize.add (.span 4 6)).1.Reachable := by
    refine (((Reachable.empty 9).add ?_).normalize).add ?_ <;> simp [Addition.refs]
  have ht : ((((empty 9).add (.span 1 4)).1.normalize.add (.span 4 6)).1.add
      (.point 7)).1.Reachable := hs.add (by simp [Addition.refs])
  have hone : (((empty 9).add (.span 1 4)).1.normalize.add (.span 4 6)).1.isContiguous = true := by
    decide +kernel
  have htwo : ¬ ((((empty 9).add (.span 1 4)).1.normalize.add (.span 4 6)).1.add
      (.point 7)).1.isContiguous = true := by
    decide +kernel
  exact ⟨hs, (isContiguous_iff_gapless hs).1.1 hone,
    fun hgapless => htwo ((isContiguous_iff_gapless ht).1.2 hgapless)⟩

end Selection

end IndexSpace
