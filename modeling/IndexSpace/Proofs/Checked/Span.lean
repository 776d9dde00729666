/-
**Calculations that are given up rather than let wrap around.**

Numbers of 32 bits wrap around: the successor of the greatest one is zero, and a difference may come
out far too large.  Every calculation of this library can be carried out a second time with a check
before each step that could go wrong, and is then given up with the fault that was found.  A
successor and a sum have to fit, a difference must not fall below zero, a span has to enclose an
index, and it must not end beyond the space that it is taken from.  If such a calculation goes
through, nothing has wrapped around.

This module has the steps themselves.  The other modules of this folder carry out with them
everything that is done to streams, selections and sessions, and prove that it goes through, with
the result that the plain calculation has.

Main definitions:

* `IndexSpace.Checked.Fault` — what can go wrong;
* `IndexSpace.Checked.next32`, `IndexSpace.Checked.minus`, `IndexSpace.Checked.bounds` — **the steps
  that are checked**: successors, differences, and making a span;
* `IndexSpace.Checked.within` — the check that a span is proper and ends within a space;
* `IndexSpace.Checked.unit`, `IndexSpace.Checked.unitWithin`, `IndexSpace.Checked.length`,
  `IndexSpace.Checked.last` — what is calculated with them.

Main results:

* `IndexSpace.Checked.next32_eq_ok_iff`, `IndexSpace.Checked.minus_eq_ok_iff` — **a checked step
  finds a number exactly when natural numbers give the same one**;
* `IndexSpace.Checked.unit_eq_ok_iff`, `IndexSpace.Checked.length_eq_ok`,
  `IndexSpace.Checked.last_eq_ok` — what is calculated goes through for indices below the top one
  and for proper spans.
-/

import IndexSpace.Proofs.Span.Covering

set_option relaxedAutoImplicit false
set_option autoImplicit false

namespace IndexSpace.Checked

/-! ### Faults -/

/-- **What can go wrong** in a calculation. -/
inductive Fault where
  /-- The successor of the number is no number of 32 bits. -/
  | successor (i : UInt32)
  /-- The second number is greater than the one that it is to be taken from. -/
  | difference (i j : UInt32)
  /-- The sum is no number of 32 bits. -/
  | sum (n : UInt64) (i : UInt32)
  /-- The bounds of a span enclose no index. -/
  | improper (lo hi : UInt32)
  /-- The span is not proper, or ends beyond the space. -/
  | outside (t : Span) (size : UInt32)
deriving DecidableEq, Repr

section Except

variable {α β : Type}

@[simp] theorem ok_bind (a : α) (f : α → Except Fault β) : (.ok a : Except Fault α) >>= f = f a :=
  rfl

@[simp] theorem error_bind (e : Fault) (f : α → Except Fault β) :
    (.error e : Except Fault α) >>= f = .error e := rfl

@[simp] theorem pure_eq_ok (a : α) : (pure a : Except Fault α) = .ok a := rfl

/-- A calculation that goes through goes through in its first part, and then in the second. -/
theorem bind_eq_ok {x : Except Fault α} {f : α → Except Fault β} {b : β}
    (h : x >>= f = .ok b) : ∃ a, x = .ok a ∧ f a = .ok b := by
  cases x with
  | error e => cases h
  | ok a => exact ⟨a, rfl, h⟩

/-- Calculations for each member of a list go through if each of them does. -/
theorem mapM_eq_ok {f : α → Except Fault β} {g : α → β} {l : List α}
    (h : ∀ a ∈ l, f a = .ok (g a)) : l.mapM f = .ok (l.map g) := by
  induction l with
  | nil => rfl
  | cons a l ih =>
      obtain ⟨ha, hl⟩ := List.forall_mem_cons.1 h
      rw [List.mapM_cons, ha, ih hl]
      rfl

end Except

/-! ### Steps -/

/-- The number after `i`. -/
def next32 (i : UInt32) : Except Fault UInt32 :=
  if i.toNat + 1 < UInt32.size then .ok (i + 1) else .error (.successor i)

/-- The difference of two numbers. -/
def minus (i j : UInt32) : Except Fault UInt32 :=
  if j ≤ i then .ok (i - j) else .error (.difference i j)

/-- **The span with the given bounds**, which have to enclose an index. -/
def bounds (lo hi : UInt32) : Except Fault Span :=
  if lo < hi then .ok ⟨lo, hi⟩ else .error (.improper lo hi)

/-- The span itself, which has to be proper and to end within the space. -/
def within (size : UInt32) (t : Span) : Except Fault Span :=
  if t.Within size then .ok t else .error (.outside t size)

/-- The span of a single index. -/
def unit (i : UInt32) : Except Fault Span := do bounds i (← next32 i)

/-- The span of a single index of a space. -/
def unitWithin (size i : UInt32) : Except Fault Span := do within size (← unit i)

/-- The number of indices of a span. -/
def length (t : Span) : Except Fault UInt32 := minus t.hi t.lo

/-- The last index of a span. -/
def last (t : Span) : Except Fault UInt32 := minus t.hi 1

/-- The number after `i` is found exactly when there is one. -/
theorem next32_eq_ok_iff {i j : UInt32} : next32 i = .ok j ↔ j.toNat = i.toNat + 1 := by
  have hj : j.toNat < UInt32.size := j.toNat_lt
  unfold next32
  split
  next hfits =>
    have hnext : (i + 1).toNat = i.toNat + 1 := by
      rw [UInt32.toNat_add, UInt32.toNat_one]
      exact Nat.mod_eq_of_lt hfits
    rw [Except.ok.injEq, ← UInt32.toNat_inj, hnext, eq_comm]
  next hfits => simp only [reduceCtorEq, false_iff]; omega

/-- A difference is found exactly when the numbers have one. -/
theorem minus_eq_ok_iff {i j k : UInt32} : minus i j = .ok k ↔ j.toNat + k.toNat = i.toNat := by
  unfold minus
  split
  next hle =>
    have hle' := UInt32.le_iff_toNat_le.1 hle
    rw [Except.ok.injEq, ← UInt32.toNat_inj, UInt32.toNat_sub_of_le _ _ hle]
    omega
  next hle =>
    have hlt := UInt32.lt_iff_toNat_lt.1 (UInt32.not_le.1 hle)
    simp only [reduceCtorEq, false_iff]
    omega

theorem bounds_eq_ok {lo hi : UInt32} (h : lo < hi) : bounds lo hi = .ok ⟨lo, hi⟩ := if_pos h

theorem within_eq_ok {size : UInt32} {t : Span} (h : t.Within size) : within size t = .ok t :=
  if_pos h

theorem eq_of_within_eq_ok {size : UInt32} {t u : Span} (h : within size t = .ok u) : t = u := by
  unfold within at h
  split at h
  · exact Except.ok.inj h
  · cases h

/-- The span of a single index goes through below the top index, and only there. -/
theorem unit_eq_ok_iff {i : UInt32} {t : Span} :
    unit i = .ok t ↔ i < 0xFFFFFFFF ∧ Span.unit i = t := by
  by_cases h : i < 0xFFFFFFFF
  · have hnext : next32 i = .ok (i + 1) := by
      have hlt : i.toNat < 4294967295 := UInt32.lt_iff_toNat_lt.1 h
      rw [next32_eq_ok_iff, UInt32.toNat_add, UInt32.toNat_one]
      omega
    have hbounds : bounds i (i + 1) = .ok (Span.unit i) := bounds_eq_ok (Span.unit_proper h)
    rw [unit, hnext, ok_bind, hbounds, Except.ok.injEq, and_iff_right h]
  · cases hnext : next32 i with
    | error e => simp [unit, hnext, h]
    | ok j =>
        have hlt : i < j := by
          rw [UInt32.lt_iff_toNat_lt, next32_eq_ok_iff.1 hnext]
          exact Nat.lt_succ_self _
        exact absurd (Span.lt_top_of_lt hlt) h

example : unit 0xFFFFFFFF = .error (.successor 0xFFFFFFFF) := rfl

/-- The span of a single index goes through within every space that has the index. -/
theorem unitWithin_eq_ok {size i : UInt32} (h : i < size) :
    unitWithin size i = .ok (Span.unit i) := by
  rw [unitWithin, unit_eq_ok_iff.2 ⟨Span.lt_top_of_lt h, rfl⟩]
  exact within_eq_ok (Span.unit_within h)

theorem eq_of_unitWithin_eq_ok {size i : UInt32} {t : Span} (h : unitWithin size i = .ok t) :
    Span.unit i = t := by
  obtain ⟨u, hu, h⟩ := bind_eq_ok h
  rw [← eq_of_within_eq_ok h]
  exact (unit_eq_ok_iff.1 hu).2

/-- The number of indices of a proper span goes through. -/
theorem length_eq_ok {t : Span} (h : t.Proper) : length t = .ok t.length := by
  have hlt : t.lo.toNat < t.hi.toNat := UInt32.lt_iff_toNat_lt.1 h
  rw [length, minus_eq_ok_iff, Span.length_toNat h]
  omega

/-- The last index of a proper span goes through, since its end is not the least index. -/
theorem last_eq_ok {t : Span} (h : t.Proper) : last t = .ok t.last := by
  have hlt : t.lo.toNat < t.hi.toNat := UInt32.lt_iff_toNat_lt.1 h
  rw [last, minus_eq_ok_iff, Span.last_toNat h, UInt32.toNat_one]
  omega

end IndexSpace.Checked
