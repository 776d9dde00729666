/-
**What a list of spans covers, and why its runs are unique.**

A list of spans covers the indices of its members.  Many lists cover the same indices: members may
overlap, touch, repeat or stand in any order.  Among all of them there is at most one separated
list, the one made of the maximal runs of covered indices, and this module proves that.  The
argument reads the first run off the covered indices: its lower bound is the least covered index,
and its upper bound the least index above that one which is not covered.

A run of consecutive indices with a property is maximal if it cannot be drawn out: neither the index
before its first one nor the one after its last one has the property.  Two maximal runs that share
an index begin and end together.  In a separated list the gaps keep every member from being drawn
out, so its members are maximal runs of the covered indices, and there are no others.  In this way
the number of members is said without a list: it is the number of maximal runs.

Main definitions:

* `IndexSpace.Span.Covers` — some member of a list of spans holds an index;
* `IndexSpace.Span.Within` — a proper span that ends within a space;
* `IndexSpace.Span.IsRunsOf` — a separated list that covers what the entries cover;
* `IndexSpace.Span.MaximalIn` — a maximal run of the indices with a property.

Main results:

* `IndexSpace.Span.eq_of_covers_iff` — **separated lists that cover the same indices are equal**;
* `IndexSpace.Span.IsRunsOf.unique` — so the runs of a list of entries are unique, and depend on the
  covered indices alone;
* `IndexSpace.Span.MaximalIn.eq_of_mem` — maximal runs that share an index are equal;
* `IndexSpace.Span.Separated.mem_iff_maximalIn` — **the members of a separated list are the maximal
  runs**;
* `IndexSpace.Span.Separated.ncard_maximalIn` — and so it has as many members as there are maximal
  runs.
-/

import Mathlib.Data.Set.Card
import IndexSpace.Span

set_option relaxedAutoImplicit false
set_option autoImplicit false

namespace IndexSpace.Span

/-! ### Covered indices -/

/-- Some member of the list holds the index. -/
def Covers (spans : List Span) (i : UInt32) : Prop := ∃ t ∈ spans, i ∈ t

@[simp] theorem not_covers_nil (i : UInt32) : ¬ Covers [] i := by simp [Covers]

@[simp] theorem covers_cons {s : Span} {spans : List Span} {i : UInt32} :
    Covers (s :: spans) i ↔ i ∈ s ∨ Covers spans i := by
  simp [Covers]

@[simp] theorem covers_append {spans more : List Span} {i : UInt32} :
    Covers (spans ++ more) i ↔ Covers spans i ∨ Covers more i := by
  simp only [Covers, List.mem_append, or_and_right, exists_or]

theorem covers_congr_of_perm {spans more : List Span} (h : spans.Perm more) (i : UInt32) :
    Covers spans i ↔ Covers more i := by
  simp only [Covers, h.mem_iff]

/-- No index lies beyond the top one. -/
theorem le_top (i : UInt32) : i ≤ 0xFFFFFFFF := by
  have hi : i.toNat < 4294967296 := i.toNat_lt
  have htop : (0xFFFFFFFF : UInt32).toNat = 4294967295 := rfl
  rw [UInt32.le_iff_toNat_le, htop]
  omega

/-- The top index is not below anything. -/
theorem lt_top_of_lt {i n : UInt32} (h : i < n) : i < 0xFFFFFFFF :=
  UInt32.lt_of_lt_of_le h (le_top n)

/-- Below the top index, the unit spans of some indices cover exactly these. -/
theorem covers_map_unit {points : List UInt32} (h : ∀ p ∈ points, p < 0xFFFFFFFF) {i : UInt32} :
    Covers (points.map unit) i ↔ i ∈ points := by
  simp only [Covers, List.mem_map]
  constructor
  · rintro ⟨t, ⟨p, hp, rfl⟩, hi⟩
    rwa [(mem_unit_iff (h p hp)).1 hi]
  · intro hi
    exact ⟨unit i, ⟨i, hi, rfl⟩, (mem_unit_iff (h i hi)).2 rfl⟩

/-- A proper span holds its lower bound. -/
theorem Proper.lo_mem {s : Span} (h : s.Proper) : s.lo ∈ s := ⟨UInt32.le_refl _, h⟩

/-- A proper span holds its last index. -/
theorem Proper.last_mem {s : Span} (h : s.Proper) : s.last ∈ s := by
  have hlt : s.lo.toNat < s.hi.toNat := UInt32.lt_iff_toNat_lt.1 h
  rw [mem_def, UInt32.le_iff_toNat_le, UInt32.lt_iff_toNat_lt, last_toNat h]
  omega

/-- No index of a proper span is beyond the last one. -/
theorem Proper.le_last {s : Span} (h : s.Proper) {i : UInt32} (hi : i ∈ s) : i ≤ s.last := by
  have hlt : i.toNat < s.hi.toNat := UInt32.lt_iff_toNat_lt.1 hi.2
  rw [UInt32.le_iff_toNat_le, last_toNat h]
  omega

/-- If no index of a proper span is beyond a bound, nor is the end of the span. -/
theorem Proper.hi_le_of_forall_lt {t : Span} (h : t.Proper) {n : UInt32}
    (hn : ∀ i ∈ t, i < n) : t.hi ≤ n := by
  have hlast := UInt32.lt_iff_toNat_lt.1 (hn t.last h.last_mem)
  rw [last_toNat h] at hlast
  rw [UInt32.le_iff_toNat_le]
  omega

/-! ### Spans within a space -/

/-- A span that encloses an index and ends within a space of `size` indices. -/
def Within (t : Span) (size : UInt32) : Prop := t.Proper ∧ t.hi ≤ size

instance (t : Span) (size : UInt32) : Decidable (t.Within size) :=
  inferInstanceAs (Decidable (t.Proper ∧ t.hi ≤ size))

theorem unit_within {i size : UInt32} (h : i < size) : (unit i).Within size := by
  have htop : i < 0xFFFFFFFF := lt_top_of_lt h
  refine ⟨unit_proper htop, (unit_proper htop).hi_le_of_forall_lt ?_⟩
  intro j hj
  rwa [(mem_unit_iff htop).1 hj]

/-- A span drawn out over another one stays within the space of both. -/
theorem Within.reach {s t : Span} {size : UInt32} (hs : s.Within size)
    (ht : t.Within size) : (s.reach t.hi).Within size :=
  ⟨hs.1.reach t.hi, reach_hi_le_iff.2 ⟨hs.2, ht.2⟩⟩

/-! ### The first run of a separated list -/

section Separated

variable {s : Span} {spans : List Span} {i : UInt32}

/-- What follows the first run lies beyond its end. -/
theorem Separated.hi_lt_of_covers (h : Separated (s :: spans)) (hi : Covers spans i) :
    s.hi < i := by
  obtain ⟨-, hgap, -⟩ := separated_cons.1 h
  obtain ⟨t, ht, hit⟩ := hi
  exact UInt32.lt_of_lt_of_le (hgap t ht) hit.1

/-- The first run begins with the least covered index. -/
theorem Separated.lo_le_of_covers (h : Separated (s :: spans)) (hi : Covers (s :: spans) i) :
    s.lo ≤ i := by
  have hs : s.lo < s.hi := (separated_cons.1 h).1
  rcases covers_cons.1 hi with hi | hi
  · exact hi.1
  · exact UInt32.le_of_lt (UInt32.lt_trans hs (h.hi_lt_of_covers hi))

/-- The end of the first run is not covered. -/
theorem Separated.not_covers_hi (h : Separated (s :: spans)) : ¬ Covers (s :: spans) s.hi := by
  intro hi
  rcases covers_cons.1 hi with hi | hi
  · exact UInt32.lt_irrefl _ hi.2
  · exact UInt32.lt_irrefl _ (h.hi_lt_of_covers hi)

/-- The runs after the first one cover the covered indices outside it. -/
theorem Separated.covers_tail_iff (h : Separated (s :: spans)) :
    Covers spans i ↔ Covers (s :: spans) i ∧ ¬ i ∈ s := by
  constructor
  · intro hi
    refine ⟨covers_cons.2 (.inr hi), ?_⟩
    intro his
    exact UInt32.lt_asymm his.2 (h.hi_lt_of_covers hi)
  · rintro ⟨hi, his⟩
    exact (covers_cons.1 hi).resolve_left his

/-- Of two separated spans one ends before the other begins. -/
theorem Separated.eq_or_gap (h : Separated spans) {t u : Span} (ht : t ∈ spans) (hu : u ∈ spans) :
    t = u ∨ t.hi < u.lo ∨ u.hi < t.lo := by
  induction spans with
  | nil => simp at ht
  | cons s spans ih =>
      obtain ⟨-, hgap, hsep⟩ := separated_cons.1 h
      rcases List.mem_cons.1 ht with rfl | ht'
      · rcases List.mem_cons.1 hu with rfl | hu'
        · exact .inl rfl
        · exact .inr (.inl (hgap u hu'))
      · rcases List.mem_cons.1 hu with rfl | hu'
        · exact .inr (.inr (hgap t ht'))
        · exact ih hsep ht' hu'

end Separated

/-! ### Uniqueness -/

/-- Of two separated lists that cover the same indices, neither first run begins before the
other. -/
theorem lo_le_lo_of_covers_imp {s t : Span} {spans more : List Span} (hs : Separated (s :: spans))
    (ht : Separated (t :: more)) (h : ∀ i, Covers (t :: more) i → Covers (s :: spans) i) :
    s.lo ≤ t.lo := by
  have hcov : Covers (t :: more) t.lo := covers_cons.2 (.inl (separated_cons.1 ht).1.lo_mem)
  exact hs.lo_le_of_covers (h _ hcov)

/-- Nor does it end before the other, if both begin together. -/
theorem hi_le_hi_of_covers_imp {s t : Span} {spans more : List Span} (ht : Separated (t :: more))
    (hlo : s.lo = t.lo) (h : ∀ i, Covers (s :: spans) i → Covers (t :: more) i) : s.hi ≤ t.hi := by
  refine UInt32.not_lt.1 ?_
  intro hlt
  -- otherwise the end of the second run would be an index of the first one
  have hmem : t.hi ∈ s := by
    refine ⟨?_, hlt⟩
    rw [hlo]
    exact UInt32.le_of_lt (separated_cons.1 ht).1
  exact ht.not_covers_hi (h _ (covers_cons.2 (.inl hmem)))

/-- **Separated lists that cover the same indices are equal.** -/
theorem eq_of_covers_iff {spans more : List Span} (hs : Separated spans) (hm : Separated more)
    (h : ∀ i, Covers spans i ↔ Covers more i) : spans = more := by
  -- induction on the first list: the covered indices determine the first run, and what is left
  -- of them determines the others
  induction spans generalizing more with
  | nil =>
      cases more with
      | nil => rfl
      | cons t more =>
          have ht : t.lo ∈ t := (separated_cons.1 hm).1.lo_mem
          exact absurd ((h t.lo).2 (covers_cons.2 (.inl ht))) (not_covers_nil _)
  | cons s spans ih =>
      cases more with
      | nil =>
          have hlo : s.lo ∈ s := (separated_cons.1 hs).1.lo_mem
          exact absurd ((h s.lo).1 (covers_cons.2 (.inl hlo))) (not_covers_nil _)
      | cons t more =>
          have hlo : s.lo = t.lo :=
            UInt32.le_antisymm (lo_le_lo_of_covers_imp hs hm fun i => (h i).2)
              (lo_le_lo_of_covers_imp hm hs fun i => (h i).1)
          have hhi : s.hi = t.hi :=
            UInt32.le_antisymm (hi_le_hi_of_covers_imp hm hlo fun i => (h i).1)
              (hi_le_hi_of_covers_imp hs hlo.symm fun i => (h i).2)
          obtain rfl : s = t := by
            cases s
            cases t
            simp_all
          have htail : spans = more := by
            refine ih (separated_cons.1 hs).2.2 (separated_cons.1 hm).2.2 ?_
            intro i
            rw [hs.covers_tail_iff, hm.covers_tail_iff, h i]
          rw [htail]

/-- **A separated list that covers what the entries cover.** -/
structure IsRunsOf (runs entries : List Span) : Prop where
  /-- The runs are proper and ascending, with a gap between any two of them. -/
  separated : Separated runs
  /-- Nothing is lost, and nothing is added. -/
  covers_iff : ∀ i, Covers runs i ↔ Covers entries i

/-- The runs of some entries depend on the covered indices alone. -/
theorem IsRunsOf.eq_of_covers_iff {runs others entries more : List Span}
    (h : IsRunsOf runs entries) (h' : IsRunsOf others more)
    (hcov : ∀ i, Covers entries i ↔ Covers more i) : runs = others := by
  refine Span.eq_of_covers_iff h.separated h'.separated ?_
  intro i
  rw [h.covers_iff, h'.covers_iff, hcov]

/-- The runs of some entries are unique. -/
theorem IsRunsOf.unique {runs others entries : List Span} (h : IsRunsOf runs entries)
    (h' : IsRunsOf others entries) : runs = others :=
  h.eq_of_covers_iff h' fun _ => Iff.rfl

/-- A separated list consists of its own runs. -/
theorem Separated.isRunsOf_self {runs : List Span} (h : Separated runs) : IsRunsOf runs runs :=
  ⟨h, fun _ => Iff.rfl⟩

/-! ### Maximal runs -/

/-- **A maximal run of the indices with a property.** -/
structure MaximalIn (p : UInt32 → Prop) (t : Span) : Prop where
  proper : t.Proper
  holds : ∀ i ∈ t, p i
  not_after : ¬ p t.hi
  not_before : ∀ i : UInt32, i.toNat + 1 = t.lo.toNat → ¬ p i

variable {p : UInt32 → Prop} {t u : Span} {spans : List Span}

/-- Of two runs that share an index, a maximal one begins no later than the other. -/
theorem MaximalIn.lo_le_lo (ht : t.MaximalIn p) (hu : ∀ i ∈ u, p i) {i : UInt32} (hit : i ∈ t)
    (hiu : i ∈ u) : t.lo ≤ u.lo := by
  refine UInt32.not_lt.1 ?_
  intro hlt
  -- otherwise the other one would hold the index before the first one of `t`
  have hpred : (t.lo - 1).toNat + 1 = t.lo.toNat := by
    have hlt' := UInt32.lt_iff_toNat_lt.1 hlt
    have hone : (1 : UInt32) ≤ t.lo := by
      rw [UInt32.le_iff_toNat_le, UInt32.toNat_one]
      omega
    rw [UInt32.toNat_sub_of_le _ _ hone, UInt32.toNat_one]
    omega
  have hmem : t.lo - 1 ∈ u := by
    simp only [mem_def, UInt32.le_iff_toNat_le, UInt32.lt_iff_toNat_lt] at hlt hit hiu ⊢
    omega
  exact ht.not_before _ hpred (hu _ hmem)

/-- And it ends no earlier. -/
theorem MaximalIn.hi_le_hi (ht : t.MaximalIn p) (hu : ∀ i ∈ u, p i) {i : UInt32} (hit : i ∈ t)
    (hiu : i ∈ u) : u.hi ≤ t.hi := by
  refine UInt32.not_lt.1 ?_
  intro hlt
  have hmem : t.hi ∈ u := by
    refine ⟨?_, hlt⟩
    exact UInt32.le_of_lt (UInt32.lt_of_le_of_lt hiu.1 hit.2)
  exact ht.not_after (hu _ hmem)

/-- **Maximal runs that share an index are equal.** -/
theorem MaximalIn.eq_of_mem (ht : t.MaximalIn p) (hu : u.MaximalIn p) {i : UInt32} (hit : i ∈ t)
    (hiu : i ∈ u) : t = u := by
  have hlo := UInt32.le_antisymm (ht.lo_le_lo hu.holds hit hiu) (hu.lo_le_lo ht.holds hiu hit)
  have hhi := UInt32.le_antisymm (hu.hi_le_hi ht.holds hiu hit) (ht.hi_le_hi hu.holds hit hiu)
  cases t
  cases u
  simp_all

/-- A covered index inside a member of a separated list or right next to it belongs to the
member. -/
theorem Separated.mem_of_covers (h : Separated spans) (ht : t ∈ spans) {i : UInt32}
    (hi : Covers spans i) (hlo : t.lo.toNat ≤ i.toNat + 1) (hhi : i ≤ t.hi) : i ∈ t := by
  obtain ⟨u, hu, hmem⟩ := hi
  rcases h.eq_or_gap ht hu with rfl | hgap | hgap
  · exact hmem
  · -- a later member begins beyond the end of `t`
    have hlt : t.hi < i := UInt32.lt_of_lt_of_le hgap hmem.1
    exact absurd hhi (UInt32.not_le.2 hlt)
  · -- an earlier one ends at least one index before `t` begins
    have hend := UInt32.lt_iff_toNat_lt.1 hmem.2
    have hbegin := UInt32.lt_iff_toNat_lt.1 hgap
    omega

/-- The gaps of a separated list keep its members from being drawn out. -/
theorem Separated.maximalIn_of_mem (h : Separated spans) (ht : t ∈ spans) :
    t.MaximalIn (Covers spans) := by
  have hproper := UInt32.lt_iff_toNat_lt.1 (h.1 t ht)
  refine ⟨h.1 t ht, fun i hi => ⟨t, ht, hi⟩, ?_, fun i hi => ?_⟩
  · intro hcov
    have hmem := h.mem_of_covers ht hcov (by omega) (UInt32.le_refl _)
    exact UInt32.lt_irrefl _ hmem.2
  · intro hcov
    have hle : i ≤ t.hi := by
      rw [UInt32.le_iff_toNat_le]
      omega
    have hmem := h.mem_of_covers ht hcov (by omega) hle
    have hlo := UInt32.le_iff_toNat_le.1 hmem.1
    omega

/-- **The members of a separated list are the maximal runs** of what it covers. -/
theorem Separated.mem_iff_maximalIn (h : Separated spans) :
    t ∈ spans ↔ t.MaximalIn (Covers spans) := by
  constructor
  · exact h.maximalIn_of_mem
  · intro ht
    -- the first index of a maximal run is covered by a member, which is maximal too
    obtain ⟨u, hu, hmem⟩ := ht.holds t.lo ht.proper.lo_mem
    rw [ht.eq_of_mem (h.maximalIn_of_mem hu) ht.proper.lo_mem hmem]
    exact hu

theorem Separated.nodup (h : Separated spans) : spans.Nodup := by
  refine h.2.imp_of_mem fun {t u} ht _ hgap => ?_
  rintro rfl
  exact UInt32.lt_asymm hgap (h.1 t ht)

/-- **A separated list has as many members as there are maximal runs** of what it covers. -/
theorem Separated.ncard_maximalIn (h : Separated spans) :
    {t : Span | t.MaximalIn (Covers spans)}.ncard = spans.length := by
  have hset : {t : Span | t.MaximalIn (Covers spans)} = (spans.toFinset : Set Span) := by
    ext t
    simp [h.mem_iff_maximalIn]
  rw [hset, Set.ncard_coe_finset, List.toFinset_card_of_nodup h.nodup]

end IndexSpace.Span
