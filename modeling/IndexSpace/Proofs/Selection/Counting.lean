/-
**The count is the number of indices of the space that are found.**

The elements are counted run by run, in words of 64 bits.  The runs are separated and end within the
space, so that the numbers of indices of any of them add up to no more than the size of the space.
This size has 32 bits, so the words are wide enough at every point of the count, and the result is
the number that the same sum gives for natural numbers.  Since no index is covered by two runs, this
is the number of elements.

An index is found by looking it up among the stored entries, which does not ask for the runs.  All
the same the count says how many indices of the space are found, however many entries hold one of
them: the runs cover the elements, each of them once, and every element lies within the space.  So
the count tells the two extreme selections apart from all others: it is zero if there are no
elements, and it reaches the size of the space only if there is every one.

Main definitions:

* `IndexSpace.Span.total` — the number of indices of some spans, each span counted for itself;
* `IndexSpace.Selection.found` — the indices of the space that are found.

Main results:

* `IndexSpace.Span.Separated.add_total_le` — separated spans between two bounds have no more indices
  than there are between the bounds;
* `IndexSpace.Span.Separated.ncard_covers` — separated spans cover as many indices as they have
  altogether;
* `IndexSpace.Selection.WellFormed.total_take_runs_le` — **the runs counted so far never have more
  indices than the space**;
* `IndexSpace.Selection.WellFormed.count_toNat`,
  `IndexSpace.Selection.WellFormed.count_toNat_eq_ncard` — the count is the number of indices of the
  runs, and **the number of elements**;
* `IndexSpace.Selection.length_elementsIn` — the elements of an interval are listed once each;
* `IndexSpace.Selection.WellFormed.count_eq_zero_iff`,
  `IndexSpace.Selection.WellFormed.count_eq_size_iff` — when the count is least, and when greatest;
* `IndexSpace.Selection.count_exact` — **the count is the number of indices that are found**.
-/

import Mathlib.Data.FinEnum
import Mathlib.Order.Interval.Finset.Nat
import IndexSpace.Proofs.Selection.Agreement

set_option relaxedAutoImplicit false
set_option autoImplicit false

namespace IndexSpace

namespace Span

/-- The number of indices of some spans, each span counted for itself. -/
def total : List Span → Nat
  | [] => 0
  | t :: spans => t.hi.toNat - t.lo.toNat + total spans

@[simp] theorem total_nil : total [] = 0 := rfl

@[simp] theorem total_cons (t : Span) (spans : List Span) :
    total (t :: spans) = t.hi.toNat - t.lo.toNat + total spans := rfl

/-- **Separated spans between two bounds** have no more indices than there are between the
bounds. -/
theorem Separated.add_total_le {spans : List Span} (h : Separated spans) {m n : Nat}
    (hlo : ∀ t ∈ spans, m ≤ t.lo.toNat) (hhi : ∀ t ∈ spans, t.hi.toNat ≤ n) (hmn : m ≤ n) :
    m + total spans ≤ n := by
  -- induction along the list: behind the first span, its end is the lower bound
  induction spans generalizing m with
  | nil => exact hmn
  | cons s spans ih =>
      obtain ⟨hs, hgap, hsep⟩ := separated_cons.1 h
      obtain ⟨hslo, -⟩ := List.forall_mem_cons.1 hlo
      obtain ⟨hshi, hrest⟩ := List.forall_mem_cons.1 hhi
      have hproper : s.lo.toNat < s.hi.toNat := UInt32.lt_iff_toNat_lt.1 hs
      have htail : s.hi.toNat + total spans ≤ n := by
        refine ih hsep (fun t ht => ?_) hrest hshi
        exact UInt32.le_iff_toNat_le.1 (UInt32.le_of_lt (hgap t ht))
      rw [total_cons]
      omega

theorem Separated.take {spans : List Span} (h : Separated spans) (k : Nat) :
    Separated (spans.take k) :=
  ⟨fun t ht => h.1 t (List.mem_of_mem_take ht), h.2.take⟩

/-- One more proper span is counted without wrapping around if there is room for its indices. -/
theorem Proper.toNat_add_length {t : Span} (h : t.Proper) {n : UInt64}
    (hroom : n.toNat + (t.hi.toNat - t.lo.toNat) < UInt64.size) :
    (n + t.length.toUInt64).toNat = n.toNat + (t.hi.toNat - t.lo.toNat) := by
  rw [UInt64.toNat_add, UInt32.toNat_toUInt64, length_toNat h]
  exact Nat.mod_eq_of_lt hroom

/-- So are many, if there is room for the indices of all of them. -/
theorem toNat_foldl_length {spans : List Span} (h : ∀ t ∈ spans, t.Proper) {n : UInt64}
    (hroom : n.toNat + total spans < UInt64.size) :
    (spans.foldl (fun n t => n + t.length.toUInt64) n).toNat = n.toNat + total spans := by
  induction spans generalizing n with
  | nil => rfl
  | cons t spans ih =>
      obtain ⟨ht, hspans⟩ := List.forall_mem_cons.1 h
      rw [total_cons, ← Nat.add_assoc] at hroom ⊢
      have hadd := ht.toNat_add_length (Nat.lt_of_add_right_lt hroom)
      rw [← hadd] at hroom ⊢
      exact ih hspans hroom

/-! ### Numbers of indices -/

/-- A span has as many indices as there are between its bounds. -/
theorem ncard_mem (t : Span) : {i | i ∈ t}.ncard = t.hi.toNat - t.lo.toNat := by
  have himage : UInt32.toNat '' {i | i ∈ t} = ↑(Finset.Ico t.lo.toNat t.hi.toNat) := by
    ext n
    rw [Set.mem_image, Finset.coe_Ico, Set.mem_Ico]
    constructor
    · rintro ⟨i, hi, rfl⟩
      exact ⟨UInt32.le_iff_toNat_le.1 hi.1, UInt32.lt_iff_toNat_lt.1 hi.2⟩
    · rintro ⟨hlo, hhi⟩
      have hn : (UInt32.ofNat n).toNat = n :=
        UInt32.toNat_ofNat_of_lt (Nat.lt_trans hhi t.hi.toNat_lt)
      refine ⟨.ofNat n, ⟨?_, ?_⟩, hn⟩
      · rwa [UInt32.le_iff_toNat_le, hn]
      · rwa [UInt32.lt_iff_toNat_lt, hn]
  rw [← Set.ncard_image_of_injective _ fun i j => UInt32.toNat_inj.1, himage,
    Set.ncard_coe_finset, Nat.card_Ico]

/-- **Separated spans cover as many indices as they have altogether**, for no index is covered
twice. -/
theorem Separated.ncard_covers {spans : List Span} (h : Separated spans) :
    {i | Covers spans i}.ncard = total spans := by
  induction spans with
  | nil => simp
  | cons t spans ih =>
      obtain ⟨-, hgap, hsep⟩ := separated_cons.1 h
      have hunion : {i | Covers (t :: spans) i} = {i | i ∈ t} ∪ {i | Covers spans i} := by
        ext i
        exact covers_cons
      have hdisjoint : Disjoint {i | i ∈ t} {i | Covers spans i} := by
        rw [Set.disjoint_left]
        rintro i hi ⟨u, hu, hiu⟩
        exact UInt32.lt_irrefl i (UInt32.lt_trans hi.2 (UInt32.lt_of_lt_of_le (hgap u hu) hiu.1))
      rw [hunion, Set.ncard_union_eq hdisjoint, ncard_mem, ih hsep, total_cons]

end Span

namespace Selection.WellFormed

variable {s : Selection}

/-- **The runs counted so far never have more indices than the space.** -/
theorem total_take_runs_le (h : s.WellFormed) (k : Nat) :
    Span.total (s.runs.take k) ≤ s.size.toNat := by
  have hhi : ∀ t ∈ s.runs.take k, t.hi.toNat ≤ s.size.toNat := by
    intro t ht
    have hwithin := h.within_runs (fun _ => h.lt_size_of_mem) t (List.mem_of_mem_take ht)
    exact UInt32.le_iff_toNat_le.1 hwithin.2
  have hle := (h.separated_runs.take k).add_total_le (fun t _ => Nat.zero_le _) hhi
    (Nat.zero_le _)
  rwa [Nat.zero_add] at hle

theorem total_runs_le (h : s.WellFormed) : Span.total s.runs ≤ s.size.toNat := by
  have hle := h.total_take_runs_le s.runs.length
  rwa [List.take_length] at hle

/-- **The count is the number of indices of the runs.** -/
theorem count_toNat (h : s.WellFormed) : s.count.toNat = Span.total s.runs := by
  have hroom : (0 : UInt64).toNat + Span.total s.runs < UInt64.size := by
    have hsize : s.size.toNat < UInt64.size := Nat.lt_trans s.size.toNat_lt (by decide)
    rw [UInt64.toNat_zero, Nat.zero_add]
    exact Nat.lt_of_le_of_lt h.total_runs_le hsize
  rw [count, Span.toNat_foldl_length h.separated_runs.1 hroom, UInt64.toNat_zero, Nat.zero_add]

/-- **The count is the number of elements.** -/
theorem count_toNat_eq_ncard (h : s.WellFormed) :
    s.count.toNat = {i | s.contains i = true}.ncard := by
  have hcov : {i | s.contains i = true} = {i | Span.Covers s.runs i} :=
    Set.ext fun _ => h.contains_iff_covers_runs
  rw [h.count_toNat, hcov, h.separated_runs.ncard_covers]

/-- What has more elements has no smaller count. -/
theorem count_le_count {t : Selection} (hs : s.WellFormed) (ht : t.WellFormed)
    (h : ∀ i, s.contains i = true → t.contains i = true) : s.count ≤ t.count := by
  rw [UInt64.le_iff_toNat_le, hs.count_toNat_eq_ncard, ht.count_toNat_eq_ncard]
  exact Set.ncard_le_ncard h

end Selection.WellFormed

namespace Selection

/-! ### Lists of elements -/

/-- The indices of the space that are found. -/
def found (s : Selection) : Set UInt32 := {i | i < s.size ∧ s.contains i = true}

/-- A number between two 32-bit bounds is one of 32 bits. -/
theorem toNat_ofNat_of_mem_range' {lo hi : UInt32} {n : Nat}
    (h : n ∈ List.range' lo.toNat (hi.toNat - lo.toNat)) : (UInt32.ofNat n).toNat = n := by
  have hhi : hi.toNat < 4294967296 := hi.toNat_lt
  rw [List.mem_range'_1] at h
  exact UInt32.toNat_ofNat_of_lt (Nat.lt_trans (by omega) hhi)

theorem mem_elementsIn {s : Selection} {lo hi i : UInt32} :
    i ∈ s.elementsIn lo hi ↔ (lo ≤ i ∧ i < hi) ∧ s.contains i = true := by
  rw [elementsIn, List.mem_filter, List.mem_map, UInt32.le_iff_toNat_le, UInt32.lt_iff_toNat_lt]
  refine and_congr_left fun _ => ?_
  constructor
  · rintro ⟨n, hn, rfl⟩
    rw [toNat_ofNat_of_mem_range' hn]
    rw [List.mem_range'_1] at hn
    omega
  · rintro ⟨hlo, hhi⟩
    refine ⟨i.toNat, ?_, UInt32.ofNat_toNat⟩
    rw [List.mem_range'_1]
    omega

theorem nodup_elementsIn (s : Selection) (lo hi : UInt32) : (s.elementsIn lo hi).Nodup := by
  refine List.Nodup.filter _ (List.Nodup.map_on ?_ List.nodup_range')
  intro m hm n hn heq
  rw [← toNat_ofNat_of_mem_range' hm, heq, toNat_ofNat_of_mem_range' hn]

/-- **The elements of an interval are listed once each.** -/
theorem length_elementsIn (s : Selection) (lo hi : UInt32) :
    (s.elementsIn lo hi).length = {i | (lo ≤ i ∧ i < hi) ∧ s.contains i = true}.ncard := by
  have hset : {i | (lo ≤ i ∧ i < hi) ∧ s.contains i = true} =
      ((s.elementsIn lo hi).toFinset : Set UInt32) := by
    ext i
    simp [mem_elementsIn]
  rw [hset, Set.ncard_coe_finset, List.toFinset_card_of_nodup (s.nodup_elementsIn lo hi)]

/-- There are as many indices below a size as it says. -/
theorem ncard_lt (size : UInt32) : {i | i < size}.ncard = size.toNat := by
  have h := Span.ncard_mem ⟨0, size⟩
  simpa [Span.mem_def] using h

namespace WellFormed

variable {s : Selection}

/-! ### The count and the space -/

/-- Whatever is found lies within the space. -/
theorem found_eq (h : s.WellFormed) : s.found = {i | s.contains i = true} := by
  ext i
  refine and_iff_right_of_imp ?_
  intro hi
  exact h.lt_size_of_mem (h.contains_iff.1 hi)

theorem count_toNat_eq_ncard_found (h : s.WellFormed) : s.count.toNat = s.found.ncard := by
  rw [h.count_toNat_eq_ncard, h.found_eq]

/-- **The count is zero exactly if nothing is stored.** -/
theorem count_eq_zero_iff (h : s.WellFormed) : s.count = 0 ↔ s.isEmpty = true := by
  rw [← UInt64.toNat_inj, UInt64.toNat_zero, h.count_toNat_eq_ncard, Set.ncard_eq_zero,
    h.isEmpty_iff_forall_not_mem, Set.eq_empty_iff_forall_notMem]
  exact forall_congr' fun i => not_congr h.contains_iff

/-- **The count is the size of the space exactly if every index of it is found.** -/
theorem count_eq_size_iff (h : s.WellFormed) :
    s.count = s.size.toUInt64 ↔ ∀ i, i < s.size → s.contains i = true := by
  have hsub : s.found ⊆ {i | i < s.size} := fun i hi => hi.1
  rw [← UInt64.toNat_inj, UInt32.toNat_toUInt64, h.count_toNat_eq_ncard_found]
  constructor
  · intro hcount i hi
    -- a part of the space that has as many indices as the space is all of it
    have heq : s.found = {i | i < s.size} := by
      refine Set.eq_of_subset_of_ncard_le hsub ?_
      rw [ncard_lt, hcount]
    have hmem : i ∈ s.found := by
      rw [heq]
      exact hi
    exact hmem.2
  · intro hall
    have heq : s.found = {i | i < s.size} := Set.Subset.antisymm hsub fun i hi => ⟨hi, hall i hi⟩
    rw [heq, ncard_lt]

/-- Every index of the space is found exactly in what agrees with the complete selection. -/
theorem agrees_complete_iff (h : s.WellFormed) :
    s.agrees (complete s.size) = true ↔ ∀ i, i < s.size → s.contains i = true := by
  rw [h.agrees_iff_equivalent (wellFormed_complete s.size)]
  constructor
  · intro hequiv i hi
    exact h.contains_iff.2 ((hequiv.mem_iff i).2 (mem_complete.2 hi))
  · intro hall
    refine ⟨h, wellFormed_complete s.size, rfl, ?_⟩
    intro i
    rw [mem_complete]
    exact ⟨h.lt_size_of_mem, fun hi => h.contains_iff.1 (hall i hi)⟩

end WellFormed

/-- **The count is the number of indices of the space that are found**, whatever entries overlap,
repeat or were normalized on the way; it is the length of the list of all elements.  It is zero
exactly if the selection is empty, and it is the size of the space exactly if the selection agrees
with the complete one. -/
theorem count_exact {s : Selection} (hs : s.Reachable) :
    s.count.toNat = s.found.ncard ∧
      s.count.toNat = (s.elementsIn 0 s.size).length ∧
      (s.count = 0 ↔ s.isEmpty = true) ∧
      (s.count = s.size.toUInt64 ↔ s.agrees (complete s.size) = true) := by
  have h := hs.wellFormed
  refine ⟨h.count_toNat_eq_ncard_found, ?_, h.count_eq_zero_iff, ?_⟩
  · rw [h.count_toNat_eq_ncard_found, length_elementsIn]
    simp [found]
  · rw [h.count_eq_size_iff, h.agrees_complete_iff]

/-- A normalized span, an index inside it, another one right after it, and a span that holds the
latter too: four indices are found. -/
theorem count_exact_overlapping :
    ((((empty 9).add (.span 1 4)).1.normalize.add (.points [2, 4])).1.add (.span 3 5)).1.Reachable ∧
      ((((empty 9).add (.span 1 4)).1.normalize.add (.points [2, 4])).1.add
        (.span 3 5)).1.found.ncard = 4 := by
  have hs : ((((empty 9).add (.span 1 4)).1.normalize.add (.points [2, 4])).1.add
      (.span 3 5)).1.Reachable := by
    refine ((((Reachable.empty 9).add ?_).normalize).add ?_).add ?_ <;> simp [Addition.refs]
  have hcount : ((((empty 9).add (.span 1 4)).1.normalize.add (.points [2, 4])).1.add
      (.span 3 5)).1.count.toNat = 4 := by
    decide +kernel
  exact ⟨hs, (count_exact hs).1 ▸ hcount⟩

end Selection

end IndexSpace
