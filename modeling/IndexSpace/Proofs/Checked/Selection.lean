/-
**Selections, with every step checked.**

Here everything that is done to a selection is carried out in checked steps.  The runs have to end
within the space of the selection that they are read from, what is stored has to end within the
space of the selection that it is stored in, and the elements counted so far have to fit into 32
bits.  No check fails for a well-formed selection: its entries are within its space, a span that is
added was compared with the size before, and so was the greatest element of a selection that is
added as a whole.

Main definitions:

* `IndexSpace.Checked.runs`, `IndexSpace.Checked.count`, `IndexSpace.Checked.last?`,
  `IndexSpace.Checked.isContiguous`, `IndexSpace.Checked.text`, `IndexSpace.Checked.agrees` —
  reading a selection;
* `IndexSpace.Checked.answer` — **the answer to a question**;
* `IndexSpace.Checked.store`, `IndexSpace.Checked.addSpan`, `IndexSpace.Checked.addAll`,
  `IndexSpace.Checked.normalize` — changing it;
* `IndexSpace.Checked.seed`, `IndexSpace.Checked.edit` — **beginnings and changes**.

Main results:

* `IndexSpace.Checked.count_eq_ok` — the elements are counted without leaving 32 bits;
* `IndexSpace.Checked.agrees_eq_ok`, `IndexSpace.Checked.answer_eq_ok`,
  `IndexSpace.Checked.seed_eq_ok`, `IndexSpace.Checked.edit_eq_ok` — **well-formed selections are
  read and changed without a fault**.
-/

import IndexSpace.Proofs.Selection.Counting
import IndexSpace.Proofs.Checked.RunStream

set_option relaxedAutoImplicit false
set_option autoImplicit false

namespace IndexSpace

namespace Selection.WellFormed

variable {s : Selection}

/-- The stored entries of a well-formed selection are within its space. -/
theorem within_stream (h : s.WellFormed) : s.stream.Within s.size where
  feed := by
    constructor
    · intro t ht
      have hmem := Std.ExtTreeSet.mem_toList.1 ht
      exact ⟨h.proper t hmem, h.spans_le t hmem⟩
    · intro i hi
      exact h.points_lt i (Std.ExtTreeSet.mem_toList.1 hi)
  pending := by simp [stream, RunStream.start]

/-- So are its runs. -/
theorem within_of_mem_runs (h : s.WellFormed) : ∀ t ∈ s.runs, t.Within s.size :=
  h.within_stream.of_mem_toList

end Selection.WellFormed

namespace Checked

variable {s t : Selection}

/-! ### Reading -/

/-- The runs. -/
def runs (s : Selection) : Except Fault (List Span) := toList s.size s.stream

/-- The sum with the number of indices of a span, which has to have 32 bits. -/
def addLength (n : UInt64) (t : Span) : Except Fault UInt64 := do
  let k ← length t
  if n.toNat + k.toNat < UInt32.size then return n + k.toUInt64 else .error (.sum n k)

/-- **The number of elements.** -/
def count (s : Selection) : Except Fault UInt64 := do (← runs s).foldlM addLength 0

/-- The greatest element. -/
def last? (s : Selection) : Except Fault (Option UInt32) := do
  return ((← s.spans.toList.mapM last) ++ s.points.toList).max?

/-- Whether there is no gap between two elements. -/
def isContiguous (s : Selection) : Except Fault Bool :=
  if s.normal then
    return s.points.isEmpty && decide (s.spans.size ≤ 1)
  else do
    return (← nth s.size 1 s.stream).isNone

/-- The written form of a run. -/
def brief (t : Span) : Except Fault String := do
  return if (← length t) = 1 then Text.decimal t.lo else t.text

/-- The written form of the elements. -/
def text (s : Selection) : Except Fault String := do
  return Text.braced (← (← runs s).mapM brief)

/-- **Whether two selections have the same elements of the same space.** -/
def agrees (s t : Selection) : Except Fault Bool :=
  if s.size = t.size then streamsAgree s.size t.size s.stream t.stream else return false

/-- **The answer to a question.**  Some questions are answered without a calculation. -/
def answer (s : Selection) : Question → Except Fault Answer
  | .count => do return .number (← count s).toNat
  | .contiguous => do return .flag (← isContiguous s)
  | .text => do return .text (← text s)
  | .size => return s.answer .size
  | .heapBytes => return s.answer .heapBytes
  | .empty => return s.answer .empty
  | .normal => return s.answer .normal
  | .dump => return s.answer .dump
  | .contains is => return s.answer (.contains is)
  | .elements lo hi => return s.answer (.elements lo hi)

theorem runs_eq_ok (h : s.WellFormed) : runs s = .ok s.runs := toList_eq_ok h.within_stream

/-- Numbers of indices are added without a fault as long as all of them together have 32 bits. -/
theorem foldlM_addLength_eq_ok {spans : List Span} (h : ∀ t ∈ spans, t.Proper) {n : UInt64}
    (hroom : n.toNat + Span.total spans < UInt32.size) :
    spans.foldlM addLength n = .ok (spans.foldl (fun n t => n + t.length.toUInt64) n) := by
  induction spans generalizing n with
  | nil => rfl
  | cons t spans ih =>
      obtain ⟨ht, hspans⟩ := List.forall_mem_cons.1 h
      rw [Span.total_cons, ← Nat.add_assoc] at hroom
      have hfits : n.toNat + (t.hi.toNat - t.lo.toNat) < UInt32.size :=
        Nat.lt_of_add_right_lt hroom
      have hadd := ht.toNat_add_length (Nat.lt_trans hfits (by decide))
      have hstep : addLength n t = .ok (n + t.length.toUInt64) := by
        rw [← Span.length_toNat ht] at hfits
        rw [addLength, length_eq_ok ht, ok_bind, if_pos hfits]
        rfl
      rw [← hadd] at hroom
      rw [List.foldlM_cons, hstep, ok_bind, ih hspans hroom]
      rfl

/-- **The elements are counted without leaving 32 bits.** -/
theorem count_eq_ok (h : s.WellFormed) : count s = .ok s.count := by
  have hroom : (0 : UInt64).toNat + Span.total s.runs < UInt32.size := by
    rw [UInt64.toNat_zero, Nat.zero_add]
    exact Nat.lt_of_le_of_lt h.total_runs_le s.size.toNat_lt
  rw [count, runs_eq_ok h, ok_bind, foldlM_addLength_eq_ok h.separated_runs.1 hroom]
  rfl

theorem last?_eq_ok (h : s.WellFormed) : last? s = .ok s.last? := by
  have hlast : s.spans.toList.mapM last = .ok (s.spans.toList.map Span.last) := by
    refine mapM_eq_ok fun t ht => ?_
    exact last_eq_ok (h.proper t (Std.ExtTreeSet.mem_toList.1 ht))
  rw [last?, hlast]
  rfl

theorem isContiguous_eq_ok (h : s.WellFormed) : isContiguous s = .ok s.isContiguous := by
  rw [isContiguous, nth_eq_ok h.within_stream, Selection.isContiguous]
  split <;> rfl

theorem brief_eq_ok {t : Span} (h : t.Proper) : brief t = .ok t.brief := by
  rw [brief, length_eq_ok h]
  rfl

theorem text_eq_ok (h : s.WellFormed) : text s = .ok s.text := by
  have hbrief : s.runs.mapM brief = .ok (s.runs.map Span.brief) :=
    mapM_eq_ok fun t ht => brief_eq_ok (h.separated_runs.1 t ht)
  rw [text, runs_eq_ok h, ok_bind, hbrief]
  rfl

/-- **Well-formed selections are compared without a fault.** -/
theorem agrees_eq_ok (hs : s.WellFormed) (ht : t.WellFormed) :
    agrees s t = .ok (s.agrees t) := by
  rw [agrees, streamsAgree_eq_ok hs.within_stream ht.within_stream, Selection.agrees]
  by_cases h : s.size = t.size <;> simp [h]

/-- **Every question to a well-formed selection is answered without a fault.** -/
theorem answer_eq_ok (h : s.WellFormed) (q : Question) : answer s q = .ok (s.answer q) := by
  cases q with
  | count => simp [answer, count_eq_ok h, Selection.answer]
  | contiguous => simp [answer, isContiguous_eq_ok h, Selection.answer]
  | text => simp [answer, text_eq_ok h, Selection.answer]
  | _ => rfl

/-! ### Changing -/

/-- **Stores the indices of a span**, which has to be within the space. -/
def store (s : Selection) (t : Span) : Except Fault Selection := do
  let t ← within s.size t
  return if (← length t) = 1 then s.storePoint t.lo else s.storeSpan t

/-- Adds the indices between two bounds. -/
def addSpan (s : Selection) (lo hi : UInt32) : Except Fault (Except Refusal Selection) :=
  if lo = hi then return .ok s
  else if s.size ≤ lo then return .error (.outside lo s.size)
  else if s.size < hi then return .error (.outside hi s.size)
  else if hi < lo then return .error (.reversed lo hi)
  else do return .ok (← store s (← bounds lo hi))

/-- Adds the elements of `t`. -/
def addAll (s t : Selection) : Except Fault (Except Refusal Selection) := do
  match (← last? t).filter (s.size ≤ ·) with
  | some i => return .error (.outside i s.size)
  | none => return .ok (← (← runs t).foldlM store s)

/-- **Carries out an addition.**  Single indices are stored without a calculation. -/
def add (s : Selection) : Addition Selection → Except Fault (Selection × Verdict)
  | .point i => return s.add (.point i)
  | .span lo hi => do return s.attempt (← addSpan s lo hi)
  | .points is => return s.add (.points is)
  | .all t => do return s.attempt (← addAll s t)

/-- The selection with its runs as stored spans. -/
def normalize (s : Selection) : Except Fault Selection :=
  if s.normal then return s else do return ⟨s.size, .ofList (← runs s), ∅, true⟩

/-- What normalization reports. -/
def normalizeEvents (s : Selection) : Except Fault (List Event) :=
  if s.normal then return []
  else do return [.normalized s.spans.size s.points.size (← normalize s).spans.size]

/-- **Carries out a change.** -/
def edit (s : Selection) : Edit Selection → Except Fault Outcome
  | .add a => do
      let (t, verdict) ← add s a
      return ⟨t, verdict, []⟩
  | .resize size => return s.edit (.resize size)
  | .normalize => do return ⟨← normalize s, .whole none, ← normalizeEvents s⟩

/-- **The selection that a seed stands for.** -/
def seed : Seed → Except Fault Selection
  | .empty size => return .empty size
  | .complete size =>
      if 0 < size then do
        let t ← within size (← bounds 0 size)
        return { Selection.empty size with spans := (∅ : Std.ExtTreeSet Span).insert t }
      else
        return .empty size

theorem store_eq_ok {u : Span} (h : u.Within s.size) : store s u = .ok (s.store u) := by
  rw [store, within_eq_ok h, ok_bind, length_eq_ok h.1]
  rfl

/-- Storing changes nothing about the space, so that many spans are stored like one. -/
theorem foldlM_store_eq_ok {spans : List Span} (h : ∀ u ∈ spans, u.Within s.size) :
    spans.foldlM store s = .ok (spans.foldl Selection.store s) := by
  induction spans generalizing s with
  | nil => rfl
  | cons u spans ih =>
      obtain ⟨hu, hspans⟩ := List.forall_mem_cons.1 h
      rw [List.foldlM_cons, store_eq_ok hu, ok_bind, ih (by simpa using hspans)]
      rfl

/-- The checks before a span is stored leave only bounds of a span within the space. -/
theorem addSpan_eq_ok (s : Selection) (lo hi : UInt32) :
    addSpan s lo hi = .ok (s.addSpan lo hi) := by
  unfold addSpan Selection.addSpan
  split_ifs with heq hlo hhi hrev
  · rfl
  · rfl
  · rfl
  · rfl
  · have hlt : lo < hi := UInt32.lt_of_le_of_ne (UInt32.not_lt.1 hrev) heq
    have hwithin : Span.Within ⟨lo, hi⟩ s.size := ⟨hlt, UInt32.not_lt.1 hhi⟩
    rw [bounds_eq_ok hlt, ok_bind, store_eq_ok hwithin]
    rfl

/-- If the greatest element of a selection is in the space of another one, all its runs end within
that space. -/
theorem addAll_eq_ok (s : Selection) (ht : t.WellFormed) : addAll s t = .ok (s.addAll t) := by
  rw [addAll, last?_eq_ok ht, ok_bind, Selection.addAll]
  cases hlast : t.last?.filter (s.size ≤ ·) with
  | some i => rfl
  | none =>
      have hruns := ht.within_runs (ht.filter_last?_eq_none_iff.1 hlast)
      simp only [runs_eq_ok ht, ok_bind, foldlM_store_eq_ok hruns]
      rfl

theorem add_eq_ok {a : Addition Selection} (ha : ∀ t ∈ a.refs, t.WellFormed) :
    add s a = .ok (s.add a) := by
  cases a with
  | point i => rfl
  | span lo hi => simp [add, addSpan_eq_ok, Selection.add]
  | points is => rfl
  | all t => simp [add, addAll_eq_ok s (ha t List.mem_cons_self), Selection.add]

theorem normalize_eq_ok (h : s.WellFormed) : normalize s = .ok s.normalize := by
  rw [normalize, runs_eq_ok h, Selection.normalize]
  split <;> rfl

theorem normalizeEvents_eq_ok (h : s.WellFormed) :
    normalizeEvents s = .ok s.normalizeEvents := by
  rw [normalizeEvents, normalize_eq_ok h, Selection.normalizeEvents]
  split <;> rfl

/-- **Every change to a well-formed selection goes through without a fault.** -/
theorem edit_eq_ok (h : s.WellFormed) {e : Edit Selection} (he : ∀ t ∈ e.refs, t.WellFormed) :
    edit s e = .ok (s.edit e) := by
  cases e with
  | add a =>
      rw [edit, add_eq_ok he]
      rfl
  | resize size => rfl
  | normalize =>
      rw [edit, normalize_eq_ok h, ok_bind, normalizeEvents_eq_ok h]
      rfl

/-- **Every beginning goes through without a fault.** -/
theorem seed_eq_ok (x : Seed) : seed x = .ok x.selection := by
  cases x with
  | empty size => rfl
  | complete size =>
      by_cases hpos : 0 < size
      · have hwithin : Span.Within ⟨0, size⟩ size := ⟨hpos, UInt32.le_refl _⟩
        simp [seed, Seed.selection, Selection.complete, hpos, bounds_eq_ok hpos,
          within_eq_ok hwithin]
      · simp [seed, Seed.selection, Selection.complete, hpos, Selection.empty]

end Checked

end IndexSpace
