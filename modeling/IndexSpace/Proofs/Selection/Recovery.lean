/-
**What the written forms of a selection tell.**

The dump of a selection shows what is stored: its four parts, each under its name.  Nothing is lost
on the way, so that two selections with the same dump are equal in all four parts, however many
spans and indices they store.  The dump is taken apart from left to right: each part can be read off
the beginning of what is left, and what comes after it is never a digit.

The other written form of a selection lists its runs.  This module says how a list of runs is
written, gives a reader for such texts, and proves that the reader gets back from the written form
the maximal runs of elements, in ascending order.  A comma also stands inside the bounds of a run,
and a number may be a run or a bound of one; so the reader takes the text apart from left to right,
one run at a time, and the bracket at the beginning of a run tells it which of the two to expect.

What can be read back is determined by the text.  So two selections are written in the same way only
if they have the same elements, whatever the sizes of their spaces; and since the runs depend on the
elements alone, they are written in the same way whenever they have.

Main definitions:

* `IndexSpace.Span.Shown`, `IndexSpace.Selection.Shows` — **how a run and a list of runs are
  written**;
* `IndexSpace.Selection.ListsRuns` — the maximal runs of elements, in ascending order;
* `IndexSpace.Span.brief?`, `IndexSpace.Selection.runsOfText?` — reading a run, and the whole text.

Main results:

* `IndexSpace.Selection.dump_inj` — **selections with the same dump store the same**;
* `IndexSpace.Span.Proper.brief?_brief_append`, `IndexSpace.Selection.runsOfText?_of_shows` — a run
  is read back from its written form, and so are all runs that a text shows;
* `IndexSpace.Selection.text_recovers_runs` — **the written form of a selection tells its elements
  and nothing else**.
-/

import IndexSpace.Proofs.Text.Readable
import IndexSpace.Proofs.Selection.Report

set_option relaxedAutoImplicit false
set_option autoImplicit false

namespace IndexSpace

/-! ### The stored form -/

namespace Span

/-- The dump of a span can be read back: it ends with its brace. -/
theorem readable_dump : Text.Readable dump := by
  intro s t x y _ _ h
  simp only [dump, Text.record, List.map_cons, List.map_nil, String.intercalate_cons_cons,
    String.intercalate_singleton, String.toList_append, List.append_assoc,
    List.append_cancel_left_eq] at h
  obtain ⟨hlo, h⟩ := Text.readable_decimal _ _ _ _ (by simp) (by simp) h
  simp only [List.append_cancel_left_eq] at h
  obtain ⟨hhi, h⟩ := Text.readable_decimal _ _ _ _ (by simp) (by simp) h
  refine ⟨?_, List.append_cancel_left h⟩
  cases s
  cases t
  simp_all

theorem opens_dump (s : Span) : Text.Opens s.dump :=
  ⟨'C', by simp [dump, Text.record], by decide⟩

end Span

namespace Selection

/-- **Selections with the same dump store the same.** -/
theorem dump_inj {s t : Selection} : s.dump = t.dump ↔ s = t := by
  constructor
  · intro h
    have hlist : s.dump.toList = t.dump.toList := by rw [h]
    simp only [dump, Text.record, List.map_cons, List.map_nil, String.intercalate_cons_cons,
      String.intercalate_singleton, String.toList_append, List.append_assoc,
      List.append_cancel_left_eq] at hlist
    -- each part is read off in turn, and the name of the next one after it
    obtain ⟨hspans, hlist⟩ :=
      Span.readable_dump.braced Span.opens_dump _ _ _ _ (by simp) (by simp) hlist
    simp only [List.append_cancel_left_eq] at hlist
    obtain ⟨hpoints, hlist⟩ :=
      Text.readable_decimal.braced Text.opens_decimal _ _ _ _ (by simp) (by simp) hlist
    simp only [List.append_cancel_left_eq] at hlist
    obtain ⟨hsize, hlist⟩ := Text.readable_decimal _ _ _ _ (by simp) (by simp) hlist
    simp only [List.append_cancel_left_eq, List.append_cancel_right_eq, String.toList_inj] at hlist
    have hnormal : s.normal = t.normal := by
      cases hs : s.normal <;> cases ht : t.normal <;> simp_all
    rw [Std.ExtTreeSet.toList_inj] at hspans hpoints
    cases s
    cases t
    simp_all
  · rintro rfl
    rfl

end Selection

/-! ### How runs are written -/

/-- **How a run is written**: a run of one index as the digits of that index, a longer run with the
digits of both bounds. -/
inductive Span.Shown : Span → String → Prop
  | index {lo hi : UInt32} : lo.toNat + 1 = hi.toNat → Shown ⟨lo, hi⟩ lo.toNat.repr
  | bounds {lo hi : UInt32} : lo.toNat + 1 < hi.toNat →
      Shown ⟨lo, hi⟩ ("[" ++ lo.toNat.repr ++ ", " ++ hi.toNat.repr ++ ")")

/-- **How runs are written**: between braces, with a comma and a blank between any two of them. -/
def Selection.Shows (text : String) (runs : List Span) : Prop :=
  ∃ items, List.Forall₂ Span.Shown runs items ∧
    text = "\x7b" ++ ", ".intercalate items ++ "\x7d"

namespace Span

variable {t : Span}

/-! ### One run -/

/-- **Reads a run**: with a bracket in front, both bounds and the closing bracket; otherwise an
index. -/
def brief? (text : List Char) : Option (Span × List Char) :=
  match Text.skip? "[" text with
  | some inner => do
      let (lo, afterLo) ← Text.number? inner
      let beforeHi ← Text.skip? ", " afterLo
      let (hi, afterHi) ← Text.number? beforeHi
      let rest ← Text.skip? ")" afterHi
      return (⟨lo, hi⟩, rest)
  | none => (Text.number? text).map fun (i, rest) => (unit i, rest)

/-- A proper span of one index is the unit span of that index. -/
theorem Proper.eq_unit (h : t.Proper) (hlen : t.length = 1) : t = unit t.lo := by
  have hhi : t.hi = t.lo + 1 := by
    have hnext := h.length_eq_one_iff.1 hlen
    have hlt := t.hi.toNat_lt
    rw [← UInt32.toNat_inj, UInt32.toNat_add, UInt32.toNat_one]
    omega
  cases t
  simp_all [unit]

theorem Proper.shown_brief (h : t.Proper) : t.Shown t.brief := by
  have hlt : t.lo.toNat < t.hi.toNat := UInt32.lt_iff_toNat_lt.1 h
  rw [brief]
  split
  next hlen => exact .index (h.length_eq_one_iff.1 hlen)
  next hlen =>
    rw [h.length_eq_one_iff] at hlen
    exact .bounds (by omega)

theorem Shown.proper {u : String} (h : t.Shown u) : t.Proper := by
  rw [Proper, UInt32.lt_iff_toNat_lt]
  cases h with
  | index hnext => exact Nat.lt_of_succ_le (Nat.le_of_eq hnext)
  | bounds hlt => exact Nat.lt_of_succ_lt hlt

/-- **A proper span is written in one way only**, and any other in none. -/
theorem shown_iff {u : String} : t.Shown u ↔ t.Proper ∧ u = t.brief := by
  constructor
  · intro h
    refine ⟨h.proper, ?_⟩
    have hlen := h.proper.length_eq_one_iff
    cases h with
    | index hnext => rw [brief, if_pos (hlen.2 hnext), Text.decimal]
    | bounds hlt =>
        rw [brief, if_neg fun hone => Nat.ne_of_lt hlt (hlen.1 hone)]
        rfl
  · rintro ⟨h, rfl⟩
    exact h.shown_brief

/-- So are many runs, one after the other. -/
theorem forall₂_shown_iff {runs : List Span} {items : List String} :
    List.Forall₂ Shown runs items ↔ (∀ t ∈ runs, t.Proper) ∧ items = runs.map brief := by
  induction runs generalizing items with
  | nil => simp
  | cons t runs ih =>
      simp only [List.forall₂_cons_left_iff, ih, shown_iff, List.forall_mem_cons, List.map_cons]
      constructor
      · rintro ⟨u, us, ⟨ht, rfl⟩, ⟨hruns, rfl⟩, rfl⟩
        exact ⟨⟨ht, hruns⟩, rfl⟩
      · rintro ⟨⟨ht, hruns⟩, rfl⟩
        exact ⟨_, _, ⟨ht, rfl⟩, ⟨hruns, rfl⟩, rfl⟩

/-- A number is not taken for a bracket. -/
theorem skip?_bracket_decimal_append (i : UInt32) (rest : List Char) :
    Text.skip? "[" ((Text.decimal i).toList ++ rest) = none := by
  rw [Option.eq_none_iff_forall_ne_some]
  intro inner h
  have heq := Text.skip?_eq_some_iff.1 h
  cases hdigits : (Text.decimal i).toList with
  | nil => exact Text.toList_decimal_ne_nil i hdigits
  | cons c cs =>
      have hdigit : c.isDigit = true :=
        Text.isDigit_of_mem_decimal (hdigits ▸ List.mem_cons_self)
      rw [hdigits] at heq
      obtain ⟨rfl, -⟩ := List.cons.inj heq
      exact absurd hdigit (by decide)

theorem brief?_index_append (i : UInt32) {rest : List Char} (h : Text.Ends rest) :
    brief? ((Text.decimal i).toList ++ rest) = some (unit i, rest) := by
  rw [brief?, skip?_bracket_decimal_append]
  simp [Text.number?_decimal_append i h]

theorem brief?_text_append (t : Span) (rest : List Char) :
    brief? (t.text.toList ++ rest) = some (t, rest) := by
  simp only [text, String.toList_append, List.append_assoc, brief?, Text.skip?_append]
  rw [Text.number?_decimal_append _ (by simp)]
  simp only [Option.bind_eq_bind, Option.bind_some, Text.skip?_append]
  rw [Text.number?_decimal_append _ (by simp)]
  simp only [Option.bind_some, Text.skip?_append]
  rfl

/-- **A run is read back from its written form**, if no digit comes after it. -/
theorem Proper.brief?_brief_append (ht : t.Proper) {rest : List Char} (h : Text.Ends rest) :
    brief? (t.brief.toList ++ rest) = some (t, rest) := by
  rw [brief]
  split
  next hlen => rw [brief?_index_append _ h, ← ht.eq_unit hlen]
  next => exact t.brief?_text_append rest

/-- Every run leaves less of the text. -/
theorem length_lt_of_brief? {text rest : List Char} (h : brief? text = some (t, rest)) :
    rest.length < text.length := by
  rw [brief?] at h
  split at h
  next inner hinner =>
    simp only [Option.bind_eq_bind, Option.bind_eq_some_iff, Prod.exists] at h
    obtain ⟨lo, afterLo, hlo, beforeHi, hcomma, hi, afterHi, hhi, rest', hclose, heq⟩ := h
    obtain ⟨-, rfl⟩ := Prod.mk.inj (Option.some.inj heq)
    calc rest'.length
        ≤ afterHi.length := Text.length_le_of_skip? hclose
      _ < beforeHi.length := Text.length_lt_of_number? hhi
      _ ≤ afterLo.length := Text.length_le_of_skip? hcomma
      _ < inner.length := Text.length_lt_of_number? hlo
      _ ≤ text.length := Text.length_le_of_skip? hinner
  next =>
    obtain ⟨⟨i, rest'⟩, hi, heq⟩ := Option.map_eq_some_iff.1 h
    obtain ⟨-, rfl⟩ := Prod.mk.inj heq
    exact Text.length_lt_of_number? hi

theorem opens_brief (t : Span) : Text.Opens t.brief := by
  rw [brief]
  split
  · exact Text.opens_decimal t.lo
  · exact ⟨'[', by simp [text], by decide⟩

end Span

namespace Selection

/-! ### All runs -/

/-- Reads runs, one of them at least, up to the brace that ends the text. -/
def moreRuns? (text : List Char) : Option (List Span) :=
  match _hrun : Span.brief? text with
  | none => none
  | some (t, rest) =>
      match _hcomma : Text.skip? ", " rest with
      | some more => (moreRuns? more).map (t :: ·)
      | none => if rest = ['\x7d'] then some [t] else none
termination_by text.length
decreasing_by
  exact Nat.lt_of_le_of_lt (Text.length_le_of_skip? _hcomma) (Span.length_lt_of_brief? _hrun)

/-- **Reads the runs of a text**: between braces, and none if there is nothing between them. -/
def runsOfText? (text : String) : Option (List Span) := do
  let inner ← Text.skip? "\x7b" text.toList
  if inner = ['\x7d'] then return [] else moreRuns? inner

theorem moreRuns?_of_comma {text rest more : List Char} {t : Span}
    (hrun : Span.brief? text = some (t, rest)) (hcomma : Text.skip? ", " rest = some more) :
    moreRuns? text = (moreRuns? more).map (t :: ·) := by
  rw [moreRuns?]
  split
  next hnone => simp [hrun] at hnone
  next t' rest' hsome =>
    obtain ⟨rfl, rfl⟩ : t = t' ∧ rest = rest' := by simpa [hrun] using hsome
    split <;> simp_all

theorem moreRuns?_of_brace {text : List Char} {t : Span}
    (hrun : Span.brief? text = some (t, ['\x7d'])) : moreRuns? text = some [t] := by
  have hnone : Text.skip? ", " ['\x7d'] = none := by decide
  rw [moreRuns?]
  split
  next h => simp [hrun] at h
  next t' rest' hsome =>
    obtain ⟨rfl, rfl⟩ : t = t' ∧ ['\x7d'] = rest' := by simpa [hrun] using hsome
    split <;> simp_all

/-- Runs between braces are read back, from the first one on. -/
theorem moreRuns?_afterBrace (t : Span) (runs : List Span)
    (h : ∀ u ∈ t :: runs, u.Proper) :
    moreRuns? (Text.afterBrace ((t :: runs).map Span.brief)) = some (t :: runs) := by
  -- induction along the list: what comes after a run is the brace, or a comma and the other runs
  induction runs generalizing t with
  | nil =>
      have ht : t.Proper := h t List.mem_cons_self
      exact moreRuns?_of_brace (ht.brief?_brief_append (Text.ends_afterItem []))
  | cons u runs ih =>
      obtain ⟨ht, hruns⟩ := List.forall_mem_cons.1 h
      have hrun := ht.brief?_brief_append (Text.ends_afterItem ((u :: runs).map Span.brief))
      have hcomma := Text.skip?_append ", " (Text.afterBrace ((u :: runs).map Span.brief))
      rw [List.map_cons, Text.afterBrace, moreRuns?_of_comma hrun hcomma, ih u hruns]
      rfl

/-- **Runs between braces are read back.** -/
theorem runsOfText?_braced {runs : List Span} (h : ∀ t ∈ runs, t.Proper) :
    runsOfText? (Text.braced (runs.map Span.brief)) = some runs := by
  have hbrace : Text.skip? "\x7b" (Text.braced (runs.map Span.brief)).toList =
      some (Text.afterBrace (runs.map Span.brief)) := by
    rw [Text.toList_braced]
    exact Text.skip?_append "\x7b" _
  rw [runsOfText?, hbrace]
  cases runs with
  | nil => rfl
  | cons t runs =>
      have hne : Text.afterBrace ((t :: runs).map Span.brief) ≠ ['\x7d'] :=
        Text.not_opens_append_eq_brace t.opens_brief
      simp only [Option.bind_eq_bind, Option.bind_some, if_neg hne]
      exact moreRuns?_afterBrace t runs h

/-- Runs are written in one way only. -/
theorem shows_iff {text : String} {runs : List Span} :
    Shows text runs ↔ (∀ t ∈ runs, t.Proper) ∧ text = Text.braced (runs.map Span.brief) := by
  simp only [Shows, Span.forall₂_shown_iff]
  constructor
  · rintro ⟨items, ⟨hruns, rfl⟩, rfl⟩
    exact ⟨hruns, rfl⟩
  · rintro ⟨hruns, rfl⟩
    exact ⟨_, ⟨hruns, rfl⟩, rfl⟩

/-- **Whatever runs a text shows are read back from it.** -/
theorem runsOfText?_of_shows {text : String} {runs : List Span} (h : Shows text runs) :
    runsOfText? text = some runs := by
  obtain ⟨hruns, rfl⟩ := shows_iff.1 h
  exact runsOfText?_braced hruns

/-! ### What the written form tells -/

/-- **The maximal runs of elements**, in ascending order and with a gap between any two of them. -/
structure ListsRuns (s : Selection) (runs : List Span) : Prop where
  ascending : runs.Pairwise fun t u => t.hi < u.lo
  mem_iff : ∀ t, t ∈ runs ↔ t ∈ s.maximalRuns

namespace WellFormed

variable {s t : Selection}

theorem listsRuns (h : s.WellFormed) : s.ListsRuns s.runs := by
  refine ⟨h.separated_runs.2, fun t => ?_⟩
  rw [h.separated_runs.mem_iff_maximalIn, maximalRuns, h.contains_eq_covers_runs]
  exact Iff.rfl

theorem shows_text (h : s.WellFormed) : Shows s.text s.runs :=
  shows_iff.2 ⟨h.separated_runs.1, rfl⟩

theorem runsOfText?_text (h : s.WellFormed) : runsOfText? s.text = some s.runs :=
  runsOfText?_of_shows h.shows_text

/-- The written form shows the runs and no other list. -/
theorem shows_text_iff (h : s.WellFormed) {runs : List Span} :
    Shows s.text runs ↔ runs = s.runs := by
  constructor
  · intro hshows
    have hread := runsOfText?_of_shows hshows
    rw [h.runsOfText?_text] at hread
    exact (Option.some.inj hread).symm
  · rintro rfl
    exact h.shows_text

/-- What is written in the same way has the same runs. -/
theorem text_eq_iff_runs_eq (hs : s.WellFormed) (ht : t.WellFormed) :
    s.text = t.text ↔ s.runs = t.runs := by
  constructor
  · intro heq
    have hread : some s.runs = some t.runs := by
      rw [← hs.runsOfText?_text, heq, ht.runsOfText?_text]
    exact Option.some.inj hread
  · intro heq
    rw [text, text, heq]

/-- The runs are the same exactly if every index is found in both or in neither. -/
theorem runs_eq_iff_contains_eq (hs : s.WellFormed) (ht : t.WellFormed) :
    s.runs = t.runs ↔ ∀ i, s.contains i = t.contains i := by
  constructor
  · intro heq i
    rw [Bool.eq_iff_iff, hs.contains_iff_covers_runs, ht.contains_iff_covers_runs, heq]
  · intro hcontains
    refine hs.runs_congr ht fun i => ?_
    rw [← hs.contains_iff, ← ht.contains_iff, hcontains]

end WellFormed

/-- **The written form of a selection tells its elements and nothing else.**  It lists the maximal
runs of elements in ascending order, as runs are written, and a reader gets this list back from it.
So two selections, over spaces of any sizes and however they are stored, are written in the same way
exactly if they have the same elements; and they agree exactly if their sizes are equal too. -/
theorem text_recovers_runs {s t : Selection} (hs : s.Reachable) (ht : t.Reachable) :
    (∃ runs, runsOfText? s.text = some runs ∧ s.ListsRuns runs ∧
        ∀ others, Shows s.text others ↔ others = runs) ∧
      (s.text = t.text ↔ ∀ i, s.contains i = t.contains i) ∧
      (s.agrees t = true ↔ s.size = t.size ∧ s.text = t.text) := by
  have hsw := hs.wellFormed
  have htw := ht.wellFormed
  refine ⟨⟨s.runs, hsw.runsOfText?_text, hsw.listsRuns, fun _ => hsw.shows_text_iff⟩, ?_, ?_⟩
  · rw [hsw.text_eq_iff_runs_eq htw, hsw.runs_eq_iff_contains_eq htw]
  · rw [agrees_iff, hsw.text_eq_iff_runs_eq htw]

/-- A span and an index beyond a gap, and the same indices in a larger space, from a list that was
normalized on the way. -/
theorem text_recovers_runs_gap :
    (((empty 9).add (.span 0 3)).1.add (.point 5)).1.Reachable ∧
      (((empty 20).add (.points [5, 1, 0])).1.normalize.add (.span 1 3)).1.Reachable ∧
      runsOfText? (((empty 9).add (.span 0 3)).1.add (.point 5)).1.text = some [⟨0, 3⟩, ⟨5, 6⟩] ∧
      ∀ i, (((empty 9).add (.span 0 3)).1.add (.point 5)).1.contains i =
        (((empty 20).add (.points [5, 1, 0])).1.normalize.add (.span 1 3)).1.contains i := by
  have hs : (((empty 9).add (.span 0 3)).1.add (.point 5)).1.Reachable := by
    refine ((Reachable.empty 9).add ?_).add ?_ <;> simp [Addition.refs]
  have ht : (((empty 20).add (.points [5, 1, 0])).1.normalize.add (.span 1 3)).1.Reachable := by
    refine (((Reachable.empty 20).add ?_).normalize).add ?_ <;> simp [Addition.refs]
  have hread : runsOfText? (((empty 9).add (.span 0 3)).1.add (.point 5)).1.text =
      some [⟨0, 3⟩, ⟨5, 6⟩] := by
    decide +kernel
  have htext : (((empty 9).add (.span 0 3)).1.add (.point 5)).1.text =
      (((empty 20).add (.points [5, 1, 0])).1.normalize.add (.span 1 3)).1.text := by
    decide +kernel
  exact ⟨hs, ht, hread, (text_recovers_runs hs ht).2.1.1 htext⟩

end Selection

end IndexSpace
