/-
**Where a stream stands after some of its runs have been asked for.**

Not everyone who reads a stream reads it to its end.  Whether there is a second run is settled after
two calls, and a comparison is given up at the first difference.  What the calls so far have yielded
must be right all the same, and so must be what they have left behind: runs that are closed, one
entry that was taken too many, and a feed that is partly read.  This module says how the three stand
to each other after any number of calls.

Where the spans of a feed ascend lexicographically and the indices by size, the entries are taken in
lexicographic order, and every one of them is taken once.  Some spans can be arranged in ascending
order in one way only, so what has been taken so far is the beginning of the one merge of the two
lists, and what is left is the rest of it.  This says more than that the entries come in the order
in which they begin: of spans that begin together the shorter one comes first.

A run is closed by the first entry beyond a gap, which has to be taken from the feed before it is
known to lie there.  So the pending span is always the last entry taken; there is one exactly when
that entry lies beyond the end of the last run.  Together, the runs and what is left cover what the
feed covered at first, and nothing that is left reaches back to a run.  One call keeps this up, and
by induction any number of calls does.

Main definitions:

* `IndexSpace.Span.Ascending`, `IndexSpace.Span.IsMergeOf` — spans in lexicographic order, and such
  an arrangement of given entries;
* `IndexSpace.Feed.Sorted` — a feed of two ascending lists;
* `IndexSpace.Feed.HandsOut` — handing out some entries leads from one feed to another;
* `IndexSpace.RunStream.call`, `IndexSpace.RunStream.calls` — one call for a run, and many;
* `IndexSpace.RunStream.Midway` — **runs yielded, entries taken, and the stream after them**.

Main results:

* `IndexSpace.Span.IsMergeOf.unique` — there is only one ascending arrangement;
* `IndexSpace.Feed.Sorted.isMergeOf` — **what a sorted feed hands out to its end is the merge of its
  lists**;
* `IndexSpace.RunStream.answers_calls` — the calls are answered from the list of all runs, and with
  nothing after its end;
* `IndexSpace.RunStream.agrees_iff_answers_eq` — streams agree exactly when all calls are answered
  alike;
* `IndexSpace.RunStream.Midway.next?`, `IndexSpace.RunStream.Midway.calls` — one call keeps the
  relation, and so do many;
* `IndexSpace.RunStream.midway_of_calls` — **the relation holds after any number of calls**.
-/

import Mathlib.Data.List.ReduceOption
import IndexSpace.Proofs.RunStream.Merging

set_option relaxedAutoImplicit false
set_option autoImplicit false

namespace IndexSpace

namespace Span

/-! ### Ascending spans -/

/-- Spans in lexicographic order, repetitions allowed. -/
def Ascending (spans : List Span) : Prop := spans.Pairwise fun s t => (compare s t).isLE

instance (spans : List Span) : Decidable (Ascending spans) :=
  inferInstanceAs (Decidable (spans.Pairwise fun s t => (compare s t).isLE))

/-- **The entries in ascending order**, each of them as often as it occurs. -/
structure IsMergeOf (merge entries : List Span) : Prop where
  ascending : Ascending merge
  perm : merge.Perm entries

/-- There is only one ascending arrangement. -/
theorem IsMergeOf.unique {merge other entries : List Span} (h : IsMergeOf merge entries)
    (h' : IsMergeOf other entries) : merge = other := by
  refine (h.perm.trans h'.perm.symm).eq_of_pairwise ?_ h.ascending h'.ascending
  intro s t _ _ hst hts
  exact Std.LawfulEqCmp.eq_of_compare (Std.OrientedCmp.isLE_antisymm hst hts)

/-- Unit spans are in the order of their indices. -/
theorem isLE_compare_unit {p q : UInt32} (h : p ≤ q) : (compare (unit p) (unit q)).isLE := by
  rw [isLE_compare_iff, unit_lo, unit_lo]
  rcases UInt32.lt_or_eq_of_le h with hlt | rfl
  · exact .inl hlt
  · exact .inr ⟨rfl, UInt32.le_refl _⟩

end Span

namespace Feed

/-! ### Sorted feeds -/

/-- **A feed of two ascending lists**: proper spans in lexicographic order, and indices below the
top one.  Entries may repeat, overlap and touch. -/
structure Sorted (f : Feed) : Prop where
  spans_ascending : Span.Ascending f.spans
  points_ascending : f.points.Pairwise fun p q => p ≤ q
  proper : ∀ s ∈ f.spans, s.Proper
  points_lt : ∀ p ∈ f.points, p < 0xFFFFFFFF

theorem Sorted.ordered {f : Feed} (h : f.Sorted) : f.Ordered where
  spans_ascending := h.spans_ascending.imp Span.lo_le_of_isLE_compare
  points_ascending := h.points_ascending
  proper := h.proper
  points_lt := h.points_lt

theorem Sorted.of_pop? {f g : Feed} {s : Span} (h : f.Sorted) (hpop : f.pop? = some (s, g)) :
    g.Sorted := by
  have hordered := h.ordered.of_pop? hpop
  refine ⟨?_, hordered.points_ascending, hordered.proper, hordered.points_lt⟩
  rcases pop?_cases hpop with ⟨rfl, -⟩ | ⟨p, -, rfl, -⟩
  · exact List.Pairwise.of_cons h.spans_ascending
  · exact h.spans_ascending

/-- **A sorted feed hands out the least entry.** -/
theorem Sorted.isLE_of_pop? {f g : Feed} {s : Span} (h : f.Sorted)
    (hpop : f.pop? = some (s, g)) : ∀ t ∈ g.items, (compare s t).isLE := by
  intro t ht
  -- the entry is at or before the head of either list, and the head at or before the others
  rcases pop?_cases hpop with ⟨rfl, hhead⟩ | ⟨p, rfl, rfl, hhead⟩
  · rcases List.mem_append.1 ht with ht | ht
    · exact (List.pairwise_cons.1 h.spans_ascending).1 t ht
    · obtain ⟨q, hq, rfl⟩ := List.mem_map.1 ht
      obtain ⟨p, hp, hpq⟩ := exists_head?_rel UInt32.le_refl h.points_ascending hq
      have hsp : (compare s (Span.unit p)).isLE :=
        Span.isLE_compare_of_not_compare_eq_lt (hhead p hp)
      exact Std.TransCmp.isLE_trans hsp (Span.isLE_compare_unit hpq)
  · rcases List.mem_append.1 ht with ht | ht
    · obtain ⟨u, hu, hut⟩ :=
        exists_head?_rel (fun u : Span => Std.ReflCmp.isLE_rfl) h.spans_ascending ht
      have hpu : (compare (Span.unit p) u).isLE := by
        rw [hhead u hu]
        rfl
      exact Std.TransCmp.isLE_trans hpu hut
    · obtain ⟨q, hq, rfl⟩ := List.mem_map.1 ht
      exact Span.isLE_compare_unit ((List.pairwise_cons.1 h.points_ascending).1 q hq)

/-! ### Handing out many entries -/

/-- **Handing out these entries**, one after the other, leads from the first feed to the second. -/
inductive HandsOut : Feed → List Span → Feed → Prop
  | done (f : Feed) : HandsOut f [] f
  | more {f g h : Feed} {s : Span} {taken : List Span} :
      f.pop? = some (s, g) → HandsOut g taken h → HandsOut f (s :: taken) h

theorem HandsOut.trans {f g h : Feed} {taken more : List Span} (hfg : f.HandsOut taken g)
    (hgh : g.HandsOut more h) : f.HandsOut (taken ++ more) h := by
  induction hfg with
  | done => exact hgh
  | more hpop _ ih => exact .more hpop (ih hgh)

/-- Every entry is handed out once, or is still left. -/
theorem HandsOut.items_perm {f g : Feed} {taken : List Span} (h : f.HandsOut taken g) :
    (taken ++ g.items).Perm f.items := by
  induction h with
  | done => exact .refl _
  | more hpop _ ih => exact (ih.cons _).trans (items_perm_pop? hpop).symm

/-- A sorted feed hands its entries out in ascending order. -/
theorem HandsOut.ascending {f g : Feed} {taken : List Span} (h : f.HandsOut taken g)
    (hf : f.Sorted) : Span.Ascending taken := by
  induction h with
  | done => exact .nil
  | more hpop hout ih =>
      refine List.pairwise_cons.2 ⟨?_, ih (hf.of_pop? hpop)⟩
      intro t ht
      -- what is handed out later was among the entries left
      have hleft := hout.items_perm.mem_iff.1 (List.mem_append_left _ ht)
      exact hf.isLE_of_pop? hpop t hleft

/-- **Handing out comes to an end**, when nothing is left. -/
theorem exists_handsOut_rest (f : Feed) : ∃ rest, f.HandsOut rest ⟨[], []⟩ := by
  -- induction on the number of entries left
  induction hn : f.size using Nat.strongRecOn generalizing f with
  | ind n ih =>
      cases hpop : f.pop? with
      | none =>
          obtain ⟨spans, points⟩ := f
          obtain ⟨rfl, rfl⟩ := pop?_eq_none_iff.1 hpop
          exact ⟨[], .done _⟩
      | some p =>
          obtain ⟨s, g⟩ := p
          have hsize : f.size = g.size + 1 := size_pop? hpop
          obtain ⟨rest, hrest⟩ := ih g.size (by omega) g rfl
          exact ⟨s :: rest, .more hpop hrest⟩

/-- **What a sorted feed hands out to its end is the merge of its two lists.** -/
theorem Sorted.isMergeOf {f : Feed} (h : f.Sorted) {merge : List Span}
    (hout : f.HandsOut merge ⟨[], []⟩) : Span.IsMergeOf merge f.items := by
  refine ⟨hout.ascending h, ?_⟩
  simpa [items] using hout.items_perm

end Feed

namespace RunStream

/-! ### Calls -/

/-- **One call for a run**: the answer, and the stream after it.  A stream that has ended stays as
it is. -/
def call (r : RunStream) : Option Span × RunStream :=
  match r.next? with
  | none => (none, r)
  | some (run, q) => (some run, q)

/-- **Many calls**: the answers in order, and the stream after the last of them. -/
def calls : RunStream → Nat → List (Option Span) × RunStream
  | r, 0 => ([], r)
  | r, k + 1 => (r.call.1 :: (r.call.2.calls k).1, (r.call.2.calls k).2)

@[simp] theorem calls_zero (r : RunStream) : r.calls 0 = ([], r) := rfl

theorem calls_succ (r : RunStream) (k : Nat) :
    r.calls (k + 1) = (r.call.1 :: (r.call.2.calls k).1, (r.call.2.calls k).2) := rfl

theorem call_of_next?_eq_none {r : RunStream} (h : r.next? = none) : r.call = (none, r) := by
  simp only [call, h]

theorem call_of_next?_eq_some {r q : RunStream} {run : Span} (h : r.next? = some (run, q)) :
    r.call = (some run, q) := by
  simp only [call, h]

/-- A stream that has ended answers no call any more. -/
theorem calls_of_next?_eq_none {r : RunStream} (h : r.next? = none) (k : Nat) :
    r.calls k = (List.replicate k none, r) := by
  induction k with
  | zero => rfl
  | succ k ih => rw [calls_succ, call_of_next?_eq_none h, ih, List.replicate_succ]

/-- **Each call is answered from the list of all runs**, and with nothing after its end. -/
theorem answers_calls (r : RunStream) (k : Nat) :
    (r.calls k).1 = (List.range k).map fun n => r.toList[n]? := by
  induction k generalizing r with
  | zero => rfl
  | succ k ih =>
      rw [calls_succ, List.range_succ_eq_map, List.map_cons, List.map_map, ih]
      cases h : r.next? with
      | none =>
          rw [call_of_next?_eq_none h, toList_of_next?_eq_none h]
          rfl
      | some p =>
          obtain ⟨run, q⟩ := p
          rw [call_of_next?_eq_some h, toList_of_next?_eq_some h]
          rfl

/-- **Streams agree exactly when all calls are answered alike**, and so a comparison may be given up
at the first difference. -/
theorem agrees_iff_answers_eq {r q : RunStream} :
    r.agrees q = true ↔ ∀ k, (r.calls k).1 = (q.calls k).1 := by
  rw [agrees_iff]
  constructor
  · intro h k
    rw [answers_calls, answers_calls, h]
  · intro h
    refine List.ext_getElem? fun n => ?_
    -- the last of so many calls asks for the run at this position
    have hn := congrArg (fun answers => answers[n]?) (h (n + 1))
    simpa [answers_calls] using hn

/-! ### One run -/

/-- What is left of an ordered stream, pending or not, is proper. -/
theorem Ordered.proper_of_mem_items {r : RunStream} (hr : r.Ordered) {t : Span}
    (ht : t ∈ r.items) : t.Proper := by
  rcases List.mem_append.1 ht with ht | ht
  · exact hr.pending_proper t (Option.mem_toList.1 ht)
  · exact hr.feed.proper_of_mem_items ht

/-- **While a run is drawn out, the last entry taken decides how it ends.**  Either that entry lies
beyond a gap and is left pending, or it has become part of the run and nothing is left.  Where no
entry is taken, the one with which the run began stands for it. -/
theorem handsOut_absorb {first run : Span} (feed : Feed) (h : first.lo ≤ run.hi) :
    ∃ taken, feed.HandsOut taken (absorb run feed).2.feed ∧
      ∀ t, (absorb run feed).2.pending = some t ↔
        (first :: taken).getLast? = some t ∧ (absorb run feed).1.hi < t.lo := by
  fun_induction absorb run feed generalizing first with
  | case1 run feed hpop =>
      refine ⟨[], .done feed, ?_⟩
      intro t
      refine iff_of_false (by simp) ?_
      rintro ⟨hfirst, hlt⟩
      obtain rfl : first = t := by simpa using hfirst
      exact UInt32.not_le.2 hlt h
  | case2 run feed s rest hpop hle ih =>
      have hreach : s.lo ≤ (run.reach s.hi).hi := UInt32.le_trans hle (run.le_reach_hi s.hi)
      obtain ⟨taken, hout, hpending⟩ := ih hreach
      refine ⟨s :: taken, .more hpop hout, ?_⟩
      intro t
      rw [hpending, List.getLast?_cons_cons]
  | case3 run feed s rest hpop hlt =>
      refine ⟨[s], .more hpop (.done rest), ?_⟩
      intro t
      have hgap : run.hi < s.lo := UInt32.not_le.1 hlt
      simp only [Option.some.injEq, List.getLast?_cons_cons, List.getLast?_singleton]
      constructor
      · rintro rfl
        exact ⟨rfl, hgap⟩
      · exact And.left

/-! ### Midway -/

/-- **Runs yielded, entries taken from a feed, and the stream after them.**  The entries taken lead
from the feed to what is left of it.  Runs and entries left cover together what the feed did, and no
run reaches an entry left.  A span is pending exactly if it was the last one taken and lies beyond
the end of the last run. -/
structure Midway (f : Feed) (taken runs : List Span) (q : RunStream) : Prop where
  ordered : q.Ordered
  handsOut : f.HandsOut taken q.feed
  covers_iff : ∀ i, Span.Covers f.items i ↔ Span.Covers runs i ∨ Span.Covers q.items i
  gap : ∀ run ∈ runs, ∀ t ∈ q.items, run.hi < t.lo
  pending_iff : ∀ t, q.pending = some t ↔
    taken.getLast? = some t ∧ ∃ run, runs.getLast? = some run ∧ run.hi < t.lo

namespace Midway

variable {f : Feed} {taken runs : List Span} {q : RunStream}

/-- Before the first call nothing is taken, and nothing is pending. -/
theorem of_start (h : f.Ordered) : Midway f [] [] (start f.spans f.points) where
  ordered := ordered_start h
  handsOut := .done f
  covers_iff := by simp
  gap := by simp
  pending_iff := by simp [start]

/-- What the first entry of a stream is, and that it counts as the last one taken. -/
theorem exists_first (h : Midway f taken runs q) {p : RunStream} {run : Span}
    (hnext : q.next? = some (run, p)) :
    ∃ (s : Span) (rest : Feed) (more : List Span), absorb s rest = (run, p) ∧ s.lo ≤ s.hi ∧
      f.HandsOut (taken ++ more) rest ∧ (taken ++ more).getLast? = some s := by
  obtain ⟨s, rest, habs, ⟨hpend, rfl⟩ | ⟨-, hpop⟩⟩ := RunStream.next?_cases hnext
  · refine ⟨s, q.feed, [], habs, ?_, ?_, ?_⟩
    · exact UInt32.le_of_lt (h.ordered.pending_proper s hpend)
    · rw [List.append_nil]
      exact h.handsOut
    · rw [List.append_nil]
      exact ((h.pending_iff s).1 hpend).1
  · refine ⟨s, rest, [s], habs, ?_, h.handsOut.trans (.more hpop (.done rest)), ?_⟩
    · exact UInt32.le_of_lt (h.ordered.feed.proper_of_pop? hpop)
    · exact List.getLast?_concat

/-- What is left after one more run lies beyond all runs that were there before. -/
theorem gap_next? (h : Midway f taken runs q) {p : RunStream} {run : Span}
    (hnext : q.next? = some (run, p)) : ∀ r ∈ runs, ∀ t ∈ p.items, r.hi < t.lo := by
  intro r hr t ht
  have hproper : t.Proper := (h.ordered.of_next? hnext).proper_of_mem_items ht
  -- the first index of `t` was covered before the call, by an entry beyond the gap
  have hcov := (h.ordered.splits_next? hnext).covers_iff t.lo
  obtain ⟨u, hu, hmem⟩ := hcov.2 (.inr ⟨t, ht, hproper.lo_mem⟩)
  exact UInt32.lt_of_lt_of_le (h.gap r hr u hu) hmem.1

/-- **One call that yields a run keeps the relation.** -/
theorem next? (h : Midway f taken runs q) {p : RunStream} {run : Span}
    (hnext : q.next? = some (run, p)) :
    ∃ more, Midway f (taken ++ more) (runs ++ [run]) p := by
  obtain ⟨s, rest, first, habs, hs, hfirst, hlast⟩ := h.exists_first hnext
  obtain ⟨more, hmore, hpending⟩ := handsOut_absorb rest hs
  have hsplits := h.ordered.splits_next? hnext
  rw [habs] at hmore hpending
  refine ⟨first ++ more, h.ordered.of_next? hnext, ?_, fun i => ?_, ?_, fun t => ?_⟩
  · rw [← List.append_assoc]
    exact hfirst.trans hmore
  · rw [h.covers_iff, hsplits.covers_iff, Span.covers_append, Span.covers_cons, or_assoc]
    simp
  · intro r hr t ht
    rcases List.mem_append.1 hr with hr | hr
    · exact h.gap_next? hnext r hr t ht
    · rw [List.mem_singleton.1 hr]
      exact hsplits.gap t ht
  · -- the last entry taken is the last one taken by this call, or else the first entry
    have htaken : (taken ++ (first ++ more)).getLast? = (s :: more).getLast? := by
      rw [← List.append_assoc, List.getLast?_append, hlast, ← List.singleton_append,
        List.getLast?_append, List.getLast?_singleton]
    rw [hpending, htaken, List.getLast?_concat]
    simp

/-- **So do any number of calls**, whether they yield runs or not. -/
theorem calls (h : Midway f taken runs q) (k : Nat) :
    ∃ more, Midway f (taken ++ more) (runs ++ (q.calls k).1.reduceOption) (q.calls k).2 := by
  -- induction on the number of calls, with what the first of them has left as the new beginning
  induction k generalizing taken runs q with
  | zero => exact ⟨[], by simpa using h⟩
  | succ k ih =>
      rw [calls_succ]
      cases hnext : q.next? with
      | none =>
          rw [call_of_next?_eq_none hnext, List.reduceOption_cons_of_none]
          exact ih h
      | some p =>
          obtain ⟨run, p⟩ := p
          obtain ⟨first, hfirst⟩ := h.next? hnext
          obtain ⟨more, hmore⟩ := ih hfirst
          rw [call_of_next?_eq_some hnext, List.reduceOption_cons_of_some]
          refine ⟨first ++ more, ?_⟩
          rw [List.append_assoc, List.append_assoc] at hmore
          exact hmore

end Midway

/-- **Reading a sorted feed in part**, by any number of calls for a run.  The entries taken so far
and those still to be taken make up the ascending merge of the two lists, and there is no other.
The runs yielded, the pending span and what is left of the feed cover what the feed covered; no run
reaches what comes after it; and the entry that closed the last run beyond a gap is pending.  A
further run takes entries away, and after the first call without a run there is none any more.  So
the calls see the runs of the feed one by one, as do a question for the run at a position and a
comparison in step. -/
theorem midway_of_calls {f : Feed} (h : f.Sorted) (k : Nat) :
    let r := start f.spans f.points
    let q := (r.calls k).2
    (∃ taken rest, q.feed.HandsOut rest ⟨[], []⟩ ∧ Span.IsMergeOf (taken ++ rest) f.items ∧
      (∀ merge, Span.IsMergeOf merge f.items → merge = taken ++ rest) ∧
      Midway f taken (r.calls k).1.reduceOption q) ∧
      (∀ run p, q.next? = some (run, p) → p.remaining < q.remaining) ∧
      (q.next? = none → ∀ n, q.calls n = (List.replicate n none, q)) ∧
      (r.calls k).1 = (List.range k).map (fun n => r.toList[n]?) ∧
      Span.IsRunsOf r.toList f.items ∧
      (∀ n, nth? n r = r.toList[n]?) ∧
      ∀ p, r.agrees p = true ↔ ∀ n, (r.calls n).1 = (p.calls n).1 := by
  intro r q
  refine ⟨?_, fun _ _ => remaining_next?, calls_of_next?_eq_none, answers_calls r k,
    isRunsOf_toList_start h.ordered, fun n => nth?_eq n r, fun _ => agrees_iff_answers_eq⟩
  obtain ⟨taken, hmidway⟩ := (Midway.of_start h.ordered).calls k
  obtain ⟨rest, hrest⟩ := q.feed.exists_handsOut_rest
  have hmerge := h.isMergeOf (hmidway.handsOut.trans hrest)
  exact ⟨taken, rest, hrest, hmerge, fun _ hother => hother.unique hmerge, hmidway⟩

/-- A span that reaches beyond several entries after it, an index that equals the span of one index
next to it, and a gap: after two calls, one entry is pending and one is unread. -/
theorem midway_of_calls_pending :
    Feed.Sorted ⟨[⟨0, 9⟩, ⟨2, 4⟩, ⟨2, 5⟩, ⟨20, 21⟩, ⟨30, 33⟩], [3, 9, 12, 20, 40]⟩ ∧
      ∃ taken, Midway ⟨[⟨0, 9⟩, ⟨2, 4⟩, ⟨2, 5⟩, ⟨20, 21⟩, ⟨30, 33⟩], [3, 9, 12, 20, 40]⟩ taken
        [⟨0, 10⟩, ⟨12, 13⟩] ⟨⟨[⟨30, 33⟩], [20, 40]⟩, some ⟨20, 21⟩⟩ := by
  have hsorted :
      Feed.Sorted ⟨[⟨0, 9⟩, ⟨2, 4⟩, ⟨2, 5⟩, ⟨20, 21⟩, ⟨30, 33⟩], [3, 9, 12, 20, 40]⟩ :=
    ⟨by decide, by decide, by decide, by simp⟩
  have hcalls : (start [⟨0, 9⟩, ⟨2, 4⟩, ⟨2, 5⟩, ⟨20, 21⟩, ⟨30, 33⟩] [3, 9, 12, 20, 40]).calls 2 =
      ([some ⟨0, 10⟩, some ⟨12, 13⟩], ⟨⟨[⟨30, 33⟩], [20, 40]⟩, some ⟨20, 21⟩⟩) := by
    decide +kernel
  obtain ⟨taken, rest, -, -, -, hmidway⟩ := (midway_of_calls hsorted 2).1
  rw [hcalls] at hmidway
  exact ⟨hsorted, taken, hmidway⟩

end RunStream

end IndexSpace
