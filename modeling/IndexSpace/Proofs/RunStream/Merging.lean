/-
**Reading a feed run by run computes the runs of its entries.**

A feed whose two lists are ascending hands its entries out in the order in which they begin, so that
a run may be closed as soon as one entry begins beyond its end: no later entry can reach back.  One
step of the stream therefore splits the entries into a proper run and entries beyond a gap, and
covers neither more nor less than before.  By induction along the stream, the runs handed out are
the runs of the entries.

Main definitions:

* `IndexSpace.Feed.Ordered`, `IndexSpace.RunStream.Ordered` — ascending feeds of proper spans, and
  streams that read such a feed and whose pending span comes first;
* `IndexSpace.Span.Splits` — a proper run, and entries beyond a gap after it;
* `IndexSpace.RunStream.Yields` — asking for runs until there are none gives these.

Main results:

* `IndexSpace.Feed.Ordered.lo_le_of_pop?` — an ascending feed hands out an entry that begins no
  later than the others;
* `IndexSpace.RunStream.Ordered.splits_next?` — **one step splits off the first run**;
* `IndexSpace.RunStream.Ordered.isRunsOf_toList` — the stream hands out the runs of its entries;
* `IndexSpace.RunStream.start_yields_only_runs` — **reading ends, and gives the only separated list
  that covers the entries**.
-/

import IndexSpace.RunStream
import IndexSpace.Proofs.Span.Covering

set_option relaxedAutoImplicit false
set_option autoImplicit false

namespace IndexSpace

/-- The head of a list that ascends in a reflexive relation is below every member. -/
theorem exists_head?_rel {α : Type} {R : α → α → Prop} (hrefl : ∀ a, R a a) {l : List α}
    (h : l.Pairwise R) {b : α} (hb : b ∈ l) : ∃ a ∈ l.head?, R a b := by
  cases l with
  | nil => simp at hb
  | cons a l =>
      refine ⟨a, rfl, ?_⟩
      rcases List.mem_cons.1 hb with rfl | hb
      · exact hrefl b
      · exact (List.pairwise_cons.1 h).1 b hb

/-! ### The order of spans -/

namespace Span

theorem lo_le_of_isLE_compare {s t : Span} (h : (compare s t).isLE) : s.lo ≤ t.lo := by
  rcases isLE_compare_iff.1 h with h | ⟨h, -⟩
  · exact UInt32.le_of_lt h
  · exact UInt32.le_of_eq h

theorem lo_le_of_compare_eq_lt {s t : Span} (h : compare s t = .lt) : s.lo ≤ t.lo := by
  refine lo_le_of_isLE_compare ?_
  rw [h]
  rfl

theorem isLE_compare_of_not_compare_eq_lt {s t : Span} (h : ¬ compare s t = .lt) :
    (compare t s).isLE := by
  refine Decidable.byContradiction ?_
  intro hle
  exact h (Std.OrientedCmp.lt_of_not_isLE hle)

theorem lo_le_of_not_compare_eq_lt {s t : Span} (h : ¬ compare s t = .lt) : t.lo ≤ s.lo :=
  lo_le_of_isLE_compare (isLE_compare_of_not_compare_eq_lt h)

/-- **A proper run, and entries beyond a gap after it**, that cover together what `entries` do. -/
structure Splits (entries : List Span) (run : Span) (rest : List Span) : Prop where
  proper : run.Proper
  gap : ∀ t ∈ rest, run.hi < t.lo
  covers_iff : ∀ i, Covers entries i ↔ i ∈ run ∨ Covers rest i

end Span

namespace Feed

/-- Proper spans in the order in which they begin, and ascending indices below the top one.
Entries may repeat, overlap and touch, and spans that begin together may stand in any order. -/
structure Ordered (f : Feed) : Prop where
  spans_ascending : f.spans.Pairwise fun s t => s.lo ≤ t.lo
  points_ascending : f.points.Pairwise fun p q => p ≤ q
  proper : ∀ s ∈ f.spans, s.Proper
  points_lt : ∀ p ∈ f.points, p < 0xFFFFFFFF

theorem Ordered.proper_of_mem_items {f : Feed} (h : f.Ordered) {s : Span} (hs : s ∈ f.items) :
    s.Proper := by
  rcases List.mem_append.1 hs with hs | hs
  · exact h.proper s hs
  · obtain ⟨p, hp, rfl⟩ := List.mem_map.1 hs
    exact Span.unit_proper (h.points_lt p hp)

/-- What one step of a feed can do: it hands out the first span, if no index goes before it, or the
first index, if that goes before every span. -/
theorem pop?_cases {f g : Feed} {s : Span} (h : f.pop? = some (s, g)) :
    (f = ⟨s :: g.spans, g.points⟩ ∧ ∀ p ∈ g.points.head?, ¬ compare (Span.unit p) s = .lt) ∨
      ∃ p, s = Span.unit p ∧ f = ⟨g.spans, p :: g.points⟩ ∧
        ∀ t ∈ g.spans.head?, compare (Span.unit p) t = .lt := by
  fun_cases pop? f with
  | case1 => simp [pop?] at h
  | case2 t spans =>
      obtain ⟨rfl, rfl⟩ : t = s ∧ _ = g := by simpa [pop?] using h
      exact .inl ⟨rfl, by simp⟩
  | case3 p points =>
      obtain ⟨rfl, rfl⟩ : Span.unit p = s ∧ _ = g := by simpa [pop?] using h
      exact .inr ⟨p, rfl, rfl, by simp⟩
  | case4 t spans p points hlt =>
      obtain ⟨rfl, rfl⟩ : Span.unit p = s ∧ _ = g := by simpa [pop?, hlt] using h
      exact .inr ⟨p, rfl, rfl, by simpa using hlt⟩
  | case5 t spans p points hlt =>
      obtain ⟨rfl, rfl⟩ : t = s ∧ _ = g := by simpa [pop?, hlt] using h
      exact .inl ⟨rfl, by simpa using hlt⟩

theorem Ordered.of_pop? {f g : Feed} {s : Span} (h : f.Ordered) (hpop : f.pop? = some (s, g)) :
    g.Ordered := by
  rcases pop?_cases hpop with ⟨rfl, -⟩ | ⟨p, -, rfl, -⟩
  · exact ⟨h.spans_ascending.of_cons, h.points_ascending,
      fun t ht => h.proper t (List.mem_cons_of_mem _ ht), h.points_lt⟩
  · exact ⟨h.spans_ascending, h.points_ascending.of_cons, h.proper,
      fun q hq => h.points_lt q (List.mem_cons_of_mem _ hq)⟩

theorem Ordered.proper_of_pop? {f g : Feed} {s : Span} (h : f.Ordered)
    (hpop : f.pop? = some (s, g)) : s.Proper :=
  h.proper_of_mem_items ((items_perm_pop? hpop).mem_iff.2 List.mem_cons_self)

/-- **An ascending feed hands out an entry that begins no later than the others.** -/
theorem Ordered.lo_le_of_pop? {f g : Feed} {s : Span} (h : f.Ordered)
    (hpop : f.pop? = some (s, g)) : ∀ t ∈ g.items, s.lo ≤ t.lo := by
  intro t ht
  -- the entry goes before the rest of its own list, and before the head of the other one
  rcases pop?_cases hpop with ⟨rfl, hhead⟩ | ⟨p, rfl, rfl, hhead⟩
  · rcases List.mem_append.1 ht with ht | ht
    · exact (List.pairwise_cons.1 h.spans_ascending).1 t ht
    · obtain ⟨q, hq, rfl⟩ := List.mem_map.1 ht
      obtain ⟨p, hp, hpq⟩ := exists_head?_rel UInt32.le_refl h.points_ascending hq
      exact UInt32.le_trans (Span.lo_le_of_not_compare_eq_lt (hhead p hp)) hpq
  · rcases List.mem_append.1 ht with ht | ht
    · obtain ⟨u, hu, hut⟩ :=
        exists_head?_rel (fun u : Span => UInt32.le_refl u.lo) h.spans_ascending ht
      exact UInt32.le_trans (Span.lo_le_of_compare_eq_lt (hhead u hu)) hut
    · obtain ⟨q, hq, rfl⟩ := List.mem_map.1 ht
      exact (List.pairwise_cons.1 h.points_ascending).1 q hq

end Feed

namespace RunStream

/-! ### One run -/

/-- The spans from which runs are still to be made. -/
def items (r : RunStream) : List Span := r.pending.toList ++ r.feed.items

/-- A stream that reads an ascending feed, with a pending span that begins no later than it. -/
structure Ordered (r : RunStream) : Prop where
  feed : r.feed.Ordered
  pending_proper : ∀ s ∈ r.pending, s.Proper
  pending_lo_le : ∀ s ∈ r.pending, ∀ t ∈ r.feed.items, s.lo ≤ t.lo

theorem ordered_start {f : Feed} (h : f.Ordered) : (start f.spans f.points).Ordered :=
  ⟨h, by simp [start], by simp [start]⟩

@[simp] theorem items_start (f : Feed) : (start f.spans f.points).items = f.items := by
  simp [items, start]

theorem ordered_absorb (run : Span) {feed : Feed} (h : feed.Ordered) :
    (absorb run feed).2.Ordered := by
  fun_induction absorb run feed with
  | case1 run feed hpop => exact ⟨h, by simp, by simp⟩
  | case2 run feed s rest hpop hle ih => exact ih (h.of_pop? hpop)
  | case3 run feed s rest hpop hlt =>
      refine ⟨h.of_pop? hpop, ?_, ?_⟩
      · rintro _ ⟨⟩
        exact h.proper_of_pop? hpop
      · rintro _ ⟨⟩
        exact h.lo_le_of_pop? hpop

theorem covers_pop? {f g : Feed} {s : Span} (h : f.pop? = some (s, g)) (i : UInt32) :
    Span.Covers f.items i ↔ i ∈ s ∨ Span.Covers g.items i := by
  rw [Span.covers_congr_of_perm (Feed.items_perm_pop? h), Span.covers_cons]

/-- **A run drawn out over an ascending feed** that begins no earlier takes in all that it can
reach, and leaves a gap after it. -/
theorem splits_absorb {run : Span} {feed : Feed} (h : feed.Ordered) (hrun : run.Proper)
    (hlo : ∀ t ∈ feed.items, run.lo ≤ t.lo) :
    Span.Splits (run :: feed.items) (absorb run feed).1 (absorb run feed).2.items := by
  fun_induction absorb run feed with
  | case1 run feed hpop =>
      obtain ⟨hspans, hpoints⟩ := Feed.pop?_eq_none_iff.1 hpop
      refine ⟨hrun, ?_, ?_⟩ <;> simp [items, Feed.items, hspans, hpoints]
  | case2 run feed s rest hpop hle ih =>
      -- the run is drawn out over `s`, which begins inside it or right at its end
      have hperm := Feed.items_perm_pop? hpop
      have hs : run.lo ≤ s.lo := hlo s (hperm.mem_iff.2 List.mem_cons_self)
      obtain ⟨hproper, hgap, hcov⟩ := ih (h.of_pop? hpop) (hrun.reach s.hi) fun t ht =>
        hlo t (hperm.mem_iff.2 (List.mem_cons_of_mem _ ht))
      refine ⟨hproper, hgap, ?_⟩
      intro i
      rw [← hcov, Span.covers_cons, Span.covers_cons, covers_pop? hpop,
        Span.mem_reach_iff hs hle, or_assoc]
  | case3 run feed s rest hpop hlt =>
      refine ⟨hrun, ?_, fun i => ?_⟩
      · -- everything left begins no earlier than `s`, which begins beyond the end of the run
        intro t ht
        have hst : s.lo ≤ t.lo := by
          rcases List.mem_cons.1 ht with rfl | ht
          · exact UInt32.le_refl _
          · exact h.lo_le_of_pop? hpop t ht
        exact UInt32.lt_of_lt_of_le (UInt32.not_le.1 hlt) hst
      · rw [Span.covers_cons, covers_pop? hpop]
        simp [items]

/-- What one step of a stream does: it draws out its first entry, pending or not. -/
theorem next?_cases {r q : RunStream} {run : Span} (h : r.next? = some (run, q)) :
    ∃ s rest, absorb s rest = (run, q) ∧
      ((r.pending = some s ∧ r.feed = rest) ∨
        (r.pending = none ∧ r.feed.pop? = some (s, rest))) := by
  obtain ⟨feed, _ | s⟩ := r
  · obtain ⟨⟨s, rest⟩, hpop, habs⟩ := Option.map_eq_some_iff.1 h
    exact ⟨s, rest, habs, .inr ⟨rfl, hpop⟩⟩
  · exact ⟨s, feed, Option.some.inj h, .inl ⟨rfl, rfl⟩⟩

/-- The first entry of an ordered stream is proper and begins no later than the others. -/
theorem Ordered.next?_cases {r q : RunStream} {run : Span} (hr : r.Ordered)
    (h : r.next? = some (run, q)) :
    ∃ (s : Span) (rest : Feed), absorb s rest = (run, q) ∧ rest.Ordered ∧ s.Proper ∧
      (∀ t ∈ rest.items, s.lo ≤ t.lo) ∧ r.items.Perm (s :: rest.items) := by
  obtain ⟨s, rest, habs, ⟨hpend, rfl⟩ | ⟨hpend, hpop⟩⟩ := RunStream.next?_cases h
  · refine ⟨s, r.feed, habs, hr.feed, hr.pending_proper s hpend, hr.pending_lo_le s hpend, ?_⟩
    simp [items, hpend]
  · refine ⟨s, rest, habs, hr.feed.of_pop? hpop, hr.feed.proper_of_pop? hpop,
      hr.feed.lo_le_of_pop? hpop, ?_⟩
    simpa [items, hpend] using Feed.items_perm_pop? hpop

theorem Ordered.of_next? {r q : RunStream} {run : Span} (hr : r.Ordered)
    (h : r.next? = some (run, q)) : q.Ordered := by
  obtain ⟨s, rest, habs, hrest, -⟩ := hr.next?_cases h
  have hq := ordered_absorb s hrest
  rwa [habs] at hq

/-- **One step of an ordered stream splits off the first run.** -/
theorem Ordered.splits_next? {r q : RunStream} {run : Span} (hr : r.Ordered)
    (h : r.next? = some (run, q)) : Span.Splits r.items run q.items := by
  obtain ⟨s, rest, habs, hrest, hs, hlo, hperm⟩ := hr.next?_cases h
  obtain ⟨hproper, hgap, hcov⟩ := splits_absorb hrest hs hlo
  rw [habs] at hproper hgap hcov
  refine ⟨hproper, hgap, ?_⟩
  intro i
  rw [Span.covers_congr_of_perm hperm, hcov]

theorem items_eq_nil_of_next?_eq_none {r : RunStream} (h : r.next? = none) : r.items = [] := by
  obtain ⟨hpend, hpop⟩ := next?_eq_none_iff.1 h
  obtain ⟨hspans, hpoints⟩ := Feed.pop?_eq_none_iff.1 hpop
  simp [items, Feed.items, hpend, hspans, hpoints]

/-! ### All runs -/

/-- A run in front of separated runs of what lies beyond a gap after it. -/
theorem isRunsOf_cons {entries rest runs : List Span} {run : Span}
    (h : Span.Splits entries run rest) (hruns : Span.IsRunsOf runs rest) :
    Span.IsRunsOf (run :: runs) entries := by
  constructor
  · refine Span.separated_cons.2 ⟨h.proper, ?_, hruns.separated⟩
    intro t ht
    -- a run begins with a covered index, and every covered index left lies beyond the gap
    have hcov : Span.Covers runs t.lo := ⟨t, ht, (hruns.separated.1 t ht).lo_mem⟩
    obtain ⟨u, hu, hmem⟩ := (hruns.covers_iff _).1 hcov
    exact UInt32.lt_of_lt_of_le (h.gap u hu) hmem.1
  · intro i
    rw [Span.covers_cons, hruns.covers_iff, h.covers_iff]

/-- **An ordered stream hands out the runs of its entries.** -/
theorem Ordered.isRunsOf_toList {r : RunStream} (hr : r.Ordered) :
    Span.IsRunsOf r.toList r.items := by
  -- induction along the stream: every step splits off a run and keeps the stream ordered
  fun_induction toList r with
  | case1 r h =>
      rw [items_eq_nil_of_next?_eq_none h]
      exact Span.separated_nil.isRunsOf_self
  | case2 r run q h ih => exact isRunsOf_cons (hr.splits_next? h) (ih (hr.of_next? h))

/-- Asking the stream for runs until there are none gives these. -/
inductive Yields : RunStream → List Span → Prop
  | done {r : RunStream} : r.next? = none → Yields r []
  | more {r q : RunStream} {run : Span} {runs : List Span} :
      r.next? = some (run, q) → Yields q runs → Yields r (run :: runs)

/-- Reading a stream always ends, and hands out the list of all its runs. -/
theorem yields_iff {r : RunStream} {runs : List Span} : r.Yields runs ↔ runs = r.toList := by
  constructor
  · intro h
    induction h with
    | done h => rw [toList_of_next?_eq_none h]
    | more h _ ih => rw [toList_of_next?_eq_some h, ih]
  · rintro rfl
    fun_induction toList r with
    | case1 r h => exact .done h
    | case2 r run q h ih => exact .more h ih

/-- There are no more runs than entries from which they are made. -/
theorem length_toList_le (r : RunStream) : r.toList.length ≤ r.remaining := by
  fun_induction toList r with
  | case1 r h => exact Nat.zero_le _
  | case2 r run q h ih =>
      have hless := remaining_next? h
      rw [List.length_cons]
      omega

/-- Separated spans are an ascending feed. -/
theorem ordered_of_separated {runs : List Span} (h : Span.Separated runs) :
    Feed.Ordered ⟨runs, []⟩ := by
  refine ⟨h.2.imp_of_mem fun {s t} hs _ hgap => ?_, .nil, h.1, by simp⟩
  exact UInt32.le_of_lt (UInt32.lt_trans (h.1 s hs) hgap)

theorem isRunsOf_toList_start {f : Feed} (h : f.Ordered) :
    Span.IsRunsOf (start f.spans f.points).toList f.items := by
  rw [← items_start]
  exact (ordered_start h).isRunsOf_toList

/-- Ordered feeds that cover the same indices have the same runs. -/
theorem toList_start_congr {f g : Feed} (hf : f.Ordered) (hg : g.Ordered)
    (h : ∀ i, Span.Covers f.items i ↔ Span.Covers g.items i) :
    (start f.spans f.points).toList = (start g.spans g.points).toList :=
  (isRunsOf_toList_start hf).eq_of_covers_iff (isRunsOf_toList_start hg) h

/-- Runs that are read as a feed are handed out again. -/
theorem toList_start_of_separated {runs : List Span} (h : Span.Separated runs) :
    (start runs []).toList = runs := by
  have hruns := isRunsOf_toList_start (ordered_of_separated h)
  simp only [Feed.items, List.map_nil, List.append_nil] at hruns
  exact hruns.unique h.isRunsOf_self

/-- **Reading an ordered feed ends, and yields its runs**: proper spans, each beyond a gap after
the one before, that cover exactly what the feed does.  No other list does so.  Hence every ordered
feed that covers the same indices yields the same runs, and so do the runs themselves, read as a
feed without indices. -/
theorem start_yields_only_runs {f : Feed} (h : f.Ordered) :
    ∃ runs, (start f.spans f.points).Yields runs ∧
      Span.IsRunsOf runs (f.spans ++ f.points.map Span.unit) ∧
      (∀ others, Span.IsRunsOf others (f.spans ++ f.points.map Span.unit) → others = runs) ∧
      (∀ g : Feed, g.Ordered → (∀ i, Span.Covers g.items i ↔ Span.Covers f.items i) →
        (start g.spans g.points).Yields runs) ∧
      (start runs []).Yields runs := by
  have hruns := isRunsOf_toList_start h
  refine ⟨_, yields_iff.2 rfl, hruns, fun others hothers => hothers.unique hruns, ?_, ?_⟩
  · intro g hg hcov
    exact yields_iff.2 (toList_start_congr hg h hcov).symm
  · exact yields_iff.2 (toList_start_of_separated hruns.separated).symm

/-- Nested, repeated and touching spans, and indices inside them, at their ends and beyond. -/
theorem start_yields_only_runs_nested :
    Feed.Ordered ⟨[⟨0, 10⟩, ⟨2, 4⟩, ⟨2, 4⟩, ⟨10, 12⟩, ⟨20, 21⟩], [3, 12, 12, 30]⟩ ∧
      ∃ runs, (start [⟨0, 10⟩, ⟨2, 4⟩, ⟨2, 4⟩, ⟨10, 12⟩, ⟨20, 21⟩] [3, 12, 12, 30]).Yields runs ∧
        Span.Separated runs ∧ (start runs []).Yields runs := by
  have hordered :
      Feed.Ordered ⟨[⟨0, 10⟩, ⟨2, 4⟩, ⟨2, 4⟩, ⟨10, 12⟩, ⟨20, 21⟩], [3, 12, 12, 30]⟩ :=
    ⟨by decide, by decide, by decide, by simp⟩
  obtain ⟨runs, hyields, hruns, -, -, hself⟩ := start_yields_only_runs hordered
  exact ⟨hordered, runs, hyields, hruns.separated, hself⟩

end RunStream

end IndexSpace
