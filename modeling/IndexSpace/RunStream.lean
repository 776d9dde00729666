/-
**The runs of sorted spans and sorted indices, one at a time.**

The stored form of a selection keeps spans and single indices apart, each in ascending order.  To
go through both at once, a feed holds what is left of the two lists and hands out the smaller head,
an index `p` as the span `[p, p + 1)`.  Where an index and a span give the same pair of bounds, the
span goes first.

A run is a maximal stretch of indices without a gap.  The stream takes spans from a feed in
ascending order and draws the current run out for as long as the next span begins at or before the
end of the run; touching spans are fused as well as overlapping ones.  The first span beyond a gap
closes the run, and is kept as the beginning of the next one.  Only as much of the feed is read as
the runs asked for need, so that a question about the first run or two does not go through the whole
feed.

Main definitions:

* `IndexSpace.Feed`, `IndexSpace.Feed.pop?` — the two lists still to be handed out; the smaller
  head, and the feed without it;
* `IndexSpace.Feed.size`, `IndexSpace.Feed.items` — how many entries are left, and which spans they
  stand for, in no particular order;
* `IndexSpace.RunStream` — a feed, and the span that closed the last run;
* `IndexSpace.RunStream.next?` — the next run, and the stream after it;
* `IndexSpace.RunStream.toList`, `IndexSpace.RunStream.nth?`, `IndexSpace.RunStream.agrees` — all
  runs left, the run at a position, and comparison of two streams run by run.

Main results:

* `IndexSpace.Feed.items_perm_pop?` — **nothing is lost and nothing is handed out twice**;
* `IndexSpace.Feed.size_pop?`, `IndexSpace.RunStream.remaining_next?` — handing out takes one entry
  away, and so every run takes entries away and a stream ends;
* `IndexSpace.RunStream.nth?_eq`, `IndexSpace.RunStream.agrees_iff` — **reading a stream in part
  gives what the list of all its runs gives**.
-/

import IndexSpace.Span

set_option relaxedAutoImplicit false
set_option autoImplicit false

namespace IndexSpace

/-! ### Feeds -/

/-- **What is left of two ascending lists** that are read as one. -/
structure Feed where
  /-- The spans not handed out yet, ascending. -/
  spans : List Span
  /-- The single indices not handed out yet, ascending. -/
  points : List UInt32
deriving DecidableEq, Repr

namespace Feed

/-- The number of entries left. -/
def size (f : Feed) : Nat := f.spans.length + f.points.length

/-- The spans that the entries left stand for: first the spans, then the indices. -/
def items (f : Feed) : List Span := f.spans ++ f.points.map Span.unit

/-- **The smaller of the two heads, and the feed without it.**  An index goes before a span only if
its unit span is strictly smaller. -/
def pop? : Feed → Option (Span × Feed)
  | ⟨[], []⟩ => none
  | ⟨s :: spans, []⟩ => some (s, ⟨spans, []⟩)
  | ⟨[], p :: points⟩ => some (Span.unit p, ⟨[], points⟩)
  | ⟨s :: spans, p :: points⟩ =>
      if compare (Span.unit p) s = .lt then
        some (Span.unit p, ⟨s :: spans, points⟩)
      else
        some (s, ⟨spans, p :: points⟩)

/-- Handing out takes exactly one entry away. -/
theorem size_pop? {f g : Feed} {s : Span} (h : f.pop? = some (s, g)) : f.size = g.size + 1 := by
  fun_cases pop? f <;> simp_all [pop?] <;> obtain ⟨rfl, rfl⟩ := h <;>
    simp [size, Nat.add_right_comm, Nat.add_assoc]

/-- Only an empty feed hands out nothing. -/
theorem pop?_eq_none_iff {f : Feed} : f.pop? = none ↔ f.spans = [] ∧ f.points = [] := by
  fun_cases pop? f <;> simp_all

/-- Nothing is lost, and nothing is handed out twice. -/
theorem items_perm_pop? {f g : Feed} {s : Span} (h : f.pop? = some (s, g)) :
    f.items.Perm (s :: g.items) := by
  fun_cases pop? f <;> simp_all [pop?] <;> obtain ⟨rfl, rfl⟩ := h <;> simp [items]
  exact @List.perm_middle _ _ (_ :: _) _

end Feed

/-! ### Streams of runs -/

/-- **A feed read as runs.** -/
structure RunStream where
  /-- The entries not taken yet. -/
  feed : Feed
  /-- The span that closed the last run: the beginning of the next one. -/
  pending : Option Span
deriving DecidableEq, Repr

namespace RunStream

/-- The stream of the runs of ascending spans and ascending indices, from its beginning. -/
def start (spans : List Span) (points : List UInt32) : RunStream := ⟨⟨spans, points⟩, none⟩

/-- The number of entries from which runs are still to be made. -/
def remaining (r : RunStream) : Nat := r.feed.size + (if r.pending.isSome then 1 else 0)

/-! ### One run at a time -/

/-- Draws `run` out over the spans of the feed that overlap or touch it.  Answers the finished run
and the stream after it. -/
def absorb (run : Span) (feed : Feed) : Span × RunStream :=
  match _h : feed.pop? with
  | none => (run, ⟨feed, none⟩)
  | some (s, rest) =>
      if s.lo ≤ run.hi then
        absorb (run.reach s.hi) rest
      else
        (run, ⟨rest, some s⟩)
termination_by feed.size
decreasing_by
  have := Feed.size_pop? _h
  omega

theorem absorb_of_pop?_eq_none {run : Span} {feed : Feed} (h : feed.pop? = none) :
    absorb run feed = (run, ⟨feed, none⟩) := by
  rw [absorb]
  split <;> simp_all

theorem absorb_of_le {run s : Span} {feed rest : Feed} (h : feed.pop? = some (s, rest))
    (hle : s.lo ≤ run.hi) : absorb run feed = absorb (run.reach s.hi) rest := by
  rw [absorb]
  split <;> simp_all

theorem absorb_of_lt {run s : Span} {feed rest : Feed} (h : feed.pop? = some (s, rest))
    (hlt : run.hi < s.lo) : absorb run feed = (run, ⟨rest, some s⟩) := by
  rw [absorb]
  split <;> simp_all [UInt32.not_le.2 hlt]

/-- A finished run leaves no more entries than the feed had. -/
theorem remaining_absorb (run : Span) (feed : Feed) :
    (absorb run feed).2.remaining ≤ feed.size := by
  fun_induction absorb run feed with
  | case1 => simp [remaining]
  | case2 _ _ _ _ h _ ih => exact Nat.le_trans ih (by have := Feed.size_pop? h; omega)
  | case3 _ _ _ _ h _ => simp [remaining, Feed.size_pop? h]

/-- **The next run, and the stream after it.**  The run begins with the pending span, if there is
one, and with the next span of the feed otherwise. -/
def next? (r : RunStream) : Option (Span × RunStream) :=
  match r.pending with
  | some s => some (absorb s r.feed)
  | none => r.feed.pop?.map fun (s, rest) => absorb s rest

/-- Every run takes entries away. -/
theorem remaining_next? {r q : RunStream} {run : Span} (h : r.next? = some (run, q)) :
    q.remaining < r.remaining := by
  obtain ⟨feed, _ | s⟩ := r
  · obtain ⟨⟨s, rest⟩, hpop, hrun⟩ := Option.map_eq_some_iff.1 h
    have hle := remaining_absorb s rest
    have hsize : feed.size = rest.size + 1 := Feed.size_pop? hpop
    simp only [hrun] at hle
    simp only [remaining, Option.isSome_none, Bool.false_eq_true, if_false] at hle ⊢
    omega
  · have hle := remaining_absorb s feed
    simp only [next?, Option.some.injEq] at h
    rw [h] at hle
    simp only [remaining, Option.isSome_some, if_true] at hle ⊢
    omega

/-- A stream that has ended has nothing left. -/
theorem next?_eq_none_iff {r : RunStream} :
    r.next? = none ↔ r.pending = none ∧ r.feed.pop? = none := by
  obtain ⟨feed, _ | s⟩ := r <;> simp [next?]

/-! ### Many runs -/

/-- **All runs left**, in order. -/
def toList (r : RunStream) : List Span :=
  match _h : r.next? with
  | none => []
  | some (run, rest) => run :: rest.toList
termination_by r.remaining
decreasing_by exact remaining_next? _h

theorem toList_of_next?_eq_none {r : RunStream} (h : r.next? = none) : r.toList = [] := by
  rw [toList]
  split <;> simp_all

theorem toList_of_next?_eq_some {r q : RunStream} {run : Span} (h : r.next? = some (run, q)) :
    r.toList = run :: q.toList := by
  rw [toList]
  split <;> simp_all

/-- The run at position `k`, counted from zero, if there are that many. -/
def nth? : Nat → RunStream → Option Span
  | 0, r => r.next?.map Prod.fst
  | k + 1, r => r.next?.bind fun (_, rest) => nth? k rest

/-- Whether two streams have the same runs, taken in step and given up at the first
difference. -/
def agrees (r q : RunStream) : Bool :=
  match _h : r.next?, q.next? with
  | none, none => true
  | some (run, r'), some (run', q') => run == run' && agrees r' q'
  | _, _ => false
termination_by r.remaining
decreasing_by exact remaining_next? _h

/-- The run at a position is the one that the list of all runs has there. -/
theorem nth?_eq (k : Nat) (r : RunStream) : nth? k r = r.toList[k]? := by
  induction k generalizing r with
  | zero =>
      cases h : r.next? with
      | none => simp [nth?, h, toList_of_next?_eq_none h]
      | some p =>
          obtain ⟨run, q⟩ := p
          simp [nth?, h, toList_of_next?_eq_some h]
  | succ k ih =>
      cases h : r.next? with
      | none => simp [nth?, h, toList_of_next?_eq_none h]
      | some p =>
          obtain ⟨run, q⟩ := p
          simp [nth?, h, toList_of_next?_eq_some h, ih]

/-- Two streams agree exactly when the lists of their runs are equal. -/
theorem agrees_iff {r q : RunStream} : r.agrees q = true ↔ r.toList = q.toList := by
  fun_induction agrees r q with
  | case1 r q hr hq => simp [toList_of_next?_eq_none hr, toList_of_next?_eq_none hq]
  | case2 r q run r' run' q' hr hq ih =>
      simp [toList_of_next?_eq_some hr, toList_of_next?_eq_some hq, ih]
  | case3 r q h₁ h₂ =>
      cases hr : r.next? with
      | none =>
          cases hq : q.next? with
          | none => exact absurd hq (h₁ hr)
          | some p =>
              obtain ⟨run, q'⟩ := p
              simp [toList_of_next?_eq_none hr, toList_of_next?_eq_some hq]
      | some p =>
          obtain ⟨run, r'⟩ := p
          cases hq : q.next? with
          | none => simp [toList_of_next?_eq_none hq, toList_of_next?_eq_some hr]
          | some p' => exact absurd hq (h₂ _ _ _ _ hr)

end RunStream

end IndexSpace
