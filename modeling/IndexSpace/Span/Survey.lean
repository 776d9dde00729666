/-
**Spans made of many pairs of bounds.**

Pairs of bounds that enclose no index are set aside, by position.  The spans that the others make
are compared with their neighbours, and collected in ascending order, each of them once.

Main definitions:

* `IndexSpace.Span.Survey`, `IndexSpace.Span.survey` — the positions set aside, and the spans made;
* `IndexSpace.Span.Survey.orderings`, `IndexSpace.Span.Survey.repeats` — how each span stands to the
  next one, and whether it equals it;
* `IndexSpace.Span.Survey.distinct` — the spans made, each of them once.
-/

import IndexSpace.Span

set_option relaxedAutoImplicit false
set_option autoImplicit false

namespace IndexSpace.Span

/-- What has become of some pairs of bounds. -/
structure Survey where
  /-- The positions of the pairs that enclose no index. -/
  rejected : List Nat
  /-- The spans that the other pairs make, in their order. -/
  made : List Span
deriving DecidableEq, Repr

/-- **Makes spans of pairs of bounds.** -/
def survey (bounds : List (UInt32 × UInt32)) : Survey where
  rejected := bounds.zipIdx.filterMap fun (b, k) =>
    if (ofBounds? b.1 b.2).isNone then some k else none
  made := bounds.filterMap fun b => ofBounds? b.1 b.2

namespace Survey

/-- Each span with the one after it. -/
def neighbours (s : Survey) : List (Span × Span) := s.made.zip s.made.tail

/-- How each span stands to the one after it. -/
def orderings (s : Survey) : List Ordering := s.neighbours.map fun (t, u) => compare t u

/-- Whether each span equals the one after it. -/
def repeats (s : Survey) : List Bool := s.neighbours.map fun (t, u) => t == u

/-- The spans made, ascending, each of them once. -/
def distinct (s : Survey) : Std.ExtTreeSet Span := .ofList s.made

end Survey

end IndexSpace.Span
