/-
**No session goes wrong in its arithmetic.**

A session can be carried out with every step checked, and then gives up at the first calculation
that would wrap around, that would make an improper span, or that would lead out of a space.  No
session that begins with no names in use does so.  The reason is the invariant: whatever a session
puts under a name is well-formed, so that each further step finds its calculations safe, whichever
numbers it brings in and however large the spaces are.

Main definitions:

* `IndexSpace.Checked.step`, `IndexSpace.Checked.run` — **steps and sessions with every calculation
  checked**;
* `IndexSpace.Selection.Bounded` — what stays within the space of a selection, and its count.

Main results:

* `IndexSpace.Checked.step_eq_ok` — from selections that operations can lead to, a step goes
  through;
* `IndexSpace.Checked.run_eq_ok` — so does a session;
* `IndexSpace.Session.run?_without_faults` — **every session goes through, and leaves bounded
  selections behind**.
-/

import IndexSpace.Session.Run
import IndexSpace.Proofs.Checked.Selection

set_option relaxedAutoImplicit false
set_option autoImplicit false

namespace IndexSpace

namespace Checked

/-- **Carries out a step**, if the names that it refers to are in use. -/
def step (w : Workspace) : Step → Except Fault (Option (Workspace × Reply))
  | .create name x => do return some (w.settle name (← seed x))
  | .copy name source => return (w.get? source).map (w.settle name)
  | .edit name change =>
      match w.get? name, change.resolve? w.get? with
      | some s, some change => do
          let outcome ← edit s change
          return some (w.put name outcome.selection,
            ⟨.verdict outcome.verdict, outcome.events, some outcome.selection⟩)
      | _, _ => return none
  | .compare left right =>
      match w.get? left, w.get? right with
      | some s, some t => do
          return some (w, ⟨.agreement (← agrees s t) (← agrees t s), [], none⟩)
      | _, _ => return none
  | .ask name question =>
      match w.get? name with
      | some s => do return some (w, ⟨.answer (← answer s question), [], none⟩)
      | none => return none

/-- **Carries out steps in order**, if every name that they refer to is in use when its turn
comes. -/
def run (w : Workspace) : List Step → Except Fault (Option (Workspace × List Reply))
  | [] => return some (w, [])
  | st :: steps => do
      match ← step w st with
      | some (w, reply) => return (← run w steps).map fun p => (p.1, reply :: p.2)
      | none => return none

/-- **A step goes through** where all selections are such as operations can lead to. -/
theorem step_eq_ok {w : Workspace} (hw : w.Reachable) (st : Step) :
    step w st = .ok (st.run? w) := by
  have hwf : ∀ name s, w.get? name = some s → s.WellFormed := fun name s hs =>
    (hw name s hs).wellFormed
  cases st with
  | create name x =>
      rw [step, seed_eq_ok]
      rfl
  | copy name source => rfl
  | edit name change =>
      rw [step, Step.run?]
      cases hs : w.get? name with
      | none => rfl
      | some s =>
          cases hc : change.resolve? w.get? with
          | none => rfl
          | some c =>
              have hrefs : ∀ t ∈ c.refs, t.WellFormed := by
                intro t ht
                obtain ⟨other, hother⟩ := Edit.exists_get?_of_mem_refs hc ht
                exact hwf other t hother
              simp [edit_eq_ok (hwf name s hs) hrefs]
  | compare left right =>
      rw [step, Step.run?]
      cases hs : w.get? left with
      | none => rfl
      | some s =>
          cases ht : w.get? right with
          | none => rfl
          | some t =>
              have hsw := hwf left s hs
              have htw := hwf right t ht
              simp [agrees_eq_ok hsw htw, agrees_eq_ok htw hsw]
  | ask name question =>
      rw [step, Step.run?]
      cases hs : w.get? name with
      | none => rfl
      | some s => simp [answer_eq_ok (hwf name s hs)]

/-- **A session goes through** from selections that operations can lead to, as each step leads to
such selections again. -/
theorem run_eq_ok {w : Workspace} (hw : w.Reachable) (steps : List Step) :
    run w steps = .ok (Session.run? w steps) := by
  induction steps generalizing w with
  | nil => rfl
  | cons st steps ih =>
      rw [run, step_eq_ok hw, ok_bind, Session.run?_cons]
      cases hst : st.run? w with
      | none => rfl
      | some p =>
          obtain ⟨v, reply⟩ := p
          have hv : v.Reachable := Step.reachable_of_run? hw hst
          simp [ih hv]

end Checked

/-- **What stays within the space of a selection**: entries, runs, and the number of elements at
every point of the count. -/
structure Selection.Bounded (s : Selection) : Prop where
  points_lt : ∀ i ∈ s.points, i < s.size
  points_lt_top : ∀ i ∈ s.points, i < 0xFFFFFFFF
  spans_within : ∀ t ∈ s.spans, t.Within s.size
  runs_within : ∀ t ∈ s.runs, t.Within s.size
  total_take_runs_le : ∀ k, Span.total (s.runs.take k) ≤ s.size.toNat
  count_toNat : s.count.toNat = Span.total s.runs

theorem Selection.WellFormed.bounded {s : Selection} (h : s.WellFormed) : s.Bounded where
  points_lt := h.points_lt
  points_lt_top := fun i hi => Span.lt_top_of_lt (h.points_lt i hi)
  spans_within := fun t ht => ⟨h.proper t ht, h.spans_le t ht⟩
  runs_within := h.within_of_mem_runs
  total_take_runs_le := h.total_take_runs_le
  count_toNat := h.count_toNat

/-- **No session goes wrong in its arithmetic**, whichever steps it has.  With every calculation
checked it finds no fault and has the plain result: no successor and no difference wraps around, all
spans that are made, stored, drawn out or read are proper and end within the space of their
selection, and counting stays within 32 bits.  What a session leaves under a name is bounded, so
that its count is exact.  And a span that is made of two bounds has a length that does not wrap
around either. -/
theorem Session.run?_without_faults (steps : List Step) :
    Checked.run Workspace.empty steps = .ok (run? Workspace.empty steps) ∧
      (∀ w replies name s, run? Workspace.empty steps = some (w, replies) →
        w.get? name = some s → s.Bounded) ∧
      ∀ lo hi t, Span.ofBounds? lo hi = some t →
        Checked.bounds lo hi = .ok t ∧ Checked.length t = .ok t.length := by
  refine ⟨Checked.run_eq_ok Workspace.reachable_empty steps, ?_, ?_⟩
  · intro w replies name s h hs
    exact (reachable_of_run? Workspace.reachable_empty h name s hs).wellFormed.bounded
  · intro lo hi t ht
    obtain ⟨hlt, rfl⟩ := Span.ofBounds?_eq_some_iff.1 ht
    exact ⟨Checked.bounds_eq_ok hlt, Checked.length_eq_ok hlt⟩

/-- The largest space, its last index and the number after it, all indices at once, and what is
calculated from them. -/
def Session.stepsAtTop : List Step :=
  [.create "all" (.complete 0xFFFFFFFF), .create "a" (.empty 0xFFFFFFFF),
    .edit "a" (.add (.point 0xFFFFFFFE)), .edit "a" (.add (.point 0xFFFFFFFF)),
    .edit "a" (.add (.all "all")), .ask "a" .count, .compare "a" "all", .edit "a" .normalize,
    .ask "a" .text]

/-- At the limits of 32 bits nothing goes wrong either, and all indices are counted. -/
theorem Session.run?_without_faults_at_top :
    ∃ w replies s,
      run? Workspace.empty stepsAtTop = some (w, replies) ∧
        Checked.run Workspace.empty stepsAtTop = .ok (some (w, replies)) ∧
        w.get? "a" = some s ∧ s.count.toNat = 0xFFFFFFFF ∧ s.Bounded := by
  have hrun : (run? Workspace.empty stepsAtTop).any
      (fun p => (p.1.get? "a").any fun s => s.count == 0xFFFFFFFF) = true := by
    decide +kernel
  obtain ⟨⟨w, replies⟩, h, hb⟩ := (Option.any_eq_true _ _).1 hrun
  obtain ⟨s, hs, hcount⟩ := (Option.any_eq_true _ _).1 hb
  obtain ⟨hchecked, hbounded, -⟩ := run?_without_faults stepsAtTop
  refine ⟨w, replies, s, h, ?_, hs, ?_, hbounded w replies "a" s h hs⟩
  · rw [hchecked, h]
  · rw [eq_of_beq hcount]
    rfl

end IndexSpace
