/-
**Sessions: steps on named selections.**

A session starts with no names in use and goes through its steps in order.  A step that makes or
changes a selection shows the selection that it leaves behind, also where the change was refused.
A step that refers to a name that is not in use ends the session without an answer.  Whatever the
steps are, every selection under a name is one that changes can lead to.

Main definitions:

* `IndexSpace.Workspace`, `IndexSpace.Workspace.get?`, `IndexSpace.Workspace.put` — selections under
  names, the one under a name, and another one in its place;
* `IndexSpace.Step` — the steps;
* `IndexSpace.Reply`, `IndexSpace.Result` — what a step answers, reports and shows;
* `IndexSpace.Step.run?`, `IndexSpace.Session.run?` — **carrying out** one step and all of them;
* `IndexSpace.Session.log` — everything that was reported, in the order of the steps;
* `IndexSpace.Workspace.Reachable` — every selection under a name is one that changes can lead to.

Main results:

* `IndexSpace.Workspace.get?_put` — a name stands for what was last put under it, and putting
  something under one name leaves the others as they are;
* `IndexSpace.Session.run?_cons_eq_some_iff` — a session goes through step by step;
* `IndexSpace.Step.reachable_of_run?`, `IndexSpace.Session.reachable_of_run?` — a step, and hence a
  whole session, **keeps to selections that changes can lead to**.
-/

import IndexSpace.Selection.Edit

set_option relaxedAutoImplicit false
set_option autoImplicit false

namespace IndexSpace

/-! ### Named selections -/

/-- **Selections under names.** -/
structure Workspace where
  /-- The names in use, each with its selection. -/
  entries : List (String × Selection)
deriving DecidableEq

namespace Workspace

/-- No names in use. -/
def empty : Workspace := ⟨[]⟩

/-- The selection under a name, if the name is in use. -/
def get? (w : Workspace) (name : String) : Option Selection := w.entries.lookup name

/-- Puts a selection under a name, in place of the one that was there. -/
def put (w : Workspace) (name : String) (s : Selection) : Workspace :=
  ⟨(name, s) :: w.entries.filter fun entry => entry.1 != name⟩

@[simp] theorem get?_empty (name : String) : empty.get? name = none := rfl

theorem lookup_filter_of_ne {entries : List (String × Selection)} {name other : String}
    (h : other ≠ name) :
    (entries.filter fun entry => entry.1 != name).lookup other = entries.lookup other := by
  induction entries with
  | nil => rfl
  | cons entry entries ih =>
      obtain ⟨key, s⟩ := entry
      by_cases hkey : key = name
      · subst hkey
        simp [List.lookup_cons, ih, beq_false_of_ne h]
      · simp [List.lookup_cons, ih, hkey]

/-- **A name stands for what was last put under it**, and other names are left as they are. -/
theorem get?_put (w : Workspace) (name other : String) (s : Selection) :
    (w.put name s).get? other = if other = name then some s else w.get? other := by
  by_cases h : other = name
  · simp [get?, put, h]
  · simp [get?, put, List.lookup_cons, h, beq_false_of_ne h, lookup_filter_of_ne h]

end Workspace

/-! ### Steps and replies -/

/-- **A step of a session.** -/
inductive Step where
  /-- Puts a new selection under a name. -/
  | create (name : String) (seed : Seed)
  /-- Puts the selection under the name `source` under `name` as well; later changes to the one do
  not touch the other. -/
  | copy (name source : String)
  /-- Changes the selection under a name. -/
  | edit (name : String) (change : Edit String)
  /-- Compares two selections, each with the other. -/
  | compare (left right : String)
  /-- Asks about the selection under a name. -/
  | ask (name : String) (question : Question)
deriving DecidableEq, Repr

/-- What a step answers. -/
inductive Result where
  /-- How a change was answered. -/
  | verdict (v : Verdict)
  /-- Whether the first selection agrees with the second, and the second with the first. -/
  | agreement (forth back : Bool)
  /-- The answer to a question. -/
  | answer (a : Answer)
deriving DecidableEq, Repr

/-- **What a step answers, reports and shows.** -/
structure Reply where
  /-- The answer. -/
  result : Result
  /-- What was reported. -/
  events : List Event
  /-- The selection that a step which makes or changes one leaves under its name. -/
  shown : Option Selection
deriving DecidableEq

/-! ### Carrying out -/

/-- The workspace after putting `s` under a name, and the reply that the step was done. -/
def Workspace.settle (w : Workspace) (name : String) (s : Selection) : Workspace × Reply :=
  (w.put name s, ⟨.verdict (.whole none), [], some s⟩)

/-- **Carries out a step**, if the names that it refers to are in use. -/
def Step.run? (w : Workspace) : Step → Option (Workspace × Reply)
  | create name seed => some (w.settle name seed.selection)
  | copy name source => (w.get? source).map (w.settle name)
  | edit name change => do
      let s ← w.get? name
      let change ← change.resolve? w.get?
      let outcome := s.edit change
      return (w.put name outcome.selection,
        ⟨.verdict outcome.verdict, outcome.events, some outcome.selection⟩)
  | compare left right => do
      let s ← w.get? left
      let t ← w.get? right
      return (w, ⟨.agreement (s.agrees t) (t.agrees s), [], none⟩)
  | ask name question => do
      let s ← w.get? name
      return (w, ⟨.answer (s.answer question), [], none⟩)

namespace Session

/-- **Carries out steps in order**, if every name that they refer to is in use when its turn
comes. -/
def run? (w : Workspace) : List Step → Option (Workspace × List Reply)
  | [] => some (w, [])
  | step :: steps => do
      let (w, reply) ← step.run? w
      let (w, replies) ← run? w steps
      return (w, reply :: replies)

theorem run?_cons (w : Workspace) (step : Step) (steps : List Step) :
    run? w (step :: steps) =
      (step.run? w).bind fun p => (run? p.1 steps).map fun q => (q.1, p.2 :: q.2) := by
  cases h : step.run? w with
  | none => simp [run?, h]
  | some p => cases h' : run? p.1 steps <;> simp [run?, h, h']

/-- A session that goes through goes through its first step, and then through the others. -/
theorem run?_cons_eq_some_iff {w w' : Workspace} {step : Step} {steps : List Step}
    {replies : List Reply} :
    run? w (step :: steps) = some (w', replies) ↔
      ∃ v reply rest, step.run? w = some (v, reply) ∧ run? v steps = some (w', rest) ∧
        replies = reply :: rest := by
  rw [run?_cons, Option.bind_eq_some_iff]
  constructor
  · rintro ⟨⟨v, reply⟩, hstep, h⟩
    obtain ⟨⟨u, rest⟩, hrest, hpair⟩ := Option.map_eq_some_iff.1 h
    obtain ⟨rfl, rfl⟩ := Prod.mk.inj hpair
    exact ⟨v, reply, rest, hstep, hrest, rfl⟩
  · rintro ⟨v, reply, rest, hstep, hrest, rfl⟩
    exact ⟨(v, reply), hstep, by rw [hrest, Option.map_some]⟩

/-- **Everything that was reported**, in the order of the steps. -/
def log (replies : List Reply) : List Event := replies.flatMap Reply.events

end Session

/-! ### Selections in a session -/

/-- Every selection under a name is one that operations can lead to. -/
def Workspace.Reachable (w : Workspace) : Prop :=
  ∀ name s, w.get? name = some s → s.Reachable

theorem Workspace.reachable_empty : Workspace.empty.Reachable := by
  intro name s h
  simp at h

theorem Workspace.Reachable.put {w : Workspace} (h : w.Reachable) {s : Selection}
    (hs : s.Reachable) (name : String) : (w.put name s).Reachable := by
  intro other t ht
  rw [get?_put] at ht
  split at ht
  · exact Option.some.inj ht ▸ hs
  · exact h other t ht

/-- The selections that a change with its references followed refers to were under names. -/
theorem Edit.exists_get?_of_mem_refs {w : Workspace} {e : Edit String} {change : Edit Selection}
    (h : e.resolve? w.get? = some change) {t : Selection} (ht : t ∈ change.refs) :
    ∃ name, w.get? name = some t := by
  rcases e with a | size | _
  · obtain ⟨b, hb, rfl⟩ := Option.map_eq_some_iff.1 h
    cases a with
    | point i => cases hb; simp [refs, Addition.refs] at ht
    | span lo hi => cases hb; simp [refs, Addition.refs] at ht
    | points is => cases hb; simp [refs, Addition.refs] at ht
    | all other =>
        obtain ⟨u, hu, rfl⟩ := Option.map_eq_some_iff.1 hb
        simp only [refs, Addition.refs, List.mem_singleton] at ht
        exact ⟨other, ht ▸ hu⟩
  · cases h; simp [refs] at ht
  · cases h; simp [refs] at ht

/-- **A step keeps to selections that operations can lead to.** -/
theorem Step.reachable_of_run? {w w' : Workspace} {step : Step} {reply : Reply}
    (hw : w.Reachable) (h : step.run? w = some (w', reply)) : w'.Reachable := by
  cases step with
  | create name seed =>
      obtain ⟨rfl, rfl⟩ := Prod.mk.inj (Option.some.inj h)
      exact hw.put (.seed seed) name
  | copy name source =>
      obtain ⟨s, hs, hput⟩ := Option.map_eq_some_iff.1 h
      obtain ⟨rfl, rfl⟩ := Prod.mk.inj hput
      exact hw.put (hw source s hs) name
  | edit name e =>
      obtain ⟨s, hs, h⟩ := Option.bind_eq_some_iff.1 h
      obtain ⟨change, hchange, h⟩ := Option.bind_eq_some_iff.1 h
      obtain ⟨rfl, rfl⟩ := Prod.mk.inj (Option.some.inj h)
      refine hw.put (.edit change (hw name s hs) fun t ht => ?_) name
      obtain ⟨other, hother⟩ := Edit.exists_get?_of_mem_refs hchange ht
      exact hw other t hother
  | compare left right =>
      obtain ⟨s, hs, h⟩ := Option.bind_eq_some_iff.1 h
      obtain ⟨t, ht, h⟩ := Option.bind_eq_some_iff.1 h
      obtain ⟨rfl, rfl⟩ := Prod.mk.inj (Option.some.inj h)
      exact hw
  | ask name question =>
      obtain ⟨s, hs, h⟩ := Option.bind_eq_some_iff.1 h
      obtain ⟨rfl, rfl⟩ := Prod.mk.inj (Option.some.inj h)
      exact hw

/-- **A session keeps to selections that operations can lead to.** -/
theorem Session.reachable_of_run? {w w' : Workspace} {steps : List Step} {replies : List Reply}
    (hw : w.Reachable) (h : run? w steps = some (w', replies)) : w'.Reachable := by
  induction steps generalizing w replies with
  | nil =>
      obtain ⟨rfl, rfl⟩ := Prod.mk.inj (Option.some.inj h)
      exact hw
  | cons step steps ih =>
      obtain ⟨v, reply, rest, hstep, hrest, -⟩ := run?_cons_eq_some_iff.1 h
      exact ih (Step.reachable_of_run? hw hstep) hrest

end IndexSpace
