/-
**Other readings of a session.**

The steps of a session are about selections, but they can be read as being about anything that has
beginnings and can be changed: sets of indices, histories, or selections together with what they
once were.  A reading says what a beginning stands for and what a change makes of it; names, copies
and references to names are the same for all readings.  If two readings begin with related things
and corresponding changes keep them related, then they stay related through every session.

In the plainest of these readings a session is about nothing but sets of indices: a new set is empty
or complete, an addition brings in the indices that lie within the space, a resize changes an empty
set, and normalization does nothing at all.  This reading knows no stored form.  The module proves
that it gives, after every step of every session, the size and the elements of all selections under
names.

Main definitions:

* `IndexSpace.Reading` — what a seed stands for, and what a change makes of it;
* `IndexSpace.Step.read?`, `IndexSpace.Session.read?` — **the things under names** after one step
  and after all of them;
* `IndexSpace.Session.under?` — the thing under one name after a session from its beginning;
* `IndexSpace.Reading.Simulates` — beginnings are related, and corresponding changes keep them so;
* `IndexSpace.Meaning.reading` — sessions, read as being about sets of indices;
* `IndexSpace.Workspace.meanings` — what the selections under names mean.

Main results:

* `IndexSpace.Session.run?_eq_read?` — carrying a session out is reading it as selections;
* `IndexSpace.Session.rel_read?` — **related readings agree on every session**;
* `IndexSpace.Session.exists_under?` — what was read for a selection is related to it;
* `IndexSpace.Meaning.simulates` — selections follow their meanings;
* `IndexSpace.Session.meanings_run?` — **after every step, sizes and look-ups are those of sets**.
-/

import IndexSpace.Session.Run
import IndexSpace.Proofs.Selection.Meaning

set_option relaxedAutoImplicit false
set_option autoImplicit false

namespace IndexSpace

variable {α β : Type}

/-- **A reading of sessions**: what a seed stands for, and what a change makes of it. -/
structure Reading (α : Type) where
  seed : Seed → α
  edit : α → Edit α → α

/-- The things under names, with another one under `name`. -/
def Reading.put (v : String → Option α) (name : String) (a : α) : String → Option α :=
  fun other => if other = name then some a else v other

/-- The things under names after a step, if the names that it refers to are in use. -/
def Step.read? (r : Reading α) (v : String → Option α) : Step → Option (String → Option α)
  | create name seed => some (Reading.put v name (r.seed seed))
  | copy name source => (v source).map (Reading.put v name)
  | edit name change =>
      (v name).bind fun a => (change.resolve? v).map fun c => Reading.put v name (r.edit a c)
  | compare left right => (v left).bind fun _ => (v right).map fun _ => v
  | ask name _ => (v name).map fun _ => v

/-- **The things under names after all steps**, if every name that they refer to is in use when its
turn comes. -/
def Session.read? (r : Reading α) (v : String → Option α) : List Step → Option (String → Option α)
  | [] => some v
  | step :: steps => (step.read? r v).bind fun w => read? r w steps

/-- What a reading of a session, from its beginning, has under a name. -/
def Session.under? (r : Reading α) (steps : List Step) (name : String) : Option α :=
  (read? r (fun _ => none) steps).bind fun v => v name

/-! ### Selections -/

/-- The reading by which sessions are carried out. -/
def Selection.reading : Reading Selection := ⟨Seed.selection, fun s c => (s.edit c).selection⟩

theorem Workspace.get?_put_eq (w : Workspace) (name : String) (s : Selection) :
    (w.put name s).get? = Reading.put w.get? name s :=
  funext fun other => w.get?_put name other s

theorem Step.run?_eq_read? (w : Workspace) (step : Step) :
    (step.run? w).map (fun p => p.1.get?) = step.read? Selection.reading w.get? := by
  cases step with
  | create name seed => simp [run?, read?, Workspace.settle, Workspace.get?_put_eq,
      Selection.reading]
  | copy name source =>
      cases h : w.get? source <;> simp [run?, read?, h, Workspace.settle, Workspace.get?_put_eq]
  | edit name change =>
      cases h : w.get? name with
      | none => simp [run?, read?, h]
      | some s =>
          cases hc : change.resolve? w.get? <;>
            simp [run?, read?, h, hc, Workspace.get?_put_eq, Selection.reading]
  | compare left right =>
      cases h : w.get? left with
      | none => simp [run?, read?, h]
      | some s => cases h' : w.get? right <;> simp [run?, read?, h, h']
  | ask name question => cases h : w.get? name <;> simp [run?, read?, h]

/-- Carrying a session out is reading it as selections. -/
theorem Session.run?_eq_read? (w : Workspace) (steps : List Step) :
    (run? w steps).map (fun p => p.1.get?) = read? Selection.reading w.get? steps := by
  induction steps generalizing w with
  | nil => rfl
  | cons step steps ih =>
      rw [read?, run?_cons, ← Step.run?_eq_read?]
      cases step.run? w with
      | none => rfl
      | some p =>
          rw [Option.bind_some, Option.map_some, Option.bind_some, ← ih p.1, Option.map_map]
          rfl

/-! ### Related readings -/

/-- **One reading simulates another** when beginnings are related and corresponding changes of
related things lead to related things. -/
structure Reading.Simulates (r : Reading α) (q : Reading β) (R : α → β → Prop) : Prop where
  seed : ∀ x, R (r.seed x) (q.seed x)
  edit : ∀ {a b c d}, R a b → c.Rel R d → R (r.edit a c) (q.edit b d)

variable {r : Reading α} {q : Reading β} {R : α → β → Prop}

theorem Reading.rel_put {v : String → Option α} {w : String → Option β}
    (h : ∀ name, (v name).Rel R (w name)) (name : String) {a : α} {b : β} (hab : R a b) :
    ∀ other, (put v name a other).Rel R (put w name b other) := by
  intro other
  by_cases hother : other = name
  · simpa [put, hother] using Option.Rel.some hab
  · simpa [put, hother] using h other

/-- A step keeps related things related, or fails on both sides. -/
theorem Step.rel_read? (hsim : r.Simulates q R) {v : String → Option α} {w : String → Option β}
    (h : ∀ name, (v name).Rel R (w name)) (step : Step) :
    (step.read? r v).Rel (fun v' w' => ∀ name, (v' name).Rel R (w' name)) (step.read? q w) := by
  cases step with
  | create name seed => exact .some (Reading.rel_put h name (hsim.seed seed))
  | copy name source => exact rel_map (fun _ _ hst => Reading.rel_put h name hst) (h source)
  | edit name change =>
      refine rel_bind (fun _ _ hab => ?_) (h name)
      refine rel_map (fun _ _ hcd => ?_) (Edit.rel_resolve? h change)
      exact Reading.rel_put h name (hsim.edit hab hcd)
  | compare left right =>
      refine rel_bind (fun _ _ _ => ?_) (h left)
      exact rel_map (fun _ _ _ => h) (h right)
  | ask name question => exact rel_map (fun _ _ _ => h) (h name)

/-- **Related readings agree on every session**: what they have under names stays related, and the
one fails where the other does. -/
theorem Session.rel_read? (hsim : r.Simulates q R) {v : String → Option α}
    {w : String → Option β} (h : ∀ name, (v name).Rel R (w name)) (steps : List Step) :
    (read? r v steps).Rel (fun v' w' => ∀ name, (v' name).Rel R (w' name)) (read? q w steps) := by
  induction steps generalizing v w with
  | nil => exact .some h
  | cons step steps ih => exact rel_bind (fun _ _ hvw => ih hvw) (Step.rel_read? hsim h step)

/-- Beside every selection under a name there is what was read for it, and the two are related. -/
theorem Session.exists_under? {Q : Selection → β → Prop} (hsim : Selection.reading.Simulates q Q)
    {steps : List Step} {w : Workspace} {replies : List Reply}
    (h : run? Workspace.empty steps = some (w, replies)) {name : String} {s : Selection}
    (hs : w.get? name = some s) : ∃ b, under? q steps name = some b ∧ Q s b := by
  have hrel := rel_read? hsim (v := Workspace.empty.get?) (w := fun _ => none)
    (fun _ => .none) steps
  rw [← run?_eq_read?, h] at hrel
  obtain ⟨v, hv, hnames⟩ := exists_of_some_rel hrel
  have hname := hnames name
  simp only [hs] at hname
  obtain ⟨b, hb, hsb⟩ := exists_of_some_rel hname
  refine ⟨b, ?_, hsb⟩
  rw [under?, hv, Option.bind_some, hb]

/-! ### Sets of indices -/

/-- Sessions, read as being about sets of indices. -/
noncomputable def Meaning.reading : Reading Meaning := ⟨ofSeed, edit⟩

/-- **What the selections under names mean**: the size of each, and the indices that are found in
it. -/
def Workspace.meanings (w : Workspace) (name : String) : Option Meaning :=
  (w.get? name).map Selection.meaning

theorem Meaning.simulates : Selection.reading.Simulates Meaning.reading Selection.Means where
  seed := Selection.means_seed
  edit := fun hsm hcd => hsm.edit hcd

theorem Workspace.meanings_eq {w : String → Option Selection} {v : String → Option Meaning}
    (h : ∀ name, (w name).Rel Selection.Means (v name)) :
    (fun name => (w name).map Selection.meaning) = v :=
  funext fun name => map_eq_of_rel (fun _ _ hsm => hsm.meaning_eq) (h name)

/-- **After every step of every session, the sizes and look-ups of all selections under names are
those of the sets that the session is about.**  Both readings fail at the same steps. -/
theorem Session.meanings_run? (steps : List Step) (k : Nat) :
    (run? Workspace.empty (steps.take k)).map (fun p => p.1.meanings) =
      read? Meaning.reading (fun _ => none) (steps.take k) := by
  have hrel := rel_read? Meaning.simulates (v := Workspace.empty.get?) (w := fun _ => none)
    (fun _ => .none) (steps.take k)
  rw [← map_eq_of_rel (fun _ _ => Workspace.meanings_eq) hrel, ← run?_eq_read?, Option.map_map]
  rfl

end IndexSpace
