/-
**What stays true of every selection in a session, and what marks and log tell of the past.**

Whatever the steps of a session are, in which order they come, and which of them are refused, every
selection under a name is well-formed.  Moreover no addition puts a span of one index among the
stored spans, since such a span is stored as its index; only normalization and the beginning do so.
To say this, a session is read a second time, with each selection kept beside the one that it was
right after its last normalization, or at its beginning if it was never normalized.  A copy has the
past of what it is a copy of.

Of all that was done to a selection, its stored form keeps nothing but a mark, and the session
nothing but a log.  To say what they tell, a session is read with a chronicle beside each selection:
the additions that were made to it since it was last normalized, or since it began, each with the
selection to which it was made.  The mark is missing exactly if one of these additions, refused or
not, changed a container.  The log has the notes of the single steps in their order, and a step has
no notes but those of a refused resize and of a normalization with work to do.

Main definitions:

* `IndexSpace.Lineage`, `IndexSpace.Lineage.reading` — a selection with what it was when it was last
  normalized or began, and sessions read with this past kept;
* `IndexSpace.Chronicle`, `IndexSpace.Chronicle.reading` — a selection with the additions since
  then, and sessions read with these additions kept;
* `IndexSpace.Chronicle.Grew` — one of these additions changed a container;
* `IndexSpace.Step.notes`, `IndexSpace.Session.notes` — **what a step and a session have to
  report**.

Main results:

* `IndexSpace.Lineage.simulates` — the past is kept beside the selections themselves;
* `IndexSpace.Session.invariant_of_run?` — **the invariant of every selection in every session**;
* `IndexSpace.Chronicle.simulates` — the mark is missing exactly if a container was changed;
* `IndexSpace.Step.events_of_run?`, `IndexSpace.Session.events_of_run?` — every step reports what it
  has to;
* `IndexSpace.Session.marks_and_log_of_run?` — **marks and log follow the past exactly**.
-/

import IndexSpace.Proofs.Selection.Rearrangement
import IndexSpace.Proofs.Selection.Report
import IndexSpace.Proofs.Session.Reading

set_option relaxedAutoImplicit false
set_option autoImplicit false

namespace IndexSpace

/-! ### Lineages -/

/-- **A selection with its past.** -/
structure Lineage where
  /-- The selection as it is. -/
  current : Selection
  /-- The selection as it was right after its last normalization, or at its beginning if that is
  later. -/
  base : Selection

namespace Lineage

/-- The past of a beginning is the beginning itself. -/
def ofSeed (x : Seed) : Lineage := ⟨x.selection, x.selection⟩

/-- Normalization makes a new past; other changes keep it. -/
def edit (l : Lineage) : Edit Lineage → Lineage
  | .add a => { l with current := (l.current.add (a.map current)).1 }
  | .resize size => { l with current := (l.current.edit (.resize size)).selection }
  | .normalize => ⟨l.current.normalize, l.current.normalize⟩

/-- Sessions, read with the past of every selection. -/
def reading : Reading Lineage := ⟨ofSeed, edit⟩

/-- The selection is well-formed, and stores the same spans of one index as its past. -/
structure Upholds (s : Selection) (l : Lineage) : Prop where
  current_eq : s = l.current
  wellFormed : s.WellFormed
  mem_spans_iff : ∀ t : Span, t.length = 1 → (t ∈ s.spans ↔ t ∈ l.base.spans)

theorem upholds_seed (x : Seed) : (ofSeed x).Upholds x.selection :=
  ⟨rfl, (Selection.Reachable.seed x).wellFormed, fun _ _ => Iff.rfl⟩

theorem Upholds.edit {s : Selection} {l : Lineage} (h : Upholds s l) {c : Edit Selection}
    {d : Edit Lineage} (hcd : c.Rel Upholds d) : Upholds (s.edit c).selection (l.edit d) := by
  have hwf : (s.edit c).selection.WellFormed :=
    h.wellFormed.edit (hcd.forall_mem_refs fun _ _ htl => htl.wellFormed)
  obtain rfl := h.current_eq
  -- an addition and a resize keep both lists of spans of one index, normalization renews both
  cases hcd with
  | add hab =>
      obtain rfl := hab.eq_map fun _ _ h => h.current_eq
      refine ⟨rfl, hwf, ?_⟩
      intro t ht
      exact (Selection.mem_spans_add_of_length_eq_one ht).trans (h.mem_spans_iff t ht)
  | resize size =>
      refine ⟨rfl, hwf, ?_⟩
      intro t ht
      rw [Selection.edit, Selection.spans_attempt_resize]
      exact h.mem_spans_iff t ht
  | normalize => exact ⟨rfl, hwf, fun _ _ => Iff.rfl⟩

/-- **The past is kept beside the selections**, and they stay well-formed. -/
theorem simulates : Selection.reading.Simulates reading Upholds where
  seed := upholds_seed
  edit := fun h hcd => h.edit hcd

end Lineage

/-- A selection under a name, with its past. -/
def Session.lineage? (steps : List Step) (name : String) : Option Lineage :=
  under? Lineage.reading steps name

/-- **The invariant of every selection in every session.**  It is well-formed: stored spans are
proper and stay within the space, as do the indices; a marked form has no single indices, and a gap
between any two of its spans; an empty one carries the mark.  No addition brings a span of one index
among the stored spans, so that these spans are those from right after the last normalization, or
from the beginning. -/
theorem Session.invariant_of_run? {steps : List Step} {w : Workspace} {replies : List Reply}
    (h : run? Workspace.empty steps = some (w, replies)) {name : String} {s : Selection}
    (hs : w.get? name = some s) :
    s.WellFormed ∧
      (∀ (a : Addition Selection) (t : Span),
        t.length = 1 → t ∈ (s.add a).1.spans → t ∈ s.spans) ∧
      ∃ l, lineage? steps name = some l ∧ l.current = s ∧
        ∀ t : Span, t.length = 1 → (t ∈ s.spans ↔ t ∈ l.base.spans) := by
  obtain ⟨l, hl, hsl⟩ := exists_under? Lineage.simulates h hs
  refine ⟨hsl.wellFormed, ?_, l, hl, hsl.current_eq.symm, hsl.mem_spans_iff⟩
  intro a t ht
  exact (Selection.mem_spans_add_of_length_eq_one ht).1

/-- A copy of a normalized selection, with additions new and old and a refused resize. -/
theorem Session.invariant_of_copied_run :
    ∃ w replies s,
      run? Workspace.empty
          [.create "a" (.empty 10), .edit "a" (.add (.point 3)), .edit "a" .normalize,
            .copy "b" "a", .edit "b" (.add (.span 5 6)), .edit "b" (.add (.all "a")),
            .edit "b" (.resize 20)] = some (w, replies) ∧
        w.get? "b" = some s ∧ s.WellFormed := by
  have hrun : (run? Workspace.empty
      [.create "a" (.empty 10), .edit "a" (.add (.point 3)), .edit "a" .normalize,
        .copy "b" "a", .edit "b" (.add (.span 5 6)), .edit "b" (.add (.all "a")),
        .edit "b" (.resize 20)]).any (fun p => (p.1.get? "b").isSome) = true := by
    decide +kernel
  obtain ⟨⟨w, replies⟩, h, hb⟩ := (Option.any_eq_true _ _).1 hrun
  obtain ⟨s, hs⟩ := Option.isSome_iff_exists.1 hb
  exact ⟨w, replies, s, h, hs, (invariant_of_run? h hs).1⟩

/-! ### Chronicles -/

/-- **A selection with the additions that were made to it.** -/
structure Chronicle where
  /-- The selection as it is. -/
  current : Selection
  /-- The additions since the last normalization, or since the beginning if that is later, each with
  the selection to which it was made; the latest comes first. -/
  additions : List (Selection × Addition Selection)

namespace Chronicle

/-- Nothing was added before the beginning. -/
def ofSeed (x : Seed) : Chronicle := ⟨x.selection, []⟩

/-- Additions are written down, and normalization starts a new chronicle. -/
def edit (c : Chronicle) : Edit Chronicle → Chronicle
  | .add a =>
      ⟨(c.current.add (a.map current)).1, (c.current, a.map current) :: c.additions⟩
  | .resize size => { c with current := (c.current.edit (.resize size)).selection }
  | .normalize => ⟨c.current.normalize, []⟩

/-- Sessions, read with the chronicle of every selection. -/
def reading : Reading Chronicle := ⟨ofSeed, edit⟩

/-- **One of the additions changed a container.** -/
def Grew (c : Chronicle) : Prop :=
  ∃ p ∈ c.additions, ¬ (p.1.add p.2).1.SameEntries p.1

theorem not_grew_of_nil {c : Chronicle} (h : c.additions = []) : ¬ c.Grew := by
  simp [Grew, h]

/-- An addition that is written down adds its own change to those before it. -/
theorem grew_edit_add {c : Chronicle} {a : Addition Chronicle} :
    (c.edit (.add a)).Grew ↔
      ¬ (c.current.add (a.map current)).1.SameEntries c.current ∨ c.Grew := by
  simp only [Grew, edit, List.mem_cons, exists_eq_or_imp]

/-! ### The mark -/

/-- The chronicle is that of the well-formed selection `s`, and agrees with its mark. -/
structure Explains (s : Selection) (c : Chronicle) : Prop where
  current_eq : s = c.current
  wellFormed : s.WellFormed
  normal_iff : s.normal = false ↔ c.Grew

theorem explains_seed (x : Seed) : (ofSeed x).Explains x.selection := by
  refine ⟨rfl, (Selection.Reachable.seed x).wellFormed, ?_⟩
  have hmark : x.selection.normal = true := by cases x <;> rfl
  simp [hmark, not_grew_of_nil (c := ofSeed x) rfl]

theorem Explains.edit {s : Selection} {c : Chronicle} (h : Explains s c) {e : Edit Selection}
    {d : Edit Chronicle} (hed : e.Rel Explains d) : Explains (s.edit e).selection (c.edit d) := by
  have hwf : (s.edit e).selection.WellFormed :=
    h.wellFormed.edit (hed.forall_mem_refs fun _ _ htc => htc.wellFormed)
  obtain rfl := h.current_eq
  cases hed with
  | add hab =>
      obtain rfl := hab.eq_map fun _ _ h => h.current_eq
      refine ⟨rfl, hwf, ?_⟩
      -- the mark is lost by this addition, or was lost by one before it
      rw [grew_edit_add, ← h.normal_iff, ← Bool.not_eq_true, ← Bool.not_eq_true]
      exact (not_congr Selection.normal_add_iff).trans (not_and_or.trans or_comm)
  | resize size =>
      refine ⟨rfl, hwf, ?_⟩
      rw [Selection.normal_edit_resize]
      exact h.normal_iff
  | normalize =>
      refine ⟨rfl, hwf, ?_⟩
      have hmark : (c.current.edit .normalize).selection.normal = true :=
        c.current.normalize_normal
      simp [hmark, not_grew_of_nil (c := c.edit .normalize) rfl]

/-- **The mark is missing exactly if a container was changed**, in every session. -/
theorem simulates : Selection.reading.Simulates reading Explains where
  seed := explains_seed
  edit := fun h hed => h.edit hed

end Chronicle

/-! ### The log -/

/-- **What a step has to report**: what the change does, if it is one. -/
noncomputable def Step.notes (w : Workspace) : Step → List Event
  | edit name change =>
      ((w.get? name).bind fun s => (change.resolve? w.get?).map s.notes).getD []
  | _ => []

/-- **What the steps of a session have to report**, step by step. -/
noncomputable def Session.notes (w : Workspace) : List Step → List (List Event)
  | [] => []
  | step :: steps => step.notes w :: (step.run? w).elim [] fun p => notes p.1 steps

variable {w w' : Workspace} {step : Step} {steps : List Step}

/-- **Every step reports what it has to.** -/
theorem Step.events_of_run? {reply : Reply} (hw : w.Reachable)
    (h : step.run? w = some (w', reply)) : reply.events = step.notes w := by
  cases step with
  | create name seed =>
      obtain ⟨rfl, rfl⟩ := Prod.mk.inj (Option.some.inj h)
      rfl
  | copy name source =>
      obtain ⟨s, hs, hput⟩ := Option.map_eq_some_iff.1 h
      obtain ⟨rfl, rfl⟩ := Prod.mk.inj hput
      rfl
  | edit name e =>
      obtain ⟨s, hs, h⟩ := Option.bind_eq_some_iff.1 h
      obtain ⟨change, hchange, h⟩ := Option.bind_eq_some_iff.1 h
      obtain ⟨rfl, rfl⟩ := Prod.mk.inj (Option.some.inj h)
      simp only [notes, hs, hchange, Option.bind_some, Option.map_some, Option.getD_some]
      exact (hw name s hs).wellFormed.edit_events change
  | compare left right =>
      obtain ⟨s, hs, h⟩ := Option.bind_eq_some_iff.1 h
      obtain ⟨t, ht, h⟩ := Option.bind_eq_some_iff.1 h
      obtain ⟨rfl, rfl⟩ := Prod.mk.inj (Option.some.inj h)
      rfl
  | ask name question =>
      obtain ⟨s, hs, h⟩ := Option.bind_eq_some_iff.1 h
      obtain ⟨rfl, rfl⟩ := Prod.mk.inj (Option.some.inj h)
      rfl

/-- **So do the steps of a session**, one after the other. -/
theorem Session.events_of_run? {replies : List Reply} (hw : w.Reachable)
    (h : run? w steps = some (w', replies)) : replies.map Reply.events = notes w steps := by
  -- induction along the steps: each of them leaves a workspace in which the next is carried out
  induction steps generalizing w replies with
  | nil =>
      obtain ⟨rfl, rfl⟩ := Prod.mk.inj (Option.some.inj h)
      rfl
  | cons step steps ih =>
      obtain ⟨v, reply, rest, hstep, hrest, rfl⟩ := run?_cons_eq_some_iff.1 h
      rw [List.map_cons, notes, hstep, Option.elim_some, Step.events_of_run? hw hstep,
        ih (Step.reachable_of_run? hw hstep) hrest]

/-- The notes of a step are regular. -/
theorem Step.regular_of_mem_notes (hw : w.Reachable) {e : Event} (he : e ∈ step.notes w) :
    e.Regular := by
  cases step with
  | create | copy | compare | ask => simp [notes] at he
  | edit name change =>
      cases hs : w.get? name with
      | none => simp [notes, hs] at he
      | some s =>
          cases hc : change.resolve? w.get? with
          | none => simp [notes, hs, hc] at he
          | some c =>
              simp only [notes, hs, hc, Option.bind_some, Option.map_some, Option.getD_some] at he
              exact (hw name s hs).wellFormed.regular_of_mem_notes he

/-- All notes in the log of a session are regular. -/
theorem Session.regular_of_mem_log {replies : List Reply} (hw : w.Reachable)
    (h : run? w steps = some (w', replies)) {e : Event} (he : e ∈ log replies) : e.Regular := by
  induction steps generalizing w replies with
  | nil =>
      obtain ⟨rfl, rfl⟩ := Prod.mk.inj (Option.some.inj h)
      simp [log] at he
  | cons step steps ih =>
      obtain ⟨v, reply, rest, hstep, hrest, rfl⟩ := run?_cons_eq_some_iff.1 h
      rcases List.mem_append.1 he with hfirst | hlater
      · rw [Step.events_of_run? hw hstep] at hfirst
        exact Step.regular_of_mem_notes hw hfirst
      · exact ih (Step.reachable_of_run? hw hstep) hrest hlater

/-! ### Marks and log -/

/-- What a reading with chronicles has under a name. -/
def Session.chronicle? (steps : List Step) (name : String) : Option Chronicle :=
  under? Chronicle.reading steps name

/-- **Marks and log follow the past exactly.**  A selection is without its mark if and only if one
of the additions since its last normalization or its beginning changed a container.  An addition
that brings in a new element takes the mark away, and one that leaves both containers as they are
leaves it.  Each step reports what the change in it has to, and nothing else is reported; the log is
made up of these notes in the order of the steps.  A note on normalization has at least one run and
no more runs than entries. -/
theorem Session.marks_and_log_of_run? {replies : List Reply}
    (h : run? Workspace.empty steps = some (w, replies)) :
    (∀ name s, w.get? name = some s →
      (∃ c, chronicle? steps name = some c ∧ c.current = s ∧ (s.normal = false ↔ c.Grew)) ∧
        ∀ a : Addition Selection, (∀ t ∈ a.refs, t.Reachable) →
          (∀ i, s.contains i = false → (s.add a).1.contains i = true →
            (s.add a).1.normal = false) ∧
          ((s.add a).1.SameEntries s → (s.add a).1.normal = s.normal)) ∧
      replies.map Reply.events = notes Workspace.empty steps ∧
      log replies = (notes Workspace.empty steps).flatten ∧
      ∀ e ∈ log replies, e.Regular := by
  have hempty := Workspace.reachable_empty
  have hevents := events_of_run? hempty h
  refine ⟨fun name s hs => ⟨?_, fun a ha => ⟨?_, ?_⟩⟩, hevents, ?_, ?_⟩
  · obtain ⟨c, hc, hsc⟩ := exists_under? Chronicle.simulates h hs
    exact ⟨c, hc, hsc.current_eq.symm, hsc.normal_iff⟩
  · intro i hold hnew
    have hwf := (reachable_of_run? hempty h name s hs).wellFormed
    exact hwf.normal_add_of_new (fun t ht => (ha t ht).wellFormed) hold hnew
  · intro hsame
    rw [Selection.add_eq_self_of_sameEntries hsame]
  · rw [← hevents, log, List.flatMap_def]
  · intro e he
    exact regular_of_mem_log hempty h he

/-- A session with an index that is added again after normalization, to a copy, and once more. -/
def Session.repeatedSteps : List Step :=
  [.create "a" (.empty 10), .edit "a" (.add (.points [3, 5, 12])), .edit "a" .normalize,
    .copy "b" "a", .edit "b" (.add (.point 3)), .edit "b" (.add (.point 3)),
    .edit "a" (.resize 20), .edit "a" .normalize]

/-- The index is stored as a span of its own, and in the copy among the single indices as well, so
that the copy has lost its mark.  The log tells of one normalization and of the resize that was
refused. -/
theorem Session.marks_and_log_of_repeatedSteps :
    ∃ w replies s,
      run? Workspace.empty repeatedSteps = some (w, replies) ∧ w.get? "b" = some s ∧
        s.normal = false ∧ (∃ c, chronicle? repeatedSteps "b" = some c ∧ c.Grew) ∧
        log replies = [.normalized 0 2 2, .rejectedResize 10 20] := by
  have hrun : (run? Workspace.empty repeatedSteps).any (fun p =>
      (p.1.get? "b").any (fun s => !s.normal) &&
        decide (log p.2 = [.normalized 0 2 2, .rejectedResize 10 20])) = true := by
    decide +kernel
  obtain ⟨⟨w, replies⟩, h, hboth⟩ := (Option.any_eq_true _ _).1 hrun
  rw [Bool.and_eq_true, decide_eq_true_iff] at hboth
  obtain ⟨s, hs, hmark⟩ := (Option.any_eq_true _ _).1 hboth.1
  have hnormal : s.normal = false := by simpa using hmark
  obtain ⟨c, hc, -, hgrew⟩ := ((marks_and_log_of_run? h).1 "b" s hs).1
  exact ⟨w, replies, s, h, hs, hnormal, ⟨c, hc, hgrew.1 hnormal⟩, hboth.2⟩

end IndexSpace
