/-
**Changes that correspond to each other.**

Two changes correspond when they are of the same kind, have the same indices, bounds and sizes, and
refer to things that are related.  What the references are, and how they are related, is left open:
names and the selections under them, selections and the sets that they stand for, or two selections
that hold the same elements.

Main definitions:

* `IndexSpace.Addition.Rel`, `IndexSpace.Edit.Rel` — additions and changes whose references are
  related;
* `IndexSpace.Addition.map` — an addition with every reference replaced.

Main results:

* `IndexSpace.Edit.rel_resolve?` — following related names leads to corresponding changes;
* `IndexSpace.Edit.Rel.forall_mem_refs` — what the relation tells of its left side is true of every
  reference.
-/

import IndexSpace.Selection.Edit

set_option relaxedAutoImplicit false
set_option autoImplicit false

namespace IndexSpace

variable {σ τ κ : Type} {R : σ → τ → Prop}

/-- The same addition, but for references that are related. -/
inductive Addition.Rel (R : σ → τ → Prop) : Addition σ → Addition τ → Prop
  | point (i : UInt32) : Rel R (.point i) (.point i)
  | span (lo hi : UInt32) : Rel R (.span lo hi) (.span lo hi)
  | points (is : List UInt32) : Rel R (.points is) (.points is)
  | all {s : σ} {t : τ} : R s t → Rel R (.all s) (.all t)

/-- The same change, but for references that are related. -/
inductive Edit.Rel (R : σ → τ → Prop) : Edit σ → Edit τ → Prop
  | add {a : Addition σ} {b : Addition τ} : a.Rel R b → Rel R (.add a) (.add b)
  | resize (size : UInt32) : Rel R (.resize size) (.resize size)
  | normalize : Rel R .normalize .normalize

theorem Addition.Rel.forall_mem_refs {P : σ → Prop} (hP : ∀ s t, R s t → P s) {a : Addition σ}
    {b : Addition τ} (h : a.Rel R b) : ∀ s ∈ a.refs, P s := by
  cases h with
  | point | span | points => simp [refs]
  | all hst => simpa [refs] using hP _ _ hst

/-- What the relation tells of its left side is true of every reference on the left. -/
theorem Edit.Rel.forall_mem_refs {P : σ → Prop} (hP : ∀ s t, R s t → P s) {c : Edit σ}
    {d : Edit τ} (h : c.Rel R d) : ∀ s ∈ c.refs, P s := by
  cases h with
  | add hab => exact hab.forall_mem_refs hP
  | resize | normalize => simp [refs]

/-- The addition with every reference replaced. -/
def Addition.map (f : τ → σ) : Addition τ → Addition σ
  | .point i => .point i
  | .span lo hi => .span lo hi
  | .points is => .points is
  | .all t => .all (f t)

/-- Where the references of the one determine those of the other, they make one of it the other. -/
theorem Addition.Rel.eq_map {f : τ → σ} (hf : ∀ s t, R s t → s = f t) {a : Addition σ}
    {b : Addition τ} (h : a.Rel R b) : a = b.map f := by
  cases h with
  | point | span | points => rfl
  | all hst => exact congrArg Addition.all (hf _ _ hst)

/-! ### Following references -/

theorem rel_map {α β : Type} {f : σ → α} {g : τ → β} {Q : α → β → Prop}
    (h : ∀ s t, R s t → Q (f s) (g t)) {a : Option σ} {b : Option τ} (hab : a.Rel R b) :
    (a.map f).Rel Q (b.map g) := by
  cases hab with
  | none => exact .none
  | some hst => exact .some (h _ _ hst)

theorem rel_bind {α β : Type} {f : σ → Option α} {g : τ → Option β} {Q : α → β → Prop}
    (h : ∀ s t, R s t → (f s).Rel Q (g t)) {a : Option σ} {b : Option τ} (hab : a.Rel R b) :
    (a.bind f).Rel Q (b.bind g) := by
  cases hab with
  | none => exact .none
  | some hst => exact h _ _ hst

theorem exists_of_some_rel {s : σ} {b : Option τ} (h : (some s).Rel R b) :
    ∃ t, b = some t ∧ R s t := by
  cases h with
  | some hst => exact ⟨_, rfl, hst⟩

/-- Where the one thing determines the other, related options do so too. -/
theorem map_eq_of_rel {f : σ → τ} (h : ∀ s t, R s t → f s = t) {a : Option σ} {b : Option τ}
    (hab : a.Rel R b) : a.map f = b := by
  cases hab with
  | none => rfl
  | some hst => exact congrArg some (h _ _ hst)

theorem Addition.rel_resolve? {f : κ → Option σ} {g : κ → Option τ}
    (h : ∀ name, (f name).Rel R (g name)) (a : Addition κ) :
    (a.resolve? f).Rel (Rel R) (a.resolve? g) := by
  cases a with
  | point i => exact .some (.point i)
  | span lo hi => exact .some (.span lo hi)
  | points is => exact .some (.points is)
  | all name => exact rel_map (fun _ _ => Rel.all) (h name)

/-- **Following related names leads to corresponding changes**, or leads nowhere on both sides. -/
theorem Edit.rel_resolve? {f : κ → Option σ} {g : κ → Option τ}
    (h : ∀ name, (f name).Rel R (g name)) (c : Edit κ) :
    (c.resolve? f).Rel (Rel R) (c.resolve? g) := by
  cases c with
  | add a => exact rel_map (fun _ _ => Rel.add) (Addition.rel_resolve? h a)
  | resize size => exact .some (.resize size)
  | normalize => exact .some .normalize

end IndexSpace
