/-
**Changes to a selection.**

Indices are added one by one, as a span between two bounds, as a list, or as all elements of another
selection.  Whatever lies outside the index space is refused.  Elements are never taken away again,
and once there are any, the size of the space stays as it is.  Normalization replaces overlapping
and touching entries, spans and single indices alike, by the runs that they make up; a run of one
index is stored as a span too, so that no single indices are left, and a stored form that carries
the mark is left as it is.

Two changes leave a note for whoever follows the log: a resize that is refused, and normalization
that had work to do.

Every change is also a value of its own, so that sequences of changes can be written down, reordered
and compared.  A change that brings in the elements of another selection refers to it in a way that
is left open: by a name while the change is only written down, by the selection itself when it is
carried out.  The stored form of a selection is not arbitrary: it grows from an empty or a complete
one by changes that refer to selections which grew in the same way.  What holds at the beginning and
is kept by every change holds of all of them.

Main definitions:

* `IndexSpace.Refusal`, `IndexSpace.Refusal.message`, `IndexSpace.Refusal.dump` — why a change is
  refused, the sentence that tells a user about it, and the written form that names the fields;
* `IndexSpace.Event`, `IndexSpace.Event.level`, `IndexSpace.Event.text` — what is reported, how
  weighty it is, and its wording;
* `IndexSpace.Selection.addPoint`, `IndexSpace.Selection.addSpan`, `IndexSpace.Selection.addAll` —
  an index, the indices between two bounds, and the elements of another selection; each adds all or
  nothing;
* `IndexSpace.Selection.addPoints`, `IndexSpace.Selection.Intake` — a list of indices, taken one
  after the other up to the first that is refused;
* `IndexSpace.Selection.resize`, `IndexSpace.Selection.resizeEvents` — another size for the space
  of a selection without elements, and what is reported when there are some;
* `IndexSpace.Selection.normalize`, `IndexSpace.Selection.normalizeEvents` — the selection with its
  runs as stored spans, and what is reported if there was work to do;
* `IndexSpace.Seed`, `IndexSpace.Addition`, `IndexSpace.Edit` — how a selection begins, the ways to
  add indices, and all changes;
* `IndexSpace.Edit.resolve?`, `IndexSpace.Edit.refs` — replacing names by what they stand for, and
  the names to be replaced;
* `IndexSpace.Verdict`, `IndexSpace.Outcome` — how a change was answered; the selection after it,
  the answer, and what was reported;
* `IndexSpace.Selection.add`, `IndexSpace.Selection.edit` — **carrying out** an addition and a
  change;
* `IndexSpace.Selection.addEach`, `IndexSpace.refusals` — additions in order, none stopping the
  others, and the refused ones by position;
* `IndexSpace.Selection.Reachable` — **the selections that changes can lead to**.

Main results:

* `IndexSpace.Selection.addPoints_cons` — indices are added one after the other;
* `IndexSpace.Selection.normalize_normalize`, `IndexSpace.Selection.normalizeEvents_normalize` —
  normalizing a second time changes nothing, and is not reported;
* `IndexSpace.Selection.edit_resize_of_isEmpty`, `IndexSpace.Selection.edit_resize_of_not_isEmpty` —
  the two outcomes of a resize;
* `IndexSpace.Selection.Reachable.add`, `IndexSpace.Selection.Reachable.normalize` — closure under
  additions and normalization.
-/

import IndexSpace.Selection.Question

set_option relaxedAutoImplicit false
set_option autoImplicit false

namespace IndexSpace

/-! ### Refusals -/

/-- **The causes of a refusal.** -/
inductive Refusal where
  /-- The index space of a selection with elements was to change its size; `size` is its present
  one. -/
  | occupied (size : UInt32)
  /-- The bound or index `index` lies outside an index space of `size` indices. -/
  | outside (index size : UInt32)
  /-- The bounds of a span are in the wrong order. -/
  | reversed (lo hi : UInt32)
deriving DecidableEq, Repr

namespace Refusal

/-- The sentence that tells a user about a refusal. -/
def message : Refusal → String
  | occupied size =>
      "cannot change the size of a non-empty index set (current size: " ++ Text.decimal size ++ ")"
  | outside index size =>
      "index " ++ Text.decimal index ++ " is out of range for an index set of size " ++
        Text.decimal size
  | reversed lo hi =>
      "invalid range [" ++ Text.decimal lo ++ ", " ++ Text.decimal hi ++
        "): begin is greater than end"

/-- The written form that names the cause and its fields. -/
def dump : Refusal → String
  | occupied size => Text.record "InvalidState" [("size", Text.decimal size)]
  | outside index size =>
      Text.record "OutOfRange" [("index", Text.decimal index), ("size", Text.decimal size)]
  | reversed lo hi =>
      Text.record "InvalidArgument" [("begin", Text.decimal lo), ("end", Text.decimal hi)]

end Refusal

/-! ### Reports -/

/-- The weight of a note in the log. -/
inductive Level where
  /-- Of use when looking for a mistake. -/
  | debug
  /-- The course of the work, step by step. -/
  | trace
deriving DecidableEq, Repr

/-- The word for a level at the head of a line of the log. -/
def Level.label : Level → String
  | debug => "DEBUG"
  | trace => "TRACE"

/-- **A note in the log.** -/
inductive Event where
  /-- A selection with elements, over `size` indices, was to be resized to `requested`. -/
  | rejectedResize (size requested : UInt32)
  /-- `spans` stored spans and `points` stored indices were replaced by `runs` runs. -/
  | normalized (spans points runs : Nat)
deriving DecidableEq, Repr

namespace Event

/-- A refused request may be a mistake of the caller; normalization is ordinary work. -/
def level : Event → Level
  | rejectedResize .. => .debug
  | normalized .. => .trace

/-- The wording of a note. -/
def text : Event → String
  | rejectedResize size requested =>
      "Rejected resize of a populated index set from " ++ Text.decimal size ++ " to " ++
        Text.decimal requested
  | normalized spans points runs =>
      "Compressed index set: " ++ spans.repr ++ " ranges and " ++ points.repr ++
        " indices into " ++ runs.repr ++ " ranges"

end Event

namespace Selection

/-! ### Adding all or nothing -/

/-- **Adds a single index.** -/
def addPoint (s : Selection) (i : UInt32) : Except Refusal Selection :=
  if i < s.size then .ok (s.storePoint i) else .error (.outside i s.size)

/-- **Adds the indices from `lo` up to and not including `hi`.**  Equal bounds add nothing, wherever
they are.  A lower bound outside the space is refused before an upper one, and either of them
before bounds in the wrong order. -/
def addSpan (s : Selection) (lo hi : UInt32) : Except Refusal Selection :=
  if lo = hi then .ok s
  else if s.size ≤ lo then .error (.outside lo s.size)
  else if s.size < hi then .error (.outside hi s.size)
  else if hi < lo then .error (.reversed lo hi)
  else .ok (s.store ⟨lo, hi⟩)

/-- **Adds the elements of `t`**, run by run.  If some of them lie outside the space, the greatest
of them is named and nothing is added. -/
def addAll (s t : Selection) : Except Refusal Selection :=
  match t.last?.filter (s.size ≤ ·) with
  | some i => .error (.outside i s.size)
  | none => .ok (t.runs.foldl store s)

/-! ### Adding one after the other -/

/-- What has become of a list of indices that was to be added. -/
structure Intake where
  /-- The selection with the indices before the first refused one. -/
  selection : Selection
  /-- How many indices were looked at, a refused one included. -/
  taken : Nat
  /-- Why an index was refused, if one was. -/
  refusal : Option Refusal
deriving DecidableEq

/-- **Adds indices one after the other**, up to the first that is refused. -/
def addPoints (s : Selection) : List UInt32 → Intake
  | [] => ⟨s, 0, none⟩
  | i :: is =>
      match s.addPoint i with
      | .error e => ⟨s, 1, some e⟩
      | .ok t =>
          let rest := addPoints t is
          { rest with taken := rest.taken + 1 }

@[simp] theorem addPoints_nil (s : Selection) : s.addPoints [] = ⟨s, 0, none⟩ := rfl

theorem addPoints_cons (s : Selection) (i : UInt32) (is : List UInt32) :
    s.addPoints (i :: is) =
      if i < s.size then
        { (s.storePoint i).addPoints is with
          taken := ((s.storePoint i).addPoints is).taken + 1 }
      else
        ⟨s, 1, some (.outside i s.size)⟩ := by
  by_cases h : i < s.size <;> simp [addPoints, addPoint, h]

/-! ### Size of the space -/

/-- **Gives the space another size**, if there are no elements yet. -/
def resize (s : Selection) (size : UInt32) : Except Refusal Selection :=
  if s.isEmpty then .ok { s with size } else .error (.occupied s.size)

/-- What a resize reports: the sizes, if it is refused. -/
def resizeEvents (s : Selection) (size : UInt32) : List Event :=
  if s.isEmpty then [] else [.rejectedResize s.size size]

/-! ### Normal form -/

/-- **The selection with its runs as stored spans.** -/
def normalize (s : Selection) : Selection :=
  if s.normal then s else ⟨s.size, .ofList s.runs, ∅, true⟩

/-- What normalization reports: the numbers of entries before and of spans after it, if the stored
form did not carry the mark. -/
def normalizeEvents (s : Selection) : List Event :=
  if s.normal then [] else [.normalized s.spans.size s.points.size s.normalize.spans.size]

@[simp] theorem normalize_size (s : Selection) : s.normalize.size = s.size := by
  unfold normalize
  split <;> rfl

@[simp] theorem normalize_normal (s : Selection) : s.normalize.normal = true := by
  unfold normalize
  split <;> simp_all

/-- A marked stored form is left as it is. -/
theorem normalize_of_normal {s : Selection} (h : s.normal = true) : s.normalize = s := by
  simp [normalize, h]

/-- Normalizing a second time changes nothing. -/
@[simp] theorem normalize_normalize (s : Selection) : s.normalize.normalize = s.normalize :=
  normalize_of_normal s.normalize_normal

/-- Normalizing a second time is not reported. -/
@[simp] theorem normalizeEvents_normalize (s : Selection) :
    s.normalize.normalizeEvents = [] := by
  simp [normalizeEvents]

end Selection

/-! ### Beginnings -/

/-- How a selection begins. -/
inductive Seed where
  /-- With no index of a space of `size` indices. -/
  | empty (size : UInt32)
  /-- With every index of a space of `size` indices. -/
  | complete (size : UInt32)
deriving DecidableEq, Repr

/-- The selection that a seed stands for. -/
def Seed.selection : Seed → Selection
  | empty size => .empty size
  | complete size => .complete size

/-! ### Changes -/

/-- **A way to add indices.**  Other selections are referred to by values of `σ`. -/
inductive Addition (σ : Type) where
  /-- A single index. -/
  | point (i : UInt32)
  /-- The indices between two bounds. -/
  | span (lo hi : UInt32)
  /-- A list of indices, one after the other. -/
  | points (is : List UInt32)
  /-- The elements of another selection. -/
  | all (other : σ)
deriving DecidableEq, Repr

/-- **A change to a selection.** -/
inductive Edit (σ : Type) where
  /-- Adding indices. -/
  | add (a : Addition σ)
  /-- Giving the space another size. -/
  | resize (size : UInt32)
  /-- Bringing the stored form into normal form. -/
  | normalize
deriving DecidableEq, Repr

/-- The addition with the reference to another selection followed, if it leads anywhere. -/
def Addition.resolve? {σ τ : Type} (find : σ → Option τ) : Addition σ → Option (Addition τ)
  | .point i => some (.point i)
  | .span lo hi => some (.span lo hi)
  | .points is => some (.points is)
  | .all other => (find other).map .all

/-- The change with the reference to another selection followed, if it leads anywhere. -/
def Edit.resolve? {σ τ : Type} (find : σ → Option τ) : Edit σ → Option (Edit τ)
  | .add a => (a.resolve? find).map .add
  | .resize size => some (.resize size)
  | .normalize => some .normalize

/-- The other selections that an addition refers to. -/
def Addition.refs {σ : Type} : Addition σ → List σ
  | .all other => [other]
  | _ => []

/-- The other selections that a change refers to. -/
def Edit.refs {σ : Type} : Edit σ → List σ
  | .add a => a.refs
  | _ => []

/-! ### Outcomes -/

/-- **How a change was answered.** -/
inductive Verdict where
  /-- The change was made, or refused as a whole. -/
  | whole (refusal : Option Refusal)
  /-- Of a list of indices, `taken` were looked at, up to the first refused one. -/
  | intake (taken : Nat) (refusal : Option Refusal)
deriving DecidableEq, Repr

/-- Why a change, or a part of it, was refused. -/
def Verdict.refusal : Verdict → Option Refusal
  | whole r => r
  | intake _ r => r

/-- What has become of a change. -/
structure Outcome where
  /-- The selection after the change. -/
  selection : Selection
  /-- How the change was answered. -/
  verdict : Verdict
  /-- What was reported. -/
  events : List Event
deriving DecidableEq

namespace Selection

/-- The selection after an attempt at changing `s`, and the answer: a refused attempt leaves `s` as
it is. -/
def attempt (s : Selection) : Except Refusal Selection → Selection × Verdict
  | .ok t => (t, .whole none)
  | .error e => (s, .whole (some e))

@[simp] theorem attempt_ok (s t : Selection) : s.attempt (.ok t) = (t, .whole none) := rfl

@[simp] theorem attempt_error (s : Selection) (e : Refusal) :
    s.attempt (.error e) = (s, .whole (some e)) := rfl

/-- **Carries out an addition.** -/
def add (s : Selection) : Addition Selection → Selection × Verdict
  | .point i => s.attempt (s.addPoint i)
  | .span lo hi => s.attempt (s.addSpan lo hi)
  | .points is =>
      let intake := s.addPoints is
      (intake.selection, .intake intake.taken intake.refusal)
  | .all t => s.attempt (s.addAll t)

/-- **Carries out a change.** -/
def edit (s : Selection) : Edit Selection → Outcome
  | .add a => ⟨(s.add a).1, (s.add a).2, []⟩
  | .resize size =>
      ⟨(s.attempt (s.resize size)).1, (s.attempt (s.resize size)).2, s.resizeEvents size⟩
  | .normalize => ⟨s.normalize, .whole none, s.normalizeEvents⟩

/-- A resize of a selection without elements is made. -/
theorem edit_resize_of_isEmpty {s : Selection} (h : s.isEmpty = true) (size : UInt32) :
    s.edit (.resize size) = ⟨{ s with size }, .whole none, []⟩ := by
  rw [edit, resize, resizeEvents, if_pos h, if_pos h, attempt_ok]

/-- Any other resize is refused with the present size, and reported. -/
theorem edit_resize_of_not_isEmpty {s : Selection} (h : s.isEmpty = false) (size : UInt32) :
    s.edit (.resize size) =
      ⟨s, .whole (some (.occupied s.size)), [.rejectedResize s.size size]⟩ := by
  rw [edit, resize, resizeEvents, if_neg (Bool.eq_false_iff.1 h), if_neg (Bool.eq_false_iff.1 h),
    attempt_error]

/-! ### Many additions -/

/-- **Carries out additions in order.**  A refused one does not stop those after it. -/
def addEach (s : Selection) : List (Addition Selection) → Selection × List Verdict
  | [] => (s, [])
  | a :: as =>
      let (t, v) := s.add a
      let (u, vs) := t.addEach as
      (u, v :: vs)

@[simp] theorem addEach_cons (s : Selection) (a : Addition Selection)
    (as : List (Addition Selection)) :
    s.addEach (a :: as) =
      (((s.add a).1.addEach as).1, (s.add a).2 :: ((s.add a).1.addEach as).2) := rfl

end Selection

/-- The refused ones among answers, each with its position. -/
def refusals (vs : List Verdict) : List (Nat × Refusal) :=
  vs.zipIdx.filterMap fun (v, k) => v.refusal.map fun r => (k, r)

/-! ### Selections that changes lead to -/

namespace Selection

/-- **A selection that operations can lead to.**  Every selection whose elements were brought in has
to be such a selection as well. -/
inductive Reachable : Selection → Prop
  /-- A selection may begin with any seed. -/
  | seed (x : Seed) : Reachable x.selection
  /-- A selection may be changed in any way. -/
  | edit {s : Selection} (e : Edit Selection) :
      Reachable s → (∀ t ∈ e.refs, Reachable t) → Reachable (s.edit e).selection

namespace Reachable

theorem empty (size : UInt32) : Reachable (Selection.empty size) := .seed (.empty size)

theorem complete (size : UInt32) : Reachable (Selection.complete size) := .seed (.complete size)

theorem add {s : Selection} (h : Reachable s) {a : Addition Selection}
    (ha : ∀ t ∈ a.refs, Reachable t) : Reachable (s.add a).1 :=
  .edit (.add a) h ha

theorem normalize {s : Selection} (h : Reachable s) : Reachable s.normalize :=
  .edit .normalize h (by simp [Edit.refs])

end Reachable

end Selection

end IndexSpace
