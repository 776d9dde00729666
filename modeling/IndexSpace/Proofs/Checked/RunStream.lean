/-
**Reading a stream with every step checked.**

A stream makes spans of the indices of its feed and draws runs out.  Here each span that comes out
of the feed, and each run after it was drawn out, has to be proper and to end within the space that
the stream was taken from, and each index has to have a successor.  If all entries of a stream are
within a space, so are all its runs, and the checks find no fault on the way.

Main definitions:

* `IndexSpace.Feed.Within`, `IndexSpace.RunStream.Within` — all entries are within a space;
* `IndexSpace.Checked.pop`, `IndexSpace.Checked.absorb`, `IndexSpace.Checked.next` — **one entry and
  one run at a time**;
* `IndexSpace.Checked.toList`, `IndexSpace.Checked.nth`, `IndexSpace.Checked.streamsAgree` — many
  runs.

Main results:

* `IndexSpace.RunStream.Within.next?` — one step of a stream keeps to the space;
* `IndexSpace.Checked.absorb_sound`, `IndexSpace.Checked.next_sound` — what goes through is the
  plain result;
* `IndexSpace.Checked.toList_eq_ok`, `IndexSpace.Checked.nth_eq_ok`,
  `IndexSpace.Checked.streamsAgree_eq_ok` — **a stream within a space is read without a fault**.
-/

import IndexSpace.Proofs.RunStream.Merging
import IndexSpace.Proofs.Checked.Span

set_option relaxedAutoImplicit false
set_option autoImplicit false

namespace IndexSpace

/-! ### Streams within a space -/

/-- All entries of a feed are within a space of `size` indices. -/
structure Feed.Within (f : Feed) (size : UInt32) : Prop where
  spans_within : ∀ t ∈ f.spans, t.Within size
  points_lt : ∀ p ∈ f.points, p < size

/-- So are all entries of a stream. -/
structure RunStream.Within (r : RunStream) (size : UInt32) : Prop where
  feed : r.feed.Within size
  pending : ∀ t ∈ r.pending, t.Within size

variable {size : UInt32}

theorem Feed.Within.pop? {f g : Feed} {s : Span} (h : f.Within size)
    (hpop : f.pop? = some (s, g)) : s.Within size ∧ g.Within size := by
  rcases pop?_cases hpop with ⟨rfl, -⟩ | ⟨p, rfl, rfl, -⟩
  · obtain ⟨hs, hspans⟩ := List.forall_mem_cons.1 h.spans_within
    exact ⟨hs, hspans, h.points_lt⟩
  · obtain ⟨hp, hpoints⟩ := List.forall_mem_cons.1 h.points_lt
    exact ⟨Span.unit_within hp, h.spans_within, hpoints⟩

namespace RunStream

theorem within_absorb {run : Span} {feed : Feed} (hrun : run.Within size)
    (hfeed : feed.Within size) :
    (absorb run feed).1.Within size ∧ (absorb run feed).2.Within size := by
  fun_induction absorb run feed with
  | case1 run feed hpop => exact ⟨hrun, hfeed, by simp⟩
  | case2 run feed s rest hpop hle ih =>
      obtain ⟨hs, hrest⟩ := hfeed.pop? hpop
      exact ih (hrun.reach hs) hrest
  | case3 run feed s rest hpop hlt =>
      obtain ⟨hs, hrest⟩ := hfeed.pop? hpop
      refine ⟨hrun, hrest, ?_⟩
      rintro _ ⟨⟩
      exact hs

/-- **One step of a stream keeps to the space.** -/
theorem Within.next? {r q : RunStream} {run : Span} (h : r.Within size)
    (hnext : r.next? = some (run, q)) : run.Within size ∧ q.Within size := by
  obtain ⟨s, rest, habs, hfrom⟩ := next?_cases hnext
  have hfirst : s.Within size ∧ rest.Within size := by
    rcases hfrom with ⟨hpend, rfl⟩ | ⟨-, hpop⟩
    · exact ⟨h.pending s hpend, h.feed⟩
    · exact h.feed.pop? hpop
  have hrun := within_absorb hfirst.1 hfirst.2
  rwa [habs] at hrun

/-- All runs of a stream within a space are within it. -/
theorem Within.of_mem_toList {r : RunStream} (h : r.Within size) :
    ∀ t ∈ r.toList, t.Within size := by
  fun_induction toList r with
  | case1 r hnext => simp
  | case2 r run q hnext ih =>
      obtain ⟨hrun, hq⟩ := h.next? hnext
      exact List.forall_mem_cons.2 ⟨hrun, ih hq⟩

/-- Streams agree as far as the lists of their runs do. -/
theorem agrees_eq_decide (r q : RunStream) : r.agrees q = decide (r.toList = q.toList) := by
  rw [Bool.eq_iff_iff, agrees_iff, decide_eq_true_iff]

end RunStream

namespace Checked

/-! ### One entry -/

/-- **The smaller of the two heads of a feed**, and the feed without it.  An index is made into a
span before it is compared, also where it is not handed out then. -/
def pop (size : UInt32) : Feed → Except Fault (Option (Span × Feed))
  | ⟨[], []⟩ => return none
  | ⟨s :: spans, []⟩ => do
      return some (← within size s, ⟨spans, []⟩)
  | ⟨[], p :: points⟩ => do
      return some (← unitWithin size p, ⟨[], points⟩)
  | ⟨s :: spans, p :: points⟩ => do
      let t ← unitWithin size p
      let s ← within size s
      if compare t s = .lt then
        return some (t, ⟨s :: spans, points⟩)
      else
        return some (s, ⟨spans, p :: points⟩)

/-- A feed within a space hands out its entries without a fault. -/
theorem pop_eq_ok {f : Feed} (h : f.Within size) : pop size f = .ok f.pop? := by
  obtain ⟨hspans, hpoints⟩ := h
  fun_cases Feed.pop? f with
  | case1 => rfl
  | case2 s spans =>
      rw [pop, within_eq_ok (hspans s List.mem_cons_self)]
      rfl
  | case3 p points =>
      rw [pop, unitWithin_eq_ok (hpoints p List.mem_cons_self)]
      rfl
  | case4 s spans p points hlt =>
      rw [pop, unitWithin_eq_ok (hpoints p List.mem_cons_self), ok_bind,
        within_eq_ok (hspans s List.mem_cons_self), ok_bind, if_pos hlt]
      rfl
  | case5 s spans p points hlt =>
      rw [pop, unitWithin_eq_ok (hpoints p List.mem_cons_self), ok_bind,
        within_eq_ok (hspans s List.mem_cons_self), ok_bind, if_neg hlt]
      rfl

/-- What a feed hands out without a fault is what it hands out. -/
theorem pop_sound {f : Feed} {r : Option (Span × Feed)} (h : pop size f = .ok r) :
    f.pop? = r := by
  fun_cases Feed.pop? f with
  | case1 => exact Except.ok.inj h
  | case2 s spans =>
      obtain ⟨t, ht, h⟩ := bind_eq_ok h
      rw [eq_of_within_eq_ok ht]
      exact Except.ok.inj h
  | case3 p points =>
      obtain ⟨t, ht, h⟩ := bind_eq_ok h
      rw [eq_of_unitWithin_eq_ok ht]
      exact Except.ok.inj h
  | case4 s spans p points hlt =>
      obtain ⟨t, ht, h⟩ := bind_eq_ok h
      obtain ⟨u, hu, h⟩ := bind_eq_ok h
      rw [← eq_of_unitWithin_eq_ok ht, ← eq_of_within_eq_ok hu, if_pos hlt] at h
      exact Except.ok.inj h
  | case5 s spans p points hlt =>
      obtain ⟨t, ht, h⟩ := bind_eq_ok h
      obtain ⟨u, hu, h⟩ := bind_eq_ok h
      rw [← eq_of_unitWithin_eq_ok ht, ← eq_of_within_eq_ok hu, if_neg hlt] at h
      exact Except.ok.inj h

/-! ### One run -/

/-- Draws `run` out over the spans of the feed that overlap or touch it. -/
def absorb (size : UInt32) (run : Span) (feed : Feed) : Except Fault (Span × RunStream) :=
  match _h : pop size feed with
  | .error e => .error e
  | .ok none => .ok (run, ⟨feed, none⟩)
  | .ok (some (s, rest)) =>
      if s.lo ≤ run.hi then do
        let run ← within size (run.reach s.hi)
        absorb size run rest
      else
        .ok (run, ⟨rest, some s⟩)
termination_by feed.size
decreasing_by
  -- what goes through is the plain result, and that takes an entry away
  have := Feed.size_pop? (pop_sound _h)
  omega

/-- A run and a feed within a space are drawn out without a fault. -/
theorem absorb_eq_ok {run : Span} {feed : Feed} (hrun : run.Within size)
    (hfeed : feed.Within size) :
    absorb size run feed = .ok (RunStream.absorb run feed) := by
  fun_induction absorb size run feed with
  | case1 run feed e hpop =>
      rw [pop_eq_ok hfeed] at hpop
      cases hpop
  | case2 run feed hpop => rw [RunStream.absorb_of_pop?_eq_none (pop_sound hpop)]
  | case3 run feed s rest hpop hle ih =>
      -- the run and the entry end within the space, and so does the longer run
      obtain ⟨hs, hrest⟩ := hfeed.pop? (pop_sound hpop)
      have hreach := hrun.reach hs
      rw [within_eq_ok hreach, ok_bind, ih _ hreach hrest,
        RunStream.absorb_of_le (pop_sound hpop) hle]
  | case4 run feed s rest hpop hlt =>
      rw [RunStream.absorb_of_lt (pop_sound hpop) (UInt32.not_le.1 hlt)]

/-- A run that is drawn out without a fault is the plain result. -/
theorem absorb_sound {run : Span} {feed : Feed} {r : Span × RunStream}
    (h : absorb size run feed = .ok r) : RunStream.absorb run feed = r := by
  fun_induction absorb size run feed with
  | case1 => cases h
  | case2 run feed hpop =>
      rw [RunStream.absorb_of_pop?_eq_none (pop_sound hpop)]
      exact Except.ok.inj h
  | case3 run feed s rest hpop hle ih =>
      obtain ⟨u, hu, h⟩ := bind_eq_ok h
      rw [RunStream.absorb_of_le (pop_sound hpop) hle, eq_of_within_eq_ok hu]
      exact ih u h
  | case4 run feed s rest hpop hlt =>
      rw [RunStream.absorb_of_lt (pop_sound hpop) (UInt32.not_le.1 hlt)]
      exact Except.ok.inj h

/-- **The next run**, and the stream after it. -/
def next (size : UInt32) (r : RunStream) : Except Fault (Option (Span × RunStream)) :=
  match r.pending with
  | some s => do
      return some (← absorb size s r.feed)
  | none => do
      match ← pop size r.feed with
      | some (s, rest) => return some (← absorb size s rest)
      | none => return none

/-- **The next run of a stream within a space is read without a fault.** -/
theorem next_eq_ok {r : RunStream} (h : r.Within size) : next size r = .ok r.next? := by
  obtain ⟨feed, _ | s⟩ := r
  · rw [next, pop_eq_ok h.feed]
    cases hpop : feed.pop? with
    | none => simp [RunStream.next?, hpop]
    | some p =>
        obtain ⟨s, rest⟩ := p
        obtain ⟨hs, hrest⟩ := h.feed.pop? hpop
        simp [RunStream.next?, hpop, absorb_eq_ok hs hrest]
  · simp [next, RunStream.next?, absorb_eq_ok (h.pending s rfl) h.feed]

/-- A run that is read without a fault is the next one. -/
theorem next_sound {r : RunStream} {p : Option (Span × RunStream)} (h : next size r = .ok p) :
    r.next? = p := by
  obtain ⟨feed, _ | s⟩ := r
  · obtain ⟨_ | ⟨s, rest⟩, hpop, h⟩ := bind_eq_ok h
    · simpa [RunStream.next?, pop_sound hpop] using h
    · obtain ⟨q, hq, h⟩ := bind_eq_ok h
      simpa [RunStream.next?, pop_sound hpop, absorb_sound hq] using h
  · obtain ⟨q, hq, h⟩ := bind_eq_ok h
    simpa [RunStream.next?, absorb_sound hq] using h

/-! ### Many runs -/

/-- **All runs left.** -/
def toList (size : UInt32) (r : RunStream) : Except Fault (List Span) :=
  match _h : next size r with
  | .error e => .error e
  | .ok none => .ok []
  | .ok (some (run, rest)) => do
      return run :: (← toList size rest)
termination_by r.remaining
decreasing_by exact RunStream.remaining_next? (next_sound _h)

/-- The run at position `k`, if there are that many. -/
def nth (size : UInt32) : Nat → RunStream → Except Fault (Option Span)
  | 0, r => do
      return (← next size r).map Prod.fst
  | k + 1, r => do
      match ← next size r with
      | some (_, rest) => nth size k rest
      | none => return none

/-- Whether two streams have the same runs, taken in step and given up at the first difference. -/
def streamsAgree (m n : UInt32) (r q : RunStream) : Except Fault Bool :=
  match _h : next m r with
  | .error e => .error e
  | .ok none => do
      return (← next n q).isNone
  | .ok (some (run, r')) => do
      match ← next n q with
      | some (run', q') => if run = run' then streamsAgree m n r' q' else return false
      | none => return false
termination_by r.remaining
decreasing_by exact RunStream.remaining_next? (next_sound _h)

/-- **All runs of a stream within a space are read without a fault.** -/
theorem toList_eq_ok {r : RunStream} (h : r.Within size) : toList size r = .ok r.toList := by
  fun_induction toList size r with
  | case1 r e hnext =>
      rw [next_eq_ok h] at hnext
      cases hnext
  | case2 r hnext => rw [RunStream.toList_of_next?_eq_none (next_sound hnext)]
  | case3 r run q hnext ih =>
      have hplain := next_sound hnext
      rw [ih (h.next? hplain).2, RunStream.toList_of_next?_eq_some hplain]
      rfl

theorem nth_eq_ok {k : Nat} {r : RunStream} (h : r.Within size) :
    nth size k r = .ok (RunStream.nth? k r) := by
  induction k generalizing r with
  | zero => simp [nth, RunStream.nth?, next_eq_ok h]
  | succ k ih =>
      rw [nth, next_eq_ok h]
      cases hnext : r.next? with
      | none => simp [RunStream.nth?, hnext]
      | some p =>
          obtain ⟨run, q⟩ := p
          simp [RunStream.nth?, hnext, ih (h.next? hnext).2]

/-- **Streams within spaces are compared without a fault.** -/
theorem streamsAgree_eq_ok {m n : UInt32} {r q : RunStream} (hr : r.Within m)
    (hq : q.Within n) : streamsAgree m n r q = .ok (r.agrees q) := by
  rw [RunStream.agrees_eq_decide]
  -- induction along the first stream; the second one is asked in step with it
  fun_induction streamsAgree m n r q with
  | case1 r q e hrnext =>
      rw [next_eq_ok hr] at hrnext
      cases hrnext
  | case2 r q hrnext =>
      rw [next_eq_ok hq, RunStream.toList_of_next?_eq_none (next_sound hrnext)]
      cases hqnext : q.next? with
      | none => simp [RunStream.toList_of_next?_eq_none hqnext]
      | some p => simp [RunStream.toList_of_next?_eq_some hqnext]
  | case3 r q run r' hrnext ih =>
      have hr' := (hr.next? (next_sound hrnext)).2
      rw [next_eq_ok hq, RunStream.toList_of_next?_eq_some (next_sound hrnext)]
      cases hqnext : q.next? with
      | none => simp [RunStream.toList_of_next?_eq_none hqnext]
      | some p =>
          obtain ⟨run', q'⟩ := p
          have hq' := (hq.next? hqnext).2
          by_cases hrun : run = run' <;>
            simp [RunStream.toList_of_next?_eq_some hqnext, hrun, ih q' hr' hq']

end Checked

end IndexSpace
