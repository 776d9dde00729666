/-
**Written forms that can be read back.**

A written form is of use in a longer text only if a reader can tell where it ends.  Numbers end
where there are no more digits; what is put between braces ends with its brace, if the reader can
tell the items in it from one another and from the brace.  To see that nothing is lost in a text, it
need not be read: it is enough that two texts which begin with such a form and are equal begin with
the same form of the same thing, and go on in the same way.  So a composite form is taken apart from
left to right, one piece at a time.

A reader takes what it can read off the beginning of a text and leaves the rest.  A number is all
the digits that the text begins with, so it is read back from its written form whenever no digit
comes after it.  A fixed word is read if the text begins with it.  Neither leaves more than there
was, and a number leaves less, so that readers made of these two can go on with what is left.

Main definitions:

* `IndexSpace.Text.Ends` — a text that may follow a number;
* `IndexSpace.Text.Readable` — **a written form that can be read off the beginning of a text**;
* `IndexSpace.Text.Opens` — a text that cannot be taken for a closing brace;
* `IndexSpace.Text.number?`, `IndexSpace.Text.skip?` — the number at the beginning of a text, and
  the text after a word that it has to begin with.

Main results:

* `IndexSpace.Text.readable_decimal` — numbers can be read back;
* `IndexSpace.Text.Readable.braced` — **so can items between braces, if each of them can**;
* `IndexSpace.Text.number?_decimal_append`, `IndexSpace.Text.skip?_append` — **a number is read back
  from its digits**, and a word where it stands;
* `IndexSpace.Text.length_lt_of_number?`, `IndexSpace.Text.length_le_of_skip?` — what is left is
  shorter, or no longer.
-/

import Mathlib.Data.List.Basic
import IndexSpace.Span

set_option relaxedAutoImplicit false
set_option autoImplicit false

namespace IndexSpace.Text

/-! ### Reading off the beginning -/

/-- A text that may follow a number: it does not go on with a digit. -/
def Ends (rest : List Char) : Prop := ∀ c ∈ rest.head?, c.isDigit = false

@[simp] theorem ends_cons {c : Char} {rest : List Char} :
    Ends (c :: rest) ↔ c.isDigit = false := by
  simp [Ends]

/-- **A written form that can be read off the beginning of a text**, if no digit comes after it. -/
def Readable {α : Type} (write : α → String) : Prop :=
  ∀ (a b : α) (x y : List Char), Ends x → Ends y →
    (write a).toList ++ x = (write b).toList ++ y → a = b ∧ x = y

variable {α : Type} {write : α → String}

/-! ### Numbers -/

theorem isDigit_of_mem_decimal {i : UInt32} {c : Char} (h : c ∈ (decimal i).toList) :
    c.isDigit = true := by
  rw [decimal, Nat.toList_repr] at h
  exact Nat.isDigit_of_mem_toDigits (by decide) (by decide) h

theorem toList_decimal_ne_nil (i : UInt32) : (decimal i).toList ≠ [] := by
  rw [decimal, Nat.toList_repr]
  exact Nat.toDigits_ne_nil

/-- The digits at the beginning of a text are those of the number that it begins with. -/
theorem takeWhile_decimal_append (i : UInt32) {rest : List Char} (h : Ends rest) :
    ((decimal i).toList ++ rest).takeWhile Char.isDigit = (decimal i).toList := by
  rw [List.takeWhile_append_of_pos fun c hc => isDigit_of_mem_decimal hc]
  cases rest with
  | nil => simp
  | cons c rest => simp [ends_cons.1 h]

/-- **Numbers can be read back.** -/
theorem readable_decimal : Readable decimal := by
  intro i j x y hx hy h
  have hdigits : (decimal i).toList = (decimal j).toList := by
    rw [← takeWhile_decimal_append i hx, h, takeWhile_decimal_append j hy]
  refine ⟨decimal_inj.1 (String.toList_inj.1 hdigits), ?_⟩
  rw [hdigits] at h
  exact List.append_cancel_left h

/-! ### Items between braces -/

/-- A text that cannot be taken for a closing brace: it begins with another character. -/
def Opens (u : String) : Prop := ∃ c ∈ u.toList.head?, c ≠ '\x7d'

theorem opens_decimal (i : UInt32) : Opens (decimal i) := by
  cases h : (decimal i).toList with
  | nil => exact absurd h (toList_decimal_ne_nil i)
  | cons c cs =>
      refine ⟨c, by simp [h], ?_⟩
      rintro rfl
      have hdigit := isDigit_of_mem_decimal (h ▸ List.mem_cons_self : '\x7d' ∈ (decimal i).toList)
      exact absurd hdigit (by decide)

/-- What comes after the first item: the others, each after a comma and a blank, and the brace. -/
def afterItem : List String → List Char
  | [] => ['\x7d']
  | u :: us => ',' :: ' ' :: (u.toList ++ afterItem us)

/-- What comes after the opening brace. -/
def afterBrace : List String → List Char
  | [] => ['\x7d']
  | u :: us => u.toList ++ afterItem us

theorem toList_intercalate_append_brace (us : List String) :
    (", ".intercalate us).toList ++ ['\x7d'] = afterBrace us := by
  cases us with
  | nil => rfl
  | cons u us =>
      induction us generalizing u with
      | nil => simp [afterBrace, afterItem]
      | cons v us ih =>
          rw [String.intercalate_cons_cons]
          simp only [String.toList_append, List.append_assoc, ih v, afterBrace, afterItem]
          simp

theorem toList_braced (us : List String) : (braced us).toList = '\x7b' :: afterBrace us := by
  rw [← toList_intercalate_append_brace]
  simp [braced]

theorem ends_afterItem_append (us : List String) (rest : List Char) :
    Ends (afterItem us ++ rest) := by
  cases us <;> simp [afterItem]

theorem ends_afterItem (us : List String) : Ends (afterItem us) := by
  simpa using ends_afterItem_append us []

theorem Readable.afterItem_inj (h : Readable write) {as bs : List α} {x y : List Char}
    (heq : afterItem (as.map write) ++ x = afterItem (bs.map write) ++ y) : as = bs ∧ x = y := by
  -- a comma tells that there is another item, a brace that there is none
  induction as generalizing bs with
  | nil =>
      cases bs with
      | nil => simpa [afterItem] using heq
      | cons b bs => simp [afterItem] at heq
  | cons a as ih =>
      cases bs with
      | nil => simp [afterItem] at heq
      | cons b bs =>
          simp only [List.map_cons, afterItem, List.cons_append, List.append_assoc,
            List.cons.injEq, true_and] at heq
          obtain ⟨rfl, hrest⟩ := h a b _ _ (ends_afterItem_append _ _)
            (ends_afterItem_append _ _) heq
          obtain ⟨rfl, hxy⟩ := ih hrest
          exact ⟨rfl, hxy⟩

theorem not_opens_append_eq_brace {u : String} (h : Opens u) {x y : List Char} :
    ¬ u.toList ++ x = '\x7d' :: y := by
  obtain ⟨c, hc, hne⟩ := h
  cases hu : u.toList with
  | nil => simp [hu] at hc
  | cons d ds =>
      simp only [hu, List.head?_cons, Option.mem_some_iff] at hc
      intro heq
      simp only [List.cons_append, List.cons.injEq] at heq
      exact hne (hc ▸ heq.1)

/-- **Items between braces can be read back**, if each item can be and none looks like the closing
brace. -/
theorem Readable.braced (h : Readable write) (hopens : ∀ a, Opens (write a)) :
    Readable fun as : List α => Text.braced (as.map write) := by
  intro as bs x y _ _ heq
  simp only [toList_braced, List.cons_append, List.cons.injEq, true_and] at heq
  cases as with
  | nil =>
      cases bs with
      | nil => simpa [afterBrace] using heq
      | cons b bs =>
          simp only [List.map_nil, List.map_cons, afterBrace, List.append_assoc] at heq
          exact absurd heq.symm (not_opens_append_eq_brace (hopens b))
  | cons a as =>
      simp only [List.map_cons, afterBrace, List.append_assoc] at heq
      cases bs with
      | nil => exact absurd heq (not_opens_append_eq_brace (hopens a))
      | cons b bs =>
          simp only [List.map_cons, List.append_assoc] at heq
          obtain ⟨rfl, hrest⟩ := h a b _ _ (ends_afterItem_append _ _)
            (ends_afterItem_append _ _) heq
          obtain ⟨rfl, hxy⟩ := h.afterItem_inj hrest
          exact ⟨rfl, hxy⟩

/-! ### Reading numbers -/

/-- **The number at the beginning of a text**, and what comes after its digits. -/
def number? (text : List Char) : Option (UInt32 × List Char) :=
  let digits := text.takeWhile Char.isDigit
  if digits = [] then none
  else some (.ofNat (Nat.ofDigitChars 10 digits 0), text.dropWhile Char.isDigit)

theorem ofDigitChars_decimal (i : UInt32) :
    UInt32.ofNat (Nat.ofDigitChars 10 (decimal i).toList 0) = i := by
  rw [decimal, Nat.toList_repr, Nat.ofDigitChars_ten_toDigits, UInt32.ofNat_toNat]

/-- **A number is read back from its digits**, if no digit comes after them. -/
theorem number?_decimal_append (i : UInt32) {rest : List Char} (h : Ends rest) :
    number? ((decimal i).toList ++ rest) = some (i, rest) := by
  have hdigits := takeWhile_decimal_append i h
  have hrest : ((decimal i).toList ++ rest).dropWhile Char.isDigit = rest := by
    have hsplit := List.takeWhile_append_dropWhile (p := Char.isDigit)
      (l := (decimal i).toList ++ rest)
    rw [hdigits] at hsplit
    exact List.append_cancel_left hsplit
  simp only [number?, hdigits, hrest, if_neg (toList_decimal_ne_nil i), ofDigitChars_decimal]

/-- A number leaves less of the text. -/
theorem length_lt_of_number? {text rest : List Char} {i : UInt32}
    (h : number? text = some (i, rest)) : rest.length < text.length := by
  have hsplit := List.takeWhile_append_dropWhile (p := Char.isDigit) (l := text)
  simp only [number?] at h
  split at h
  next => cases h
  next hne =>
    obtain ⟨-, rfl⟩ := Prod.mk.inj (Option.some.inj h)
    have hpos := List.length_pos_iff.2 hne
    have hlen := congrArg List.length hsplit
    rw [List.length_append] at hlen
    omega

/-! ### Reading fixed words -/

/-- **What comes after a word** that the text has to begin with. -/
def skip? (word : String) (text : List Char) : Option (List Char) := word.toList.isPrefixOf? text

theorem skip?_eq_some_iff {word : String} {text rest : List Char} :
    skip? word text = some rest ↔ word.toList ++ rest = text :=
  List.isPrefixOf?_eq_some_iff_append_eq

/-- A word is read where it stands. -/
@[simp] theorem skip?_append (word : String) (rest : List Char) :
    skip? word (word.toList ++ rest) = some rest :=
  skip?_eq_some_iff.2 rfl

/-- A word leaves no more of the text than there was. -/
theorem length_le_of_skip? {word : String} {text rest : List Char}
    (h : skip? word text = some rest) : rest.length ≤ text.length := by
  rw [← skip?_eq_some_iff.1 h, List.length_append]
  exact Nat.le_add_left _ _

end IndexSpace.Text
