import TinyPascal.Code.Supply
import TinyPascal.Token.Lexeme

/-!
# `Proofs.Code.Names` — the names that a supply hands out

A temporary is `t` and a number, a label is a stem and a number. This module reads the number back off
the name, so that **different numbers give different names**, and names the spelling that temporaries
have (`isTempName`), which a program has to keep clear of.

## Contents
- **Numbers.** `Lexeme.decimal_repr`: the digits of a number have that number as their value.
- **Temporaries.** `isTempName`, `isTempName_tempName`, `tempName_inj`.
- **Labels.** `labelNumber` reads the number off the end of a label; `labelNumber_labelName` for every
  stem that does not itself end with a digit.
-/

namespace TinyPascal

/-! ## Numbers -/

theorem toList_repr (n : Nat) : n.repr.toList = Nat.toDigits 10 n := by
  rw [Nat.repr_eq_ofList_toDigits, String.toList_ofList]

theorem isDigit_of_mem_repr {n : Nat} {c : Char} (h : c ∈ n.repr.toList) : c.isDigit = true := by
  rw [toList_repr] at h
  exact Nat.isDigit_of_mem_toDigits (by decide) (by decide) h

theorem toList_repr_ne_nil (n : Nat) : n.repr.toList ≠ [] := by
  rw [toList_repr]
  exact Nat.toDigits_ne_nil

/-- The digits of a number have that number as their value. -/
theorem Lexeme.decimal_repr (n : Nat) : Lexeme.decimal n.repr.toList = n := by
  rw [toList_repr]
  exact Nat.ofDigitChars_ten_toDigits

theorem repr_inj {m n : Nat} (h : m.repr = n.repr) : m = n := by
  rw [← Lexeme.decimal_repr m, h, Lexeme.decimal_repr n]

/-! ## Temporaries -/

/-- The spelling of a temporary: the letter `t` and at least one digit, and nothing else. -/
def isTempName (name : String) : Bool :=
  match name.toList with
  | 't' :: d :: ds => (d :: ds).all Char.isDigit
  | _ => false

theorem toList_tempName (n : Nat) : (tempName n).toList = 't' :: n.repr.toList := by
  rw [tempName, String.toList_append]
  rfl

/-- Every temporary has the spelling of one. -/
@[simp] theorem isTempName_tempName (n : Nat) : isTempName (tempName n) = true := by
  unfold isTempName
  rw [toList_tempName]
  cases hr : n.repr.toList with
  | nil => exact absurd hr (toList_repr_ne_nil n)
  | cons d ds =>
      show (d :: ds).all Char.isDigit = true
      rw [List.all_eq_true]
      intro c hc
      exact isDigit_of_mem_repr (n := n) (hr ▸ hc)

theorem tempName_inj {m n : Nat} (h : tempName m = tempName n) : m = n := by
  have hl := congrArg String.toList h
  rw [toList_tempName, toList_tempName] at hl
  injection hl with _ hr
  exact repr_inj (String.toList_injective hr)

/-- A name without the spelling of a temporary is none of them. -/
theorem ne_tempName {x : String} (h : isTempName x = false) (n : Nat) : x ≠ tempName n := by
  rintro rfl
  rw [isTempName_tempName] at h
  cases h

/-! ## Labels -/

/-- The number at the end of a label. -/
def labelNumber (l : Label) : Nat :=
  Lexeme.decimal (l.toList.reverse.takeWhile Char.isDigit).reverse

/-- A stem that does not run into the number after it. -/
def IsStem (stem : String) : Prop :=
  stem.toList.getLast?.all (fun c => !c.isDigit) = true

instance (stem : String) : Decidable (IsStem stem) :=
  inferInstanceAs (Decidable (stem.toList.getLast?.all (fun c => !c.isDigit) = true))

/-- The characters of a label behind its stem are those of its number. -/
theorem takeWhile_labelName {stem : String} (h : IsStem stem) (n : Nat) :
    (labelName stem n).toList.reverse.takeWhile Char.isDigit = n.repr.toList.reverse := by
  rw [labelName, String.toList_append, List.reverse_append, List.takeWhile_append_of_pos]
  · have hstem : stem.toList.reverse.takeWhile Char.isDigit = [] := by
      cases hr : stem.toList.reverse with
      | nil => rfl
      | cons c cs =>
          have hc : stem.toList.getLast? = some c := by
            rw [← List.head?_reverse, hr]
            rfl
          have hno : c.isDigit = false := by
            rw [IsStem, hc, Option.all_some] at h
            simpa using h
          rw [List.takeWhile_cons_of_neg]
          simp [hno]
    rw [hstem, List.append_nil]
  · intro c hc
    exact isDigit_of_mem_repr (List.mem_reverse.mp hc)

/-- **The number of a label can be read off its name.** -/
theorem labelNumber_labelName {stem : String} (h : IsStem stem) (n : Nat) :
    labelNumber (labelName stem n) = n := by
  rw [labelNumber, takeWhile_labelName h, List.reverse_reverse, Lexeme.decimal_repr]

end TinyPascal
