import TinyPascal.Code.Render
import TinyPascal.Proofs.Code.Names

/-!
# `Proofs.Code.Text` — reading texts of code

What the written forms of code have in common: they are texts of lines, they show the names that
instructions mention, and they show numbers. All three can be **read back off the text**.

## Contents
- **Lines.** `linesOf`, `linesOf_unlines`; `count_newline_unlines`.
- **Names.** `Instr.names`.
- **Numbers.** `mem_repr`; `readInt`, `readInt_repr`.
-/

namespace TinyPascal

/-! ## Lines -/

/-- The lines of a text. A line feed ends a line; what stands behind the last one is a line too, unless
    nothing does. -/
def linesOf (text : String) : List String :=
  let pieces := text.toList.splitOn '\n'
  (if pieces.getLast? = some [] then pieces.dropLast else pieces).map String.ofList

/-- Lines that are ended by line feeds are cut at them. -/
theorem splitOn_unlines {lines : List String} (h : ∀ line ∈ lines, '\n' ∉ line.toList) :
    (unlines lines).toList.splitOn '\n' = lines.map String.toList ++ [[]] := by
  have hlist : (unlines lines).toList = ['\n'].intercalate (lines.map String.toList ++ [[]]) := by
    unfold unlines
    rw [String.toList_join]
    clear h
    induction lines with
    | nil => rfl
    | cons line lines ih =>
        rw [List.map_cons, List.flatMap_cons, ih, List.map_cons, List.cons_append,
          List.intercalate_cons_of_ne_nil (by simp), String.toList_append]
        rfl
  rw [hlist]
  apply List.splitOn_intercalate
  · intro piece hpiece
    rcases List.mem_append.mp hpiece with hpiece | hpiece
    · obtain ⟨line, hline, rfl⟩ := List.mem_map.mp hpiece
      exact h line hline
    · rw [List.mem_singleton] at hpiece
      subst hpiece
      exact List.not_mem_nil
  · simp

/-- **Lines can be read back**, if none of them holds a line feed. -/
theorem linesOf_unlines {lines : List String} (h : ∀ line ∈ lines, '\n' ∉ line.toList) :
    linesOf (unlines lines) = lines := by
  unfold linesOf
  rw [splitOn_unlines h]
  simp [List.map_map]

/-- A line feed ends each line, and there are no others. -/
theorem count_newline_unlines {lines : List String} (h : ∀ line ∈ lines, '\n' ∉ line.toList) :
    (unlines lines).toList.count '\n' = lines.length := by
  unfold unlines
  rw [String.toList_join]
  induction lines with
  | nil => rfl
  | cons line lines ih =>
      obtain ⟨hline, hlines⟩ := List.forall_mem_cons.mp h
      rw [List.map_cons, List.flatMap_cons, List.count_append, ih hlines, String.toList_append,
        List.count_append, List.count_eq_zero_of_not_mem hline, List.length_cons]
      show 0 + 1 + lines.length = lines.length + 1
      omega

/-! ## Names -/

/-- The names that an instruction mentions, apart from the parameters of a section. -/
def Instr.names : Instr → List String
  | .decl names _ => names
  | .sectionStart _ name _ _ | .sectionEnd _ name => name.toList
  | .const target _ => [target]
  | .assign target arg | .not target arg => [target, arg]
  | .binary _ target left right => [target, left, right]
  | .call target callee args => target :: callee :: args
  | .print arg => [arg]
  | .ret arg => arg.toList
  | .label l | .goto l => [l]
  | .ifGoto cond l | .ifNotGoto cond l => [cond, l]

/-! ## Numbers -/

/-- The number that a text of digits writes, with a sign in front of it if it is negative. -/
def readInt (text : String) : Int :=
  match text.toList with
  | '-' :: digits => -(Lexeme.decimal digits : Int)
  | digits => (Lexeme.decimal digits : Int)

/-- The characters of a written number. -/
theorem mem_repr {n : Int} {c : Char} (hc : c ∈ n.repr.toList) : c = '-' ∨ c.isDigit = true := by
  cases n with
  | ofNat m => exact .inr (isDigit_of_mem_repr (n := m) hc)
  | negSucc m =>
      have hsign : (Int.negSucc m).repr.toList = '-' :: (m + 1).repr.toList := String.toList_append
      rw [hsign] at hc
      rcases List.mem_cons.mp hc with hminus | hdigit
      · exact .inl hminus
      · exact .inr (isDigit_of_mem_repr hdigit)

/-- **A written number can be read back.** -/
theorem readInt_repr (n : Int) : readInt n.repr = n := by
  unfold readInt
  cases n with
  | ofNat m =>
      show (match m.repr.toList with
        | '-' :: digits => -(Lexeme.decimal digits : Int)
        | digits => (Lexeme.decimal digits : Int)) = _
      split
      · next digits hrepr =>
          have hsign : '-' ∈ m.repr.toList := by
            rw [hrepr]
            exact List.mem_cons_self
          exact absurd (isDigit_of_mem_repr hsign) (by decide)
      · rw [Lexeme.decimal_repr]
        rfl
  | negSucc m =>
      have hsign : (Int.negSucc m).repr.toList = '-' :: (m + 1).repr.toList := String.toList_append
      rw [hsign]
      show -(Lexeme.decimal (m + 1).repr.toList : Int) = _
      rw [Lexeme.decimal_repr]
      rfl

end TinyPascal
