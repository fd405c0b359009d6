import TinyPascal.CommandLine
import TinyPascal.Proofs.Code.StrayJumps

/-!
# `Proofs.Compile` — the stages one after the other

Once a source text has passed its checks, nothing can go wrong any more: generation has no errors of its
own to report.

## Contents
- **Stages.** `check_eq_ok_iff`, `compile_of_check`, `compile_of_check_error`.
- **Agreement.** `compile_agrees_with_check`: compiling a text and checking it fail alike.
-/

namespace TinyPascal

/-! ## Stages -/

/-- An error of a stage that is no error of generation. -/
def Error.isGeneration : Error → Bool
  | .generation _ => true
  | _ => false

/-- A text passes its checks if it has a tree and the tree keeps all rules. -/
theorem check_eq_ok_iff {source : String} {tree : Program} {t : Table} :
    check source = .ok (tree, t) ↔ parse source = .ok tree ∧ tree.check = .ok t := by
  unfold check
  rw [Except.bind_eq_ok]
  constructor
  · rintro ⟨tree', hparse, h⟩
    obtain ⟨t', hcheck, he⟩ := Except.bind_pure_eq_ok.mp h
    cases he
    exact ⟨hparse, Except.mapError_eq_ok.mp hcheck⟩
  · rintro ⟨hparse, hcheck⟩
    refine ⟨tree, hparse, Except.bind_pure_eq_ok.mpr ⟨t, Except.mapError_eq_ok.mpr hcheck, rfl⟩⟩

/-- The errors of the earlier stages are no errors of generation. -/
theorem isGeneration_of_check {source : String} {e : Error} (h : check source = .error e) :
    e.isGeneration = false := by
  -- a check fails where one of its stages does
  rcases Except.bind_eq_error.mp h with hparse | ⟨tree, _, hrest⟩
  · rcases Except.bind_eq_error.mp hparse with hlex | ⟨stream, _, hread⟩
    · obtain ⟨_, _, rfl⟩ := Except.mapError_eq_error.mp hlex
      rfl
    · obtain ⟨_, _, rfl⟩ := Except.mapError_eq_error.mp hread
      rfl
  · rcases Except.bind_eq_error.mp hrest with hcheck | ⟨_, _, hpure⟩
    · obtain ⟨_, _, rfl⟩ := Except.mapError_eq_error.mp hcheck
      rfl
    · cases hpure

theorem compile_of_check {source : String} {tree : Program} {t : Table}
    (h : check source = .ok (tree, t)) : compile source = tree.code.mapError .generation := by
  unfold compile
  rw [h]
  rfl

/-- The code of a text is the code of its tree, and the tree keeps all rules. -/
theorem compile_eq_ok {source : String} {code : List Instr} (h : compile source = .ok code) :
    ∃ tree t, check source = .ok (tree, t) ∧ tree.code = .ok code := by
  unfold compile at h
  obtain ⟨⟨tree, t⟩, hcheck, hcode⟩ := Except.bind_eq_ok.mp h
  exact ⟨tree, t, hcheck, Except.mapError_eq_ok.mp hcode⟩

theorem compile_of_check_error {source : String} {e : Error} (h : check source = .error e) :
    compile source = .error e := by
  unfold compile
  rw [h]
  rfl

/-- A text that passes its checks has code. -/
theorem exists_compile_of_check {source : String} {r : Program × Table}
    (h : check source = .ok r) : ∃ code, compile source = .ok code := by
  obtain ⟨tree, t⟩ := r
  obtain ⟨code, hcode⟩ := exists_code_of_check (check_eq_ok_iff.mp h).2
  exact ⟨code, by rw [compile_of_check h, hcode]; rfl⟩

/-- **The errors of compiling are those of checking.** -/
theorem compile_eq_error_iff {source : String} {e : Error} :
    compile source = .error e ↔ check source = .error e := by
  refine ⟨fun h => ?_, compile_of_check_error⟩
  cases hcheck : check source with
  | error e' =>
      rw [compile_of_check_error hcheck] at h
      cases h
      rfl
  | ok r =>
      obtain ⟨code, hcode⟩ := exists_compile_of_check hcheck
      rw [hcode] at h
      cases h

/-! ## Agreement -/

/-- A command ends with code 0 on a text for which it has something to print, and with 65 otherwise. -/
theorem exit_reply_of_output {c c' : Command} {input : String} {bytes : Except ReadError ByteArray}
    (h : ∀ source, (∃ text, c.output source = .ok text) ↔ ∃ text, c'.output source = .ok text) :
    (c.reply input bytes).exit = (c'.reply input bytes).exit := by
  unfold Command.reply
  cases decode bytes with
  | error e => rfl
  | ok source =>
      have hiff := h source
      cases hc : c.output source <;> cases hc' : c'.output source <;> simp_all

theorem output_check_iff {source : String} :
    (∃ text, Command.check.output source = .ok text) ↔ ∃ r, check source = .ok r := by
  unfold Command.output
  cases check source with
  | ok r => exact ⟨fun _ => ⟨r, rfl⟩, fun _ => ⟨_, rfl⟩⟩
  | error e =>
      constructor
      · rintro ⟨_, h⟩
        cases h
      · rintro ⟨_, h⟩
        cases h

theorem output_ir_iff {source : String} {format : Format} :
    (∃ text, (Command.ir format).output source = .ok text) ↔ ∃ code, compile source = .ok code := by
  unfold Command.output
  cases compile source with
  | ok code => exact ⟨fun _ => ⟨code, rfl⟩, fun _ => ⟨_, rfl⟩⟩
  | error e =>
      constructor
      · rintro ⟨_, h⟩
        cases h
      · rintro ⟨_, h⟩
        cases h

/-- A text has code exactly if it passes its checks. -/
theorem exists_compile_iff {source : String} :
    (∃ code, compile source = .ok code) ↔ ∃ r, check source = .ok r := by
  refine ⟨fun ⟨code, hcode⟩ => ?_, fun ⟨r, hr⟩ => exists_compile_of_check hr⟩
  cases hcheck : check source with
  | ok r => exact ⟨r, rfl⟩
  | error e =>
      rw [compile_of_check_error hcheck] at hcode
      cases hcode

/-- **Compiling fails where checking fails.** Every checked tree has code. A text has code exactly if it
    passes its checks; otherwise the two stages report the same error, which is none of generation. So
    the commands `check` and `ir` end with the same exit code. -/
theorem compile_agrees_with_check :
    (∀ (p : Program) (t : Table), p.check = .ok t → ∃ code, p.code = .ok code) ∧
    (∀ source, (∃ code, compile source = .ok code) ↔ ∃ r, check source = .ok r) ∧
    (∀ source e, compile source = .error e ↔ check source = .error e) ∧
    (∀ source e, compile source ≠ .error (.generation e)) ∧
    (∀ format input bytes,
      (Command.check.reply input bytes).exit = ((Command.ir format).reply input bytes).exit) := by
  refine ⟨fun p t h => exists_code_of_check h, fun source => exists_compile_iff,
    fun source e => compile_eq_error_iff, fun source e h => ?_, fun format input bytes => ?_⟩
  · have hgen := isGeneration_of_check (compile_eq_error_iff.mp h)
    cases hgen
  · refine exit_reply_of_output (fun source => ?_)
    rw [output_check_iff, output_ir_iff, exists_compile_iff]

/-- A loop with a jump behind a test: the program is accepted, so it has code. -/
theorem compile_agrees_with_check_loop :
    let here : Span := ⟨0, 0, 1, 1⟩
    let quit : Stmt := .ifThen (.bool false here) ⟨[.break here], here⟩ here
    let main : Block := ⟨[.while (.bool true here) ⟨[quit, .continue here], here⟩ here], here⟩
    ∃ code, (Program.mk [] main here).code = .ok code :=
  compile_agrees_with_check.1 _ {} rfl

end TinyPascal
