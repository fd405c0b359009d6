import TinyPascal.Proofs.Code.StrayJumps
import TinyPascal.Proofs.Semantics.Backward
import TinyPascal.Proofs.Semantics.Linking

/-!
# `Proofs.Semantics.Preservation` — lowering preserves meaning

The code of a checked program and its tree end alike: with the same output and the same globals, for any
meaning of literals and operators. Two restrictions are needed. A variable spelled like a temporary would
be overwritten (`isTempName`), and a name whose value is consumed behind a call would be read too late
(`Program.settled`).
-/

namespace TinyPascal

/-- **Lowering preserves meaning.** The machine, on the code of a checked program, ends with given output
    and given globals exactly if the tree does, from any globals. -/
theorem ends_code_iff_runs {V : Type} (I : Meaning V) (p : Program) (t : Table)
    (hcheck : p.check = .ok t) (hnames : ∀ x ∈ p.identifiers, isTempName x = false)
    (hsettled : p.settled = true) :
    ∃ code, p.code = .ok code ∧
      ∀ (g : Env V) (out : List V) (g' : Env V), Machine.Ends I code g out g' ↔ p.Runs I g out g' := by
  obtain ⟨code, hcode⟩ := exists_code_of_check hcheck
  have hlinked := Machine.linked_of_code hcode
  have htame : Machine.TameProgram p := ⟨hnames, hsettled⟩
  refine ⟨code, hcode, fun g out g' => ⟨fun hends => ?_, fun hruns => ?_⟩⟩
  · exact Machine.runs_of_ends hlinked htame hends
  · exact Machine.ends_of_runs hlinked htame hruns

/-- Counting down by recursion, called from a loop that is left by a jump. -/
def countdown : Program :=
  let here : Span := ⟨0, 0, 1, 1⟩
  let id (x : String) : Ident := ⟨x, here⟩
  let k : Expr := .var "k" here
  let body : Block := ⟨[
    .ifThen (.binary .eq k (.int 0 here) here) ⟨[.return none here], here⟩ here,
    .write [k] here,
    .call (id "down") [.binary .sub k (.int 1 here) here] here], here⟩
  let main : Block := ⟨[
    .assign (id "n") (.int 2 here) here,
    .while (.bool true here) ⟨[.call (id "down") [.var "n" here] here, .break here], here⟩ here], here⟩
  ⟨[.vars ⟨[id "n"], .integer, here⟩,
    .routine ⟨id "down", [⟨[id "k"], .integer, here⟩], none, body, here⟩], main, here⟩

/-- Subtraction and equality of numbers. -/
def Meaning.countdown : Meaning Int :=
  .numbers fun
    | .sub, a, b => some (a - b)
    | .eq, a, b => some (if a = b then 1 else 0)
    | _, _, _ => none

/-- The machine prints 2 and 1, so the tree does. -/
theorem ends_code_iff_runs_countdown :
    ∃ g', countdown.Runs Meaning.countdown (fun _ => none) [2, 1] g' := by
  obtain ⟨code, hcode, hiff⟩ := ends_code_iff_runs Meaning.countdown countdown _ rfl (by decide) rfl
  have hout : (countdown.code.toOption.bind fun code =>
      Machine.output? Meaning.countdown code 31 (fun _ => none)) = some [2, 1] := by decide +kernel
  rw [hcode] at hout
  obtain ⟨g', hends⟩ := Machine.ends_of_output? _ _ hout
  exact ⟨g', (hiff _ _ _).mp hends⟩

end TinyPascal
