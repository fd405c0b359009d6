import TinyPascal.Code.Instr

/-!
# `Code.Supply` — fresh names

Temporaries are numbered `t1`, `t2`, …, and labels by a number after their stem; all labels share one
numbering. A supply counts the names that were handed out, so a later run goes on where an earlier one
stopped.
-/

namespace TinyPascal

/-- The `n`-th temporary. -/
def tempName (n : Nat) : Place :=
  "t" ++ n.repr

/-- The `n`-th label, with the given stem. -/
def labelName (stem : String) (n : Nat) : Label :=
  stem ++ n.repr

/-- How many temporaries and how many labels were handed out. -/
structure Supply where
  temps : Nat := 0
  labels : Nat := 0
deriving DecidableEq, Repr, Inhabited

namespace Supply

/-- Hand out the next temporary. -/
def temp (s : Supply) : Place × Supply :=
  (tempName (s.temps + 1), { s with temps := s.temps + 1 })

/-- Hand out the next label. -/
def label (stem : String) (s : Supply) : Label × Supply :=
  (labelName stem (s.labels + 1), { s with labels := s.labels + 1 })

end Supply

end TinyPascal
