import TinyPascal.Proofs.Scope.Marks

/-!
# `Proofs.Scope.History` — a table agrees with the calls that were made

A table keeps no record of how it came about. This module keeps one, the list of all calls since the
table was new, and reads every answer of the table off it: which scopes are open, which declarations
succeeded in them, and the last mark that each was given **while it was the nearest one of its name**.

## Contents
- **Calls.** `TableCall.run` goes through a call step by step, and `TableCall.state_of_error`: one that
  stops changes nothing. A `History` is a list of calls, the latest first.
- **What a history says.** `History.scopes`, `History.declarations`, `History.nearest`,
  `History.mark?`, and `History.scope`, the contents of a scope.
- **Numbers of scopes.** `History.scopes_descending`: scopes are opened one after the other.
- **Steps.** How the contents of a scope change with one more call.
- **Agreement.** `History.agrees`: the table is made up of the open scopes and their contents.
  `History.table_agrees_with_history`: so is every answer.
-/

namespace TinyPascal

variable {ρ : Type}

/-! ## Tables as lists of scopes -/

/-- A name that is not in a scope cannot be changed there. -/
theorem Scope.modify_of_find?_eq_none {s : Scope ρ} {x : String} {f : Symbol ρ → Symbol ρ}
    (h : s.find? x = none) : s.modify x f = s := by
  unfold modify
  refine (List.map_congr_left (fun entry hentry => ?_)).trans (List.map_id s)
  have hne : entry.1 ≠ x := by
    rintro rfl
    simpa [find?] using List.lookup_eq_none_iff.mp h entry hentry
  rw [if_neg hne]
  rfl

namespace Table

theorem scopes_inj {t t' : Table ρ} (h : t.scopes = t'.scopes) : t = t' := by
  obtain ⟨locals, globals⟩ := t
  obtain ⟨locals', globals'⟩ := t'
  obtain ⟨hlocals, hglobals⟩ := List.append_inj' h rfl
  cases hlocals
  cases hglobals
  rfl

theorem scopes_setInnermost (t : Table ρ) (s : Scope ρ) :
    (t.setInnermost s).scopes = s :: t.scopes.tail := by
  obtain ⟨locals, globals⟩ := t
  cases locals <;> rfl

/-- The nearest symbol of a name is in the first scope that declares it. -/
theorem scopes_modify (t : Table ρ) (x : String) (f : Symbol ρ → Symbol ρ) :
    (t.modify x f).scopes = modifyFirst x f t.scopes := by
  obtain ⟨locals, globals⟩ := t
  have hglobals : modifyFirst x f [globals] = [globals.modify x f] := by
    unfold modifyFirst
    cases h : globals.find? x with
    | some symbol => rfl
    | none => rw [Scope.modify_of_find?_eq_none h]; rfl
  unfold modify scopes
  induction locals with
  | nil => exact hglobals.symm
  | cons s outer ih =>
      show _ = modifyFirst x f (s :: (outer ++ [globals]))
      simp only [List.findSome?_cons, modifyFirst]
      cases h : s.find? x with
      | some symbol => rfl
      | none =>
          simp only at ih ⊢
          rw [← ih]
          cases outer.findSome? (fun s => s.find? x) <;> rfl

/-- Leaving the mark as it is changes nothing. -/
theorem modify_mark_none (t : Table ρ) (x : String) : t.modify x (·.mark none) = t := by
  have hscope : ∀ s : Scope ρ, s.modify x (·.mark none) = s := by
    intro s
    unfold Scope.modify
    refine (List.map_congr_left (fun entry _ => ?_)).trans (List.map_id s)
    show (if entry.1 = x then entry else entry) = entry
    rw [ite_self]
  have hfirst : ∀ scopes : List (Scope ρ), modifyFirst x (·.mark none) scopes = scopes := by
    intro scopes
    induction scopes with
    | nil => rfl
    | cons s outer ih =>
        unfold modifyFirst
        rw [ih, hscope]
        cases s.find? x <;> rfl
  apply scopes_inj
  rw [scopes_modify, hfirst]

end Table

/-! ## Calls -/

/-- What can be asked of a table. -/
inductive TableCall (ρ : Type) where
  | enter
  | exit
  | declare (name : String) (symbol : Symbol ρ)
  | update (name : String) (assigned : Option Bool)
  | lookup (name : String)
  | lookupLocal (name : String)
deriving DecidableEq, Repr

/-- Why a call stops. -/
inductive TableStop where
  | refused (error : SymbolError)
  /-- A scope is left and only the global one is open. -/
  | globalScope
deriving DecidableEq, Repr

/-- A step on a table. What it does to the table is not taken back when it stops. -/
abbrev TableStep (ρ : Type) := EStateM TableStop (Table ρ)

/-- A call, step by step, with the symbol that a lookup finds. -/
def TableCall.run : TableCall ρ → TableStep ρ (Option (Symbol ρ))
  | .enter => do
    modify Table.enter
    return none
  | .exit => do
    match (← get).locals with
    | [] => throw .globalScope
    | _ :: outer =>
      modify ({ · with locals := outer })
      return none
  | .declare x symbol => do
    if ((← get).lookupLocal? x).isSome then
      throw (.refused (.alreadyDeclared x))
    modify (fun t => t.setInnermost (t.innermost.add x symbol))
    return none
  | .update x assigned => do
    if ((← get).lookup? x).isNone then
      throw (.refused (.notFound x))
    modify (·.modify x (·.mark assigned))
    return none
  | .lookup x => return (← get).lookup? x
  | .lookupLocal x => return (← get).lookupLocal? x

/-- The table after a call, whether or not it stopped. -/
def Table.step (t : Table ρ) (call : TableCall ρ) : Table ρ :=
  match call.run t with
  | .ok _ t' | .error _ t' => t'

namespace TableCall

/-- A scope is left as `Table.exit?` says. -/
theorem run_exit (t : Table ρ) :
    TableCall.exit.run t =
      match t.exit? with
      | some t' => .ok none t'
      | none => .error .globalScope t := by
  obtain ⟨locals, globals⟩ := t
  cases locals <;> rfl

/-- A declaration goes as `Table.declare` says. -/
theorem run_declare (t : Table ρ) (x : String) (symbol : Symbol ρ) :
    (TableCall.declare x symbol).run t =
      match t.declare x symbol with
      | .ok t' => .ok none t'
      | .error e => .error (.refused e) t := by
  have hrun : (TableCall.declare x symbol).run t =
      if (t.lookupLocal? x).isSome then .error (.refused (.alreadyDeclared x)) t
      else .ok none (t.setInnermost (t.innermost.add x symbol)) := by
    show (ite _ _ _ : TableStep ρ _) t = _
    split <;> rfl
  rw [hrun, Table.declare]
  cases t.lookupLocal? x <;> rfl

/-- An update goes as `Table.update` says. -/
theorem run_update (t : Table ρ) (x : String) (assigned : Option Bool) :
    (TableCall.update x assigned).run t =
      match t.update x assigned with
      | .ok t' => .ok none t'
      | .error e => .error (.refused e) t := by
  have hrun : (TableCall.update x assigned).run t =
      if (t.lookup? x).isNone then .error (.refused (.notFound x)) t
      else .ok none (t.modify x (·.mark assigned)) := by
    show (ite _ _ _ : TableStep ρ _) t = _
    split <;> rfl
  rw [hrun, Table.update]
  cases t.lookup? x <;> rfl

/-- **A call that stops changes nothing**: whatever stops it is noticed before the table is touched. -/
theorem state_of_error {call : TableCall ρ} {t t' : Table ρ} {stop : TableStop}
    (h : call.run t = .error stop t') : t' = t := by
  cases call with
  | enter => cases h
  | exit =>
      rw [run_exit] at h
      split at h <;> cases h
      rfl
  | declare x symbol =>
      rw [run_declare] at h
      split at h <;> cases h
      rfl
  | update x assigned =>
      rw [run_update] at h
      split at h <;> cases h
      rfl
  | lookup x => cases h
  | lookupLocal x => cases h

end TableCall

namespace Table

theorem step_exit (t : Table ρ) : t.step .exit = t.exit := by
  unfold step exit
  rw [TableCall.run_exit]
  cases t.exit? <;> rfl

theorem step_declare (t : Table ρ) (x : String) (symbol : Symbol ρ) :
    t.step (.declare x symbol) = (t.declare x symbol).toOption.getD t := by
  unfold step
  rw [TableCall.run_declare]
  cases t.declare x symbol <;> rfl

theorem step_update (t : Table ρ) (x : String) (assigned : Option Bool) :
    t.step (.update x assigned) = (t.update x assigned).toOption.getD t := by
  unfold step
  rw [TableCall.run_update]
  cases t.update x assigned <;> rfl

/-- A step that stops leaves the table as it was. -/
theorem step_of_error {t t' : Table ρ} {call : TableCall ρ} {stop : TableStop}
    (h : call.run t = .error stop t') : t.step call = t := by
  unfold step
  rw [h]
  exact TableCall.state_of_error h

end Table

/-- The calls that were made on a new table, the latest first. -/
abbrev History (ρ : Type) := List (TableCall ρ)

/-- A declaration that succeeded: the scope that it was made in, and what was declared. -/
structure Declaration (ρ : Type) where
  scope : Nat
  name : String
  symbol : Symbol ρ
deriving Repr

/-- What tells a declaration from the others: no two that succeed have both in common. -/
def Declaration.key (d : Declaration ρ) : Nat × String :=
  (d.scope, d.name)

namespace History

/-- The table after all calls. -/
def table : History ρ → Table ρ
  | [] => {}
  | call :: past => (table past).step call

/-! ## What a history says -/

/-- The scopes that are open inside the global one, the innermost first. A scope is named by the number
    of calls up to the one that opened it. -/
def inner : History ρ → List Nat
  | [] => []
  | .enter :: past => (past.length + 1) :: inner past
  | .exit :: past => (inner past).tail
  | _ :: past => inner past

/-- All open scopes, the innermost first. The global scope is number 0. -/
def scopes (past : History ρ) : List Nat :=
  inner past ++ [0]

/-- The innermost open scope. -/
def innermost (past : History ρ) : Nat :=
  (inner past).headD 0

/-- The declarations that succeeded, the earliest first. -/
def declarations : History ρ → List (Declaration ρ)
  | [] => []
  | .declare x symbol :: past =>
    match (table past).declare x symbol with
    | .ok _ => declarations past ++ [⟨innermost past, x, symbol⟩]
    | .error _ => declarations past
  | _ :: past => declarations past

/-- The declaration of a name in a scope. -/
def declared (past : History ρ) (m : Nat) (x : String) : Option (Declaration ρ) :=
  (declarations past).find? (fun d => d.scope = m ∧ d.name = x)

/-- The declaration of a name in the innermost open scope that has one. -/
def nearest (past : History ρ) (x : String) : Option (Declaration ρ) :=
  (scopes past).findSome? (fun m => declared past m x)

/-- The mark that the latest update gave to `d`, of those that were made while `d` was the nearest
    declaration of the name and that set a mark at all. -/
def mark? (d : Declaration ρ) : History ρ → Option Bool
  | [] => none
  | .update x (some b) :: past =>
    if (nearest past x).map Declaration.key = some d.key then some b else mark? d past
  | _ :: past => mark? d past

/-- What was declared, with the mark that it was given since. -/
def symbolOf (past : History ρ) (d : Declaration ρ) : Symbol ρ :=
  d.symbol.mark (mark? d past)

/-- The contents of a scope, in the order of declaration. -/
def scope (past : History ρ) (m : Nat) : Scope ρ :=
  ((declarations past).filter (·.scope = m)).map (fun d => (d.name, symbolOf past d))

/-! ## Numbers of scopes -/

theorem mem_scopes {past : History ρ} {m : Nat} : m ∈ scopes past ↔ m ∈ inner past ∨ m = 0 := by
  simp [scopes]

theorem scopes_eq_cons (past : History ρ) :
    ∃ outer, scopes past = innermost past :: outer := by
  unfold scopes innermost
  cases inner past with
  | nil => exact ⟨[], rfl⟩
  | cons m ms => exact ⟨ms ++ [0], rfl⟩

/-- A scope inside the global one has a number, at most that of the last call. -/
theorem inner_bounds {past : History ρ} : ∀ m ∈ inner past, 0 < m ∧ m ≤ past.length := by
  induction past with
  | nil => simp [inner]
  | cons call past ih =>
      have hlater : ∀ m ∈ inner past, 0 < m ∧ m ≤ past.length + 1 :=
        fun m hm => ⟨(ih m hm).1, Nat.le_succ_of_le (ih m hm).2⟩
      cases call with
      | enter => exact List.forall_mem_cons.mpr ⟨⟨Nat.succ_pos _, Nat.le_refl _⟩, hlater⟩
      | exit => exact fun m hm => hlater m (List.mem_of_mem_tail hm)
      | _ => exact hlater

theorem scopes_le {past : History ρ} : ∀ m ∈ scopes past, m ≤ past.length := by
  intro m hm
  rcases mem_scopes.mp hm with hm | rfl
  · exact (inner_bounds m hm).2
  · exact Nat.zero_le _

/-- **Scopes are opened one after the other**: the further inside, the higher the number. -/
theorem scopes_descending (past : History ρ) : (scopes past).Pairwise (· > ·) := by
  have hinner : (inner past).Pairwise (· > ·) := by
    induction past with
    | nil => exact .nil
    | cons call past ih =>
        cases call with
        | enter =>
            refine List.pairwise_cons.mpr ⟨fun m hm => ?_, ih⟩
            exact Nat.lt_succ_of_le (inner_bounds m hm).2
        | exit => exact ih.sublist (List.tail_sublist _)
        | _ => exact ih
  refine List.pairwise_append.mpr ⟨hinner, List.pairwise_singleton _ _, fun m hm n hn => ?_⟩
  rw [List.mem_singleton] at hn
  exact hn ▸ (inner_bounds m hm).1

theorem innermost_mem (past : History ρ) : innermost past ∈ scopes past := by
  obtain ⟨outer, h⟩ := scopes_eq_cons past
  rw [h]
  exact List.mem_cons_self

/-! ## Steps -/

section Steps

variable {past : History ρ} {x : String} {symbol : Symbol ρ} {d : Declaration ρ}

/-- A declaration that is found was made in that scope under that name. -/
theorem declared_eq_some {m : Nat} (h : declared past m x = some d) :
    d ∈ declarations past ∧ d.scope = m ∧ d.name = x := by
  refine ⟨List.mem_of_find?_eq_some h, ?_⟩
  simpa using List.find?_some h

theorem declared_eq_none {m : Nat} :
    declared past m x = none ↔ ∀ d ∈ declarations past, d.scope = m → d.name ≠ x := by
  simp [declared, List.find?_eq_none]

/-- The nearest declaration was made in a scope that is open. -/
theorem nearest_eq_some (h : nearest past x = some d) :
    declared past d.scope x = some d ∧ d.scope ∈ scopes past := by
  obtain ⟨m, hm, hd⟩ := List.exists_of_findSome?_eq_some h
  obtain ⟨_, rfl, _⟩ := declared_eq_some hd
  exact ⟨hd, hm⟩

/-- Declarations were made in scopes that had been opened. -/
theorem scope_le_of_mem (h : d ∈ declarations past) : d.scope ≤ past.length := by
  fun_induction declarations past with
  | case1 => cases h
  | case2 x symbol past t hok ih =>
      rcases List.mem_append.mp h with h | h
      · exact Nat.le_succ_of_le (ih h)
      · rw [List.mem_singleton] at h
        subst h
        exact Nat.le_succ_of_le (scopes_le _ (innermost_mem past))
  | case3 x symbol past e he ih => exact Nat.le_succ_of_le (ih h)
  | case4 call past hcall ih => exact Nat.le_succ_of_le (ih h)

/-- Nothing was marked that had not been declared. -/
theorem mark?_of_fresh (h : ∀ d' ∈ declarations past, d'.key ≠ d.key) : mark? d past = none := by
  fun_induction mark? d past with
  | case1 => rfl
  | case2 x b past hnear =>
      obtain ⟨d', hd', hkey⟩ := Option.map_eq_some_iff.mp hnear
      exact absurd hkey (h d' (declared_eq_some (nearest_eq_some hd').1).1)
  | case3 x b past hnear ih => exact ih h
  | case4 call past hcall ih =>
      refine ih (fun d' hd' => h d' ?_)
      cases call with
      | declare x symbol =>
          unfold declarations
          cases (table past).declare x symbol with
          | ok t => exact List.mem_append_left _ hd'
          | error e => exact hd'
      | _ => exact hd'

/-- Looking a name up in a scope finds its declaration. -/
theorem find?_scope (past : History ρ) (m : Nat) (x : String) :
    (scope past m).find? x = (declared past m x).map (symbolOf past) := by
  have hlookup : ∀ ds : List (Declaration ρ),
      List.lookup x (ds.map (fun d => (d.name, symbolOf past d))) =
        (ds.find? (fun d => d.name = x)).map (symbolOf past) := by
    intro ds
    induction ds with
    | nil => rfl
    | cons d ds ih =>
        rw [List.map_cons, List.lookup_cons, List.find?_cons, ih]
        by_cases hx : d.name = x
        · simp [hx]
        · simp [hx, beq_eq_false_iff_ne.mpr (Ne.symm hx)]
  unfold scope Scope.find? declared
  rw [hlookup, List.find?_filter]
  congr 2
  funext d
  simp

/-- A declaration that succeeds is the last of the innermost scope, and carries the mark that it was
    made with. Its name and scope are new together. -/
theorem scope_declare {t : Table ρ} (hok : (table past).declare x symbol = .ok t)
    (hnew : declared past (innermost past) x = none) (m : Nat) :
    scope (.declare x symbol :: past) m =
      if m = innermost past then (scope past m).add x symbol else scope past m := by
  have hdecls : declarations (.declare x symbol :: past) =
      declarations past ++ [⟨innermost past, x, symbol⟩] := by
    rw [declarations, hok]
  have hnone : mark? ⟨innermost past, x, symbol⟩ past = none := by
    refine mark?_of_fresh (fun d hd hkey => ?_)
    obtain ⟨hscope, hname⟩ := Prod.mk.inj hkey
    exact declared_eq_none.mp hnew d hd hscope hname
  have hsame : symbolOf (.declare x symbol :: past) = symbolOf past := rfl
  have hsymbol : symbolOf past ⟨innermost past, x, symbol⟩ = symbol := by
    unfold symbolOf
    rw [hnone]
    rfl
  unfold scope
  rw [hdecls, List.filter_append, hsame]
  by_cases hm : m = innermost past
  · subst hm
    simp [Scope.add, hsymbol]
  · simp [hm, Ne.symm hm]

/-- Setting a mark changes the nearest declaration, and no other one of its scope or of another scope. -/
theorem scope_update {b : Bool} (hnear : nearest past x = some d)
    (honly : ∀ d' ∈ declarations past, d'.scope = d.scope → d'.name = d.name → d' = d) (m : Nat) :
    scope (.update x (some b) :: past) m =
      if m = d.scope then (scope past m).modify x (·.mark (some b)) else scope past m := by
  have hx : d.name = x := (declared_eq_some (nearest_eq_some hnear).1).2.2
  have hother : ∀ d', d'.key ≠ d.key →
      symbolOf (.update x (some b) :: past) d' = symbolOf past d' := by
    intro d' hne
    have hnot : (nearest past x).map Declaration.key ≠ some d'.key := by
      rw [hnear]
      exact fun he => hne (Option.some.inj he).symm
    unfold symbolOf
    rw [mark?, if_neg hnot]
  have hself : symbolOf (.update x (some b) :: past) d = (symbolOf past d).mark (some b) := by
    unfold symbolOf
    rw [mark?, hnear, Option.map_some, if_pos rfl]
    rfl
  unfold scope Scope.modify
  rw [show declarations (.update x (some b) :: past) = declarations past from rfl]
  split
  · next hm =>
      rw [List.map_map]
      refine List.map_congr_left (fun d' hd' => ?_)
      obtain ⟨hmem, hscope⟩ := List.mem_filter.mp hd'
      have hscope : d'.scope = d.scope := by simpa [hm] using hscope
      by_cases hd : d' = d
      · subst hd
        simp [hself, hx]
      · have hname : d'.name ≠ x := fun he => hd (honly d' hmem hscope (he.trans hx.symm))
        have hkey : d'.key ≠ d.key := fun he => hname ((Prod.mk.inj he).2.trans hx)
        simp [hother d' hkey, hname]
  · next hm =>
      refine List.map_congr_left (fun d' hd' => ?_)
      have hscope : d'.scope = m := by simpa using (List.mem_filter.mp hd').2
      rw [hother d' (fun he => hm (hscope.symm.trans (Prod.mk.inj he).1))]

end Steps

/-! ## Agreement -/

/-- The table holds the open scopes with their contents, and no name was declared twice in a scope. -/
structure Agrees (past : History ρ) : Prop where
  table : table past = ⟨(inner past).map (scope past), scope past 0⟩
  unique : ∀ d ∈ declarations past, ∀ d' ∈ declarations past,
    d'.scope = d.scope → d'.name = d.name → d' = d

namespace Agrees

variable {past : History ρ} {x : String} {symbol : Symbol ρ} {d : Declaration ρ}

theorem scopes (h : Agrees past) : (History.table past).scopes = (scopes past).map (scope past) := by
  rw [h.table]
  simp [Table.scopes, History.scopes]

theorem innermost (h : Agrees past) :
    (History.table past).innermost = scope past (innermost past) := by
  rw [h.table]
  unfold Table.innermost History.innermost
  cases inner past <;> rfl

/-- The nearest symbol of a name is that of its nearest declaration. -/
theorem lookup? (h : Agrees past) (x : String) :
    (History.table past).lookup? x = (nearest past x).map (symbolOf past) := by
  unfold Table.lookup? nearest
  rw [h.scopes, List.findSome?_map, List.map_findSome?]
  congr 1
  funext m
  exact find?_scope past m x

theorem enter (h : Agrees past) : Agrees (.enter :: past) := by
  refine ⟨?_, h.unique⟩
  have hempty : scope past (past.length + 1) = [] := by
    unfold scope
    rw [List.map_eq_nil_iff, List.filter_eq_nil_iff]
    intro d hd
    have hle := scope_le_of_mem hd
    simp only [decide_eq_true_eq]
    omega
  show (History.table past).enter = ⟨scope past (past.length + 1) :: _, _⟩
  rw [h.table, hempty]
  rfl

theorem exit (h : Agrees past) : Agrees (.exit :: past) := by
  refine ⟨?_, h.unique⟩
  show (History.table past).step .exit = ⟨(inner past).tail.map (scope past), scope past 0⟩
  rw [Table.step_exit, h.table]
  cases inner past <;> rfl

/-- A table with the right scopes is the right one. -/
theorem of_scopes {call : TableCall ρ}
    (htable : (History.table (call :: past)).scopes =
      (History.scopes (call :: past)).map (scope (call :: past)))
    (hunique : ∀ d ∈ declarations (call :: past), ∀ d' ∈ declarations (call :: past),
      d'.scope = d.scope → d'.name = d.name → d' = d) : Agrees (call :: past) := by
  refine ⟨Table.scopes_inj (htable.trans ?_), hunique⟩
  simp [Table.scopes, History.scopes]

/-- Agreement is kept by a declaration that succeeds. -/
theorem declare_ok {t : Table ρ} (h : Agrees past)
    (hok : (History.table past).declare x symbol = .ok t) : Agrees (.declare x symbol :: past) := by
  obtain ⟨hfree, ht⟩ := Table.declare_eq_ok.mp hok
  have hnew : declared past (History.innermost past) x = none := by
    rw [h.innermost, find?_scope] at hfree
    exact Option.map_eq_none_iff.mp hfree
  have hscope := scope_declare hok hnew
  obtain ⟨outer, houter⟩ := scopes_eq_cons past
  -- only the innermost scope changes, since the others have other numbers
  have hrest : ∀ m ∈ outer, scope (.declare x symbol :: past) m = scope past m := by
    intro m hm
    have hdesc := scopes_descending past
    rw [houter, List.pairwise_cons] at hdesc
    have hlt := hdesc.1 m hm
    rw [hscope, if_neg (by omega)]
  refine of_scopes ?_ ?_
  · have hstep : History.table (.declare x symbol :: past) = t := by
      show (History.table past).step (.declare x symbol) = t
      rw [Table.step_declare, hok]
      rfl
    have hsame : History.scopes (.declare x symbol :: past) = History.scopes past := rfl
    rw [hstep, ht, Table.scopes_setInnermost, h.scopes, h.innermost, hsame, houter, List.map_cons,
      List.map_cons, List.tail_cons, List.map_congr_left hrest, hscope, if_pos rfl]
  · have hdecls : declarations (.declare x symbol :: past) =
        declarations past ++ [⟨History.innermost past, x, symbol⟩] := by
      rw [declarations, hok]
    have hfresh := declared_eq_none.mp hnew
    rw [hdecls]
    intro d hd d' hd' hs hx
    rcases List.mem_append.mp hd with hd | hd <;> rcases List.mem_append.mp hd' with hd' | hd'
    · exact h.unique d hd d' hd' hs hx
    · rw [List.mem_singleton] at hd'
      subst hd'
      exact absurd hx.symm (hfresh d hd hs.symm)
    · rw [List.mem_singleton] at hd
      subst hd
      exact absurd hx (hfresh d' hd' hs)
    · rw [List.mem_singleton] at hd hd'
      rw [hd, hd']

/-- Agreement is kept by a declaration in any case. -/
theorem declare (h : Agrees past) (x : String) (symbol : Symbol ρ) :
    Agrees (.declare x symbol :: past) := by
  cases hdecl : (History.table past).declare x symbol with
  | ok t => exact h.declare_ok hdecl
  | error e =>
      have hdecls : declarations (.declare x symbol :: past) = declarations past := by
        rw [declarations, hdecl]
      have hscope : scope (.declare x symbol :: past) = scope past := by
        funext m
        unfold scope
        rw [hdecls]
        rfl
      refine ⟨?_, by rw [hdecls]; exact h.unique⟩
      show (History.table past).step (.declare x symbol) = _
      rw [Table.step_declare, hdecl, hscope]
      exact h.table

/-- The change of the table goes to the scope of the nearest declaration. -/
theorem modifyFirst_scopes {b : Bool} (h : Agrees past) (hnear : nearest past x = some d)
    {ms : List Nat} (hdesc : ms.Pairwise (· > ·))
    (hfirst : ms.findSome? (fun m => declared past m x) = some d) :
    Table.modifyFirst x (·.mark (some b)) (ms.map (scope past)) =
      ms.map (scope (.update x (some b) :: past)) := by
  have hd := (nearest_eq_some hnear).1
  have hscope := scope_update (b := b) hnear (h.unique d (declared_eq_some hd).1)
  induction ms with
  | nil => cases hfirst
  | cons m ms ih =>
      rw [List.pairwise_cons] at hdesc
      rw [List.map_cons, List.map_cons, Table.modifyFirst, find?_scope, hscope m]
      rw [List.findSome?_cons] at hfirst
      cases hm : declared past m x with
      | some d' =>
          rw [hm] at hfirst
          cases hfirst
          have hin : m = d.scope := (declared_eq_some hm).2.1.symm
          have hrest : ∀ n ∈ ms, scope (.update x (some b) :: past) n = scope past n := by
            intro n hn
            have hlt := hdesc.1 n hn
            rw [hscope, if_neg (by omega)]
          rw [if_pos hin, List.map_congr_left hrest]
          rfl
      | none =>
          rw [hm] at hfirst
          have hout : m ≠ d.scope := by
            rintro rfl
            rw [hd] at hm
            cases hm
          rw [if_neg hout, ← ih hdesc.2 hfirst]
          rfl

/-- Agreement is kept by an update in any case. -/
theorem update (h : Agrees past) (x : String) (assigned : Option Bool) :
    Agrees (.update x assigned :: past) := by
  have hstep : History.table (.update x assigned :: past) =
      ((History.table past).update x assigned).toOption.getD (History.table past) :=
    Table.step_update _ x assigned
  cases assigned with
  | none =>
      -- an update without a mark leaves the table as it is, whether or not it succeeds
      refine ⟨hstep.trans (Eq.trans ?_ h.table), h.unique⟩
      cases hup : (History.table past).update x none with
      | error e => rfl
      | ok t =>
          obtain ⟨_, rfl⟩ := Table.update_eq_ok.mp hup
          exact Table.modify_mark_none _ x
  | some b =>
      cases hnear : nearest past x with
      | none =>
          have hscope : scope (.update x (some b) :: past) = scope past := by
            funext m
            unfold scope symbolOf
            simp [mark?, hnear, declarations]
          have hfail : (History.table past).update x (some b) = .error (.notFound x) := by
            unfold Table.update
            rw [h.lookup?, hnear]
            rfl
          refine ⟨?_, h.unique⟩
          rw [hstep, hfail, hscope]
          exact h.table
      | some d =>
          have hok : (History.table past).update x (some b) =
              .ok ((History.table past).modify x (·.mark (some b))) := by
            refine Table.update_eq_ok.mpr ⟨?_, rfl⟩
            rw [h.lookup?, hnear]
            rfl
          refine of_scopes ?_ h.unique
          rw [hstep, hok]
          show ((History.table past).modify x (·.mark (some b))).scopes = _
          rw [Table.scopes_modify, h.scopes]
          exact h.modifyFirst_scopes hnear (scopes_descending past) hnear

end Agrees

/-- **The table agrees with its history**: it holds the open scopes, and in each of them the
    declarations that succeeded there, with the marks that they were given. -/
theorem agrees (past : History ρ) : Agrees past := by
  induction past with
  | nil => exact ⟨rfl, fun d hd => by cases hd⟩
  | cons call past ih =>
      cases call with
      | enter => exact ih.enter
      | exit => exact ih.exit
      | declare x symbol => exact ih.declare x symbol
      | update x assigned => exact ih.update x assigned
      | lookup x => exact ⟨ih.table, ih.unique⟩
      | lookupLocal x => exact ⟨ih.table, ih.unique⟩

theorem depth_table (past : History ρ) : (table past).depth = (scopes past).length := by
  rw [(agrees past).table]
  simp [Table.depth, scopes]

theorem lookupLocal?_table (past : History ρ) (x : String) :
    (table past).lookupLocal? x = (declared past (innermost past) x).map (symbolOf past) := by
  unfold Table.lookupLocal?
  rw [(agrees past).innermost, find?_scope]

/-- A name can be declared if it was not declared in the innermost scope before. -/
theorem declare_succeeds_iff (past : History ρ) (x : String) (symbol : Symbol ρ) :
    (∃ t, (table past).declare x symbol = .ok t) ↔
      ∀ d ∈ declarations past, d.scope = innermost past → d.name ≠ x := by
  rw [← declared_eq_none]
  simp only [Table.declare_eq_ok, (agrees past).innermost, find?_scope, Option.map_eq_none_iff]
  exact ⟨fun ⟨_, h, _⟩ => h, fun h => ⟨_, h, rfl⟩⟩

/-- A name can be marked if one of the open scopes declares it. -/
theorem update_succeeds_iff (past : History ρ) (x : String) (assigned : Option Bool) :
    (∃ t, (table past).update x assigned = .ok t) ↔
      ∃ d ∈ declarations past, d.name = x ∧ d.scope ∈ scopes past := by
  simp only [Table.update_eq_ok, (agrees past).lookup?, Option.isSome_map]
  constructor
  · rintro ⟨_, hsome, _⟩
    obtain ⟨d, hd⟩ := Option.isSome_iff_exists.mp hsome
    obtain ⟨hdecl, hopen⟩ := nearest_eq_some hd
    obtain ⟨hmem, _, hx⟩ := declared_eq_some hdecl
    exact ⟨d, hmem, hx, hopen⟩
  · rintro ⟨d, hmem, hx, hopen⟩
    refine ⟨_, ?_, rfl⟩
    -- a scope that declares the name ends the search at the latest
    rw [nearest, List.isSome_findSome?, List.any_eq_true]
    refine ⟨d.scope, hopen, ?_⟩
    rw [declared, List.isSome_find?, List.any_eq_true]
    exact ⟨d, hmem, by simp [hx]⟩

/-- **A table agrees with its history.** Whatever calls were made on a new table of symbols of any kind:
    there is always an open scope; the innermost one can be closed unless it is the global one;
    a name can be declared exactly if it was not declared in the innermost scope before, and marked
    exactly if an open scope declares it; a call that stops changes nothing.
    A name has the symbol of its declaration in the innermost scope that has one, with the latest mark
    that was set while this declaration was the nearest; in the innermost scope alone likewise. The
    global symbols are those declared in the global scope, in the order of declaration. -/
theorem table_agrees_with_history (past : History ρ) :
    (table past).depth = (scopes past).length ∧ 1 ≤ (table past).depth ∧
    ((table past).exit? = none ↔ (table past).depth = 1) ∧
    (∀ x symbol, (∃ t, (table past).declare x symbol = .ok t) ↔
      ∀ d ∈ declarations past, d.scope = innermost past → d.name ≠ x) ∧
    (∀ x assigned, (∃ t, (table past).update x assigned = .ok t) ↔
      ∃ d ∈ declarations past, d.name = x ∧ d.scope ∈ scopes past) ∧
    (∀ call stop t, TableCall.run call (table past) = .error stop t →
      t = table past ∧ table (call :: past) = table past) ∧
    ((table past).exit? = none → table (.exit :: past) = table past) ∧
    (∀ x symbol e, (table past).declare x symbol = .error e →
      table (.declare x symbol :: past) = table past) ∧
    (∀ x assigned e, (table past).update x assigned = .error e →
      table (.update x assigned :: past) = table past) ∧
    (∀ x, (table past).lookup? x = (nearest past x).map (symbolOf past)) ∧
    (∀ x, (table past).lookupLocal? x =
      (declared past (innermost past) x).map (symbolOf past)) ∧
    (table past).globals =
      ((declarations past).filter (·.scope = 0)).map (fun d => (d.name, symbolOf past d)) := by
  have hagrees := agrees past
  refine ⟨depth_table past, Table.depth_pos _, ?_, declare_succeeds_iff past,
    update_succeeds_iff past, ?_, ?_, ?_, ?_, hagrees.lookup?, lookupLocal?_table past, ?_⟩
  · unfold Table.exit? Table.depth
    cases (table past).locals <;> simp
  · intro call stop t h
    exact ⟨TableCall.state_of_error h, Table.step_of_error h⟩
  · intro h
    have hstop : TableCall.exit.run (table past) = .error .globalScope (table past) := by
      rw [TableCall.run_exit, h]
    exact Table.step_of_error hstop
  · intro x symbol e h
    have hstop : (TableCall.declare x symbol).run (table past) = .error (.refused e) (table past) := by
      rw [TableCall.run_declare, h]
    exact Table.step_of_error hstop
  · intro x assigned e h
    have hstop : (TableCall.update x assigned).run (table past) = .error (.refused e) (table past) := by
      rw [TableCall.run_update, h]
    exact Table.step_of_error hstop
  · rw [hagrees.table]
    rfl

end History

end TinyPascal
