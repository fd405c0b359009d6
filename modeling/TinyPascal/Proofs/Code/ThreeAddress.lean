import Mathlib.Data.List.Basic
import TinyPascal.Proofs.Code.Legible

/-!
# `Proofs.Code.ThreeAddress` — what three-address text tells about code

Three-address text quotes nothing: words stand between blanks, and a variable may be called `call`, `goto`
or `ifnot`. A call and a print take several lines, and the end of the main section reads like a return.
Of the code of a source text it still tells all but the declarations of variables, the parameters of
sections and the types of literals: **code can be read back off its three-address text**.

## Contents
- **What is shown.** `Instr.shown`.
- **Lines.** `TacLine`: a line before it is written. `TacLine.ofWords_words`: which line it is can be told
  from its words.
- **Texts.** `Solid`: words without blanks. `wordsOf_intercalate`, `TacLine.ofText_text`.
- **Code.** `readCode` puts instructions together from lines, with the section that they stand in and the
  arguments handed over so far. `readCode_lines`: one step; `readCode_body`, `readCode_sections`: a run.
- **Unambiguity.** `readTac_renderTac`, `renderTac_unambiguous`.
-/

namespace TinyPascal

/-! ## What is shown -/

/-- The instruction without what three-address text leaves out: declarations of variables, the parameters
    of a section and the type of a literal. -/
def Instr.shown : Instr → Option Instr
  | .decl _ _ => none
  | .sectionStart kind name _ result => some (.sectionStart kind name [] result)
  | .const target value => some (.const target (.int value.value))
  | i => some i

theorem Instr.tacLines_shown (i : Instr) : i.shown.toList.flatMap tacLines = i.tacLines := by
  cases i with
  | sectionStart kind name params result => cases kind <;> rfl
  | decl names ty => rfl
  | const target value => rfl
  | _ => exact List.append_nil _

/-- The text of code depends on what is shown of it. -/
theorem renderTac_shown (code : List Instr) : renderTac (code.filterMap Instr.shown) = renderTac code := by
  unfold renderTac
  rw [List.filterMap_eq_flatMap_toList, List.flatMap_assoc]
  exact congrArg unlines (List.flatMap_congr fun i _ => i.tacLines_shown)

/-! ## Lines -/

/-- A line of three-address text. -/
inductive TacLine where
  | entry
  | func (name : String) (result : Option Ty)
  | endfunc
  | const (target : Place) (value : Int)
  | assign (target arg : Place)
  | binary (op : BinOp) (target left right : Place)
  | not (target arg : Place)
  | param (arg : Place)
  | call (target : Place) (callee : String) (count : Nat)
  | print
  | ret (arg : Option Place)
  | label (l : Label)
  | goto (l : Label)
  | ifGoto (cond : Place) (l : Label)
  | ifNotGoto (cond : Place) (l : Label)
deriving DecidableEq, Repr

/-- The type with the given name. -/
def Ty.ofName (name : String) : Ty :=
  if name = "integer" then .integer else .boolean

namespace TacLine

/-- The words of a line. -/
def words : TacLine → List String
  | .entry => [".entry"]
  | .func name result => [".func", name, "returns", (result.map Ty.name).getD "void"]
  | .endfunc => [".endfunc"]
  | .const target value => [target, ":=", value.repr]
  | .assign target arg => [target, ":=", arg]
  | .binary op target left right => [target, ":=", left, op.symbol, right]
  | .not target arg => [target, ":=", "not", arg]
  | .param arg => ["param", arg]
  | .call target callee count => [target, ":=", "call", callee ++ ",", count.repr]
  | .print => ["call", "writeln,", "1"]
  | .ret arg => "return" :: arg.toList
  | .label l => [l ++ ":"]
  | .goto l => ["goto", l]
  | .ifGoto cond l => ["if", cond, "goto", l]
  | .ifNotGoto cond l => ["ifnot", cond, "goto", l]

/-- The line as a text. -/
def text (line : TacLine) : String :=
  " ".intercalate line.words

/-- The names on a line. -/
def names : TacLine → List String
  | .entry | .endfunc | .print => []
  | .func name _ => [name]
  | .const target _ => [target]
  | .assign target arg | .not target arg => [target, arg]
  | .binary _ target left right => [target, left, right]
  | .param arg => [arg]
  | .call target callee _ => [target, callee]
  | .ret arg => arg.toList
  | .label l | .goto l => [l]
  | .ifGoto cond l | .ifNotGoto cond l => [cond, l]

/-- The line with the given words. How many there are says most about it, and fixed words the rest; where
    a name stands, its spelling does not matter. -/
def ofWords : List String → Option TacLine
  | [w] =>
    if w = ".entry" then some .entry
    else if w = ".endfunc" then some .endfunc
    else if w = "return" then some (.ret none)
    else some (.label (String.ofList w.toList.dropLast))
  | [keyword, name] =>
    if keyword = "param" then some (.param name)
    else if keyword = "goto" then some (.goto name)
    else some (.ret (some name))
  | [target, mid, arg] =>
    if mid = "writeln," then some .print
    else if isWord arg then some (.assign target arg)
    else some (.const target (readInt arg))
  | [first, second, mid, last] =>
    if mid = "not" then some (.not first last)
    else if mid = "returns" then
      some (.func second (if last = "void" then none else some (.ofName last)))
    else if first = "if" then some (.ifGoto second last)
    else some (.ifNotGoto second last)
  | [target, _, left, mid, right] =>
    match BinOp.ofSymbol? mid with
    | some op => some (.binary op target left right)
    | none => some (.call target (String.ofList mid.toList.dropLast) (readInt right).toNat)
  | _ => none

/-- A written number is no word. -/
theorem isWord_repr (n : Int) : isWord n.repr = false := by
  rw [Bool.eq_false_iff]
  intro hword
  obtain ⟨c, cs, hlist, hc, _⟩ := isWord_iff.mp hword
  have hmem : c ∈ n.repr.toList := by
    rw [hlist]
    exact List.mem_cons_self
  rcases mem_repr hmem with rfl | hdigit
  · exact absurd hc (by decide)
  · rw [Lexeme.isDigit_of_isWordStart hc] at hdigit
    cases hdigit

/-- No operator ends with a comma. -/
theorem ofSymbol?_comma (callee : String) : BinOp.ofSymbol? (callee ++ ",") = none := by
  unfold BinOp.ofSymbol?
  rw [List.find?_eq_none]
  intro op _ hsymbol
  have hlast := congrArg (fun w => w.toList.getLast?) (of_decide_eq_true hsymbol)
  cases op <;> simp [BinOp.symbol] at hlast

/-- **A line can be told from its words**, if its names are words. -/
theorem ofWords_words {line : TacLine} (h : ∀ x ∈ line.names, isWord x = true) :
    ofWords line.words = some line := by
  cases line with
  | func name result =>
      cases result with
      | none => rfl
      | some ty => cases ty <;> rfl
  | const target value => simp [words, ofWords, isWord_repr, readInt_repr]
  | assign target arg =>
      have harg : isWord arg = true := h arg (by simp [names])
      simp [words, ofWords, harg]
  | binary op target left right => simp [words, ofWords, BinOp.ofSymbol?_symbol]
  | call target callee count =>
      have hcount : readInt count.repr = count := readInt_repr count
      simp [words, ofWords, ofSymbol?_comma, hcount]
  | label l =>
      -- the other words that stand alone on a line do not end with a colon
      have hne : ∀ w : String, w.toList.getLast? ≠ some ':' → l ++ ":" ≠ w := by
        rintro w hw rfl
        exact hw (by simp)
      simp [words, ofWords, hne]
  | ret arg => cases arg <;> rfl
  | _ => rfl

end TacLine

/-- The lines of an instruction, before they are written. -/
def Instr.lines : Instr → List TacLine
  | .decl _ _ => []
  | .sectionStart .main _ _ _ => [.entry]
  | .sectionStart .procedure name _ _ => [.func (name.getD "") none]
  | .sectionStart .function name _ result => [.func (name.getD "") (some (result.getD .integer))]
  | .sectionEnd .main _ => [.ret none]
  | .sectionEnd .procedure _ | .sectionEnd .function _ => [.endfunc]
  | .const target value => [.const target value.value]
  | .assign target arg => [.assign target arg]
  | .binary op target left right => [.binary op target left right]
  | .not target arg => [.not target arg]
  | .call target callee args => args.map .param ++ [.call target callee args.length]
  | .print arg => [.param arg, .print]
  | .ret arg => [.ret arg]
  | .label l => [.label l]
  | .goto l => [.goto l]
  | .ifGoto cond l => [.ifGoto cond l]
  | .ifNotGoto cond l => [.ifNotGoto cond l]

/-- The text of a line, compared character by character: blanks stand inside the fixed parts of lines. -/
theorem TacLine.singleton_text {line : TacLine} {text : String} (h : text.toList = line.text.toList) :
    [text] = [line].map TacLine.text :=
  congrArg (fun t => [t]) (String.toList_inj.mp h)

theorem Instr.tacLines_eq (i : Instr) : i.tacLines = i.lines.map TacLine.text := by
  cases i with
  | decl names ty => rfl
  | sectionStart kind name params result =>
      cases kind <;> exact TacLine.singleton_text (by simp [TacLine.text, TacLine.words])
  | sectionEnd kind name => cases kind <;> rfl
  | call target callee args =>
      have hcall : [target ++ " := call " ++ callee ++ ", " ++ args.length.repr] =
          [TacLine.call target callee args.length].map TacLine.text :=
        TacLine.singleton_text (by simp [TacLine.text, TacLine.words])
      simp only [tacLines, lines, List.map_append, ← hcall, List.map_map]
      rfl
  | print arg => rfl
  | ret arg => cases arg <;> exact TacLine.singleton_text (by simp [TacLine.text, TacLine.words])
  | _ => exact TacLine.singleton_text (by simp [TacLine.text, TacLine.words])

/-! ## Texts -/

/-- A word without blanks and line feeds. -/
def Solid (w : String) : Prop :=
  ∀ c ∈ w.toList, Lexeme.isBlank c = false

instance (w : String) : Decidable (Solid w) :=
  List.decidableBAll (fun c => Lexeme.isBlank c = false) w.toList

theorem solid_append {a b : String} (ha : Solid a) (hb : Solid b) : Solid (a ++ b) := by
  unfold Solid
  rw [String.toList_append]
  exact List.forall_mem_append.mpr ⟨ha, hb⟩

theorem solid_of_isWord {x : String} (h : isWord x = true) : Solid x := by
  obtain ⟨c, cs, hlist, hc, hcs⟩ := isWord_iff.mp h
  unfold Solid
  rw [hlist]
  exact List.forall_mem_cons.mpr ⟨Lexeme.isBlank_of_class hc (by decide),
    fun d hd => Lexeme.isBlank_of_class (hcs d hd) (by decide)⟩

theorem solid_repr (n : Int) : Solid n.repr := by
  intro c hc
  rcases mem_repr hc with rfl | hdigit
  · decide
  · exact Lexeme.isBlank_of_class hdigit (by decide)

/-- The words of a line are solid. -/
theorem TacLine.solid_words {line : TacLine} (h : ∀ x ∈ line.names, isWord x = true) :
    ∀ w ∈ line.words, Solid w := by
  have hnames : ∀ x ∈ line.names, Solid x := fun x hx => solid_of_isWord (h x hx)
  clear h
  cases line with
  | func name result =>
      simp only [words, names, List.forall_mem_cons] at hnames ⊢
      refine ⟨by decide, hnames.1, by decide, ?_, hnames.2⟩
      cases result with
      | none => decide
      | some ty => cases ty <;> decide
  | const target value =>
      simp only [words, names, List.forall_mem_cons] at hnames ⊢
      exact ⟨hnames.1, by decide, solid_repr value, hnames.2⟩
  | assign target arg =>
      simp only [words, names, List.forall_mem_cons] at hnames ⊢
      exact ⟨hnames.1, by decide, hnames.2⟩
  | binary op target left right =>
      simp only [words, names, List.forall_mem_cons] at hnames ⊢
      exact ⟨hnames.1, by decide, hnames.2.1, by cases op <;> decide, hnames.2.2⟩
  | not target arg =>
      simp only [words, names, List.forall_mem_cons] at hnames ⊢
      exact ⟨hnames.1, by decide, by decide, hnames.2⟩
  | call target callee count =>
      simp only [words, names, List.forall_mem_cons] at hnames ⊢
      exact ⟨hnames.1, by decide, by decide, solid_append hnames.2.1 (by decide), solid_repr count,
        hnames.2.2⟩
  | label l =>
      simp only [words, names, List.forall_mem_cons] at hnames ⊢
      exact ⟨solid_append hnames.1 (by decide), hnames.2⟩
  | ifGoto cond l | ifNotGoto cond l =>
      simp only [words, names, List.forall_mem_cons] at hnames ⊢
      exact ⟨by decide, hnames.1, by decide, hnames.2⟩
  | param arg | ret arg | goto l => exact List.forall_mem_cons.mpr ⟨by decide, hnames⟩
  | entry | endfunc | print => decide

/-- The words of a text that stand between blanks. -/
def wordsOf (text : String) : List String :=
  (text.toList.splitOn ' ').map String.ofList

/-- **Words can be read back** if none of them holds a blank. -/
theorem wordsOf_intercalate {ws : List String} (h : ∀ w ∈ ws, Solid w) (hne : ws ≠ []) :
    wordsOf (" ".intercalate ws) = ws := by
  unfold wordsOf
  have hlist : (" ".intercalate ws).toList = [' '].intercalate (ws.map String.toList) :=
    String.toList_intercalate
  rw [hlist, List.splitOn_intercalate]
  · simp
  · intro piece hpiece
    obtain ⟨w, hw, rfl⟩ := List.mem_map.mp hpiece
    exact fun hblank => absurd (h w hw ' ' hblank) (by decide)
  · simpa using hne

/-- Solid words stand on one line. -/
theorem newline_notMem_intercalate {ws : List String} (h : ∀ w ∈ ws, Solid w) :
    '\n' ∉ (" ".intercalate ws).toList := by
  have hone : ∀ {w : String}, Solid w → '\n' ∉ w.toList := by
    intro w hw hmem
    exact absurd (hw '\n' hmem) (by decide)
  induction ws with
  | nil => simp
  | cons w ws ih =>
      obtain ⟨hw, hws⟩ := List.forall_mem_cons.mp h
      cases ws with
      | nil => simpa using hone hw
      | cons v vs =>
          rw [String.intercalate_cons_cons, String.toList_append, String.toList_append,
            List.mem_append, List.mem_append, not_or, not_or]
          exact ⟨⟨hone hw, by decide⟩, ih hws⟩

/-- The line that is written as the given text. -/
def TacLine.ofText (text : String) : Option TacLine :=
  ofWords (wordsOf text)

theorem TacLine.ofText_text {line : TacLine} (h : ∀ x ∈ line.names, isWord x = true) :
    ofText line.text = some line := by
  have hne : line.words ≠ [] := by cases line <;> simp [words]
  unfold ofText text
  rw [wordsOf_intercalate (solid_words h) hne, ofWords_words h]

/-! ## Code -/

/-- What is known when lines are read: the section that they stand in, and the arguments that have been
    handed over since the last call. -/
structure Reader where
  kind : SectionKind
  name : Option String
  args : List Place

namespace TacLine

/-- The instructions that end with a line. -/
def instrs (r : Reader) : TacLine → List Instr
  | .entry => [.sectionStart .main none [] none]
  | .func name result =>
    [.sectionStart (if result.isSome then .function else .procedure) (some name) [] result]
  | .endfunc => [.sectionEnd r.kind r.name]
  | .const target value => [.const target (.int value)]
  | .assign target arg => [.assign target arg]
  | .binary op target left right => [.binary op target left right]
  | .not target arg => [.not target arg]
  | .param _ => []
  | .call target callee _ => [.call target callee r.args]
  | .print => r.args.map .print
  -- the main section is not left by returns, so one that stands there ends it
  | .ret none => if r.kind = .main then [.sectionEnd .main r.name] else [.ret none]
  | .ret (some arg) => [.ret (some arg)]
  | .label l => [.label l]
  | .goto l => [.goto l]
  | .ifGoto cond l => [.ifGoto cond l]
  | .ifNotGoto cond l => [.ifNotGoto cond l]

/-- What is known behind a line. -/
def next (r : Reader) : TacLine → Reader
  | .entry => ⟨.main, none, []⟩
  | .func name result => ⟨if result.isSome then .function else .procedure, some name, []⟩
  | .param arg => { r with args := r.args ++ [arg] }
  | _ => { r with args := [] }

end TacLine

/-- The instructions that lines are written for. -/
def readCode (r : Reader) : List TacLine → List Instr
  | [] => []
  | line :: rest => line.instrs r ++ readCode (line.next r) rest

variable {kind : SectionKind} {name : Option String}

theorem readCode_params (args more : List Place) (rest : List TacLine) :
    readCode ⟨kind, name, args⟩ (more.map .param ++ rest) =
      readCode ⟨kind, name, args ++ more⟩ rest := by
  induction more generalizing args with
  | nil => simp
  | cons arg more ih =>
      show readCode ⟨kind, name, args ++ [arg]⟩ (more.map .param ++ rest) = _
      rw [ih, List.append_assoc]
      rfl

/-- **One step**: an instruction inside a section is read back off its lines. -/
theorem readCode_lines {i : Instr} (hplain : i.isPlain = true) (hi : i.Legible (kind == .main))
    (rest : List TacLine) :
    readCode ⟨kind, name, []⟩ (i.lines ++ rest) =
      i.shown.toList ++ readCode ⟨kind, name, []⟩ rest := by
  cases i with
  | decl names ty => cases hplain
  | sectionStart kind name params result => cases hplain
  | sectionEnd kind name => cases hplain
  | call target callee args =>
      show readCode _ (args.map .param ++ [.call target callee args.length] ++ rest) = _
      rw [List.append_assoc, readCode_params, List.nil_append]
      rfl
  | ret arg =>
      have hkind : kind ≠ .main := by
        rintro rfl
        cases hi.stays rfl
      cases arg with
      | none =>
          show (if kind = .main then _ else _) ++ _ = _
          rw [if_neg hkind]
          rfl
      | some arg => rfl
  | _ => rfl

/-- **A run of steps**: so is the body of a section. -/
theorem readCode_body {body : List Instr} (hplain : body.all Instr.isPlain = true)
    (hbody : LegibleCode (kind == .main) body) (rest : List TacLine) :
    readCode ⟨kind, name, []⟩ (body.flatMap Instr.lines ++ rest) =
      body.filterMap Instr.shown ++ readCode ⟨kind, name, []⟩ rest := by
  induction body with
  | nil => rfl
  | cons i body ih =>
      rw [List.all_cons, Bool.and_eq_true] at hplain
      obtain ⟨hi, hmore⟩ := List.forall_mem_cons.mp hbody
      rw [List.flatMap_cons, List.append_assoc, readCode_lines hplain.1 hi, ih hplain.2 hmore,
        List.filterMap_cons]
      cases i.shown <;> rfl

/-- A section is read back off its lines, whatever was read in front of it. -/
theorem readCode_section {sec : CodeSection} (h : sec.Legible) (r : Reader) (rest : List TacLine) :
    readCode r (sec.code.flatMap Instr.lines ++ rest) =
      sec.code.filterMap Instr.shown ++ readCode ⟨sec.kind, sec.name, []⟩ rest := by
  obtain ⟨kind, name, params, result, body⟩ := sec
  have hstart : ∀ more, readCode r ((Instr.sectionStart kind name params result).lines ++ more) =
      .sectionStart kind name [] result :: readCode ⟨kind, name, []⟩ more := by
    intro more
    rcases h.frame with ⟨rfl, rfl, rfl⟩ | ⟨x, _, rfl, hkind⟩
    · rfl
    · cases result <;> cases hkind <;> rfl
  have hend : readCode ⟨kind, name, []⟩ ((Instr.sectionEnd kind name).lines ++ rest) =
      .sectionEnd kind name :: readCode ⟨kind, name, []⟩ rest := by
    cases kind <;> rfl
  calc readCode r ((CodeSection.mk kind name params result body).code.flatMap Instr.lines ++ rest)
      = readCode r ((Instr.sectionStart kind name params result).lines ++
          (body.flatMap Instr.lines ++ ((Instr.sectionEnd kind name).lines ++ rest))) := by
        simp [CodeSection.code]
    _ = .sectionStart kind name [] result :: (body.filterMap Instr.shown ++
          .sectionEnd kind name :: readCode ⟨kind, name, []⟩ rest) := by
        rw [hstart, readCode_body h.plain h.body, hend]
    _ = _ := by simp [CodeSection.code, Instr.shown]

/-- A row of sections is read back. -/
theorem readCode_sections {secs : List CodeSection} (h : ∀ sec ∈ secs, sec.Legible) (r : Reader) :
    readCode r ((secs.flatMap CodeSection.code).flatMap Instr.lines) =
      (secs.flatMap CodeSection.code).filterMap Instr.shown := by
  induction secs generalizing r with
  | nil => rfl
  | cons sec secs ih =>
      obtain ⟨hsec, hsecs⟩ := List.forall_mem_cons.mp h
      rw [List.flatMap_cons, List.flatMap_append, readCode_section hsec, ih hsecs, List.filterMap_append]

/-! ## Unambiguity -/

/-- The names on the lines of an instruction are names of the instruction. -/
theorem names_of_mem_lines {i : Instr} (hplain : i.isPlain = true) {line : TacLine}
    (hline : line ∈ i.lines) {x : String} (hx : x ∈ line.names) : x ∈ i.names := by
  cases i with
  | decl names ty => cases hplain
  | sectionStart kind name params result => cases hplain
  | sectionEnd kind name => cases hplain
  | call target callee args =>
      rcases List.mem_append.mp hline with hline | hline
      · obtain ⟨arg, harg, rfl⟩ := List.mem_map.mp hline
        rw [List.mem_singleton.mp hx]
        exact List.mem_cons_of_mem _ (List.mem_cons_of_mem _ harg)
      · rw [List.mem_singleton.mp hline] at hx
        exact List.mem_append_left args hx
  | print arg =>
      simp only [Instr.lines, List.mem_cons, List.not_mem_nil, or_false] at hline
      rcases hline with rfl | rfl
      · exact hx
      · cases hx
  | _ =>
      rw [List.mem_singleton.mp hline] at hx
      exact hx

/-- The names on the lines of a legible section are words. -/
theorem CodeSection.Legible.isWord_lines {sec : CodeSection} (h : sec.Legible) :
    ∀ line ∈ sec.code.flatMap Instr.lines, ∀ x ∈ line.names, isWord x = true := by
  obtain ⟨kind, name, params, result, body⟩ := sec
  intro line hline x hx
  simp only [CodeSection.code, List.flatMap_cons, List.flatMap_append, List.flatMap_nil, List.append_nil,
    List.mem_append] at hline
  rcases hline with hline | hline | hline
  · rcases h.frame with ⟨rfl, rfl, rfl⟩ | ⟨y, hy, rfl, hkind⟩
    · rw [List.mem_singleton.mp hline] at hx
      cases hx
    · obtain ⟨shown, hshown⟩ : ∃ shown, (Instr.sectionStart kind (some y) params result).lines =
          [.func y shown] := by
        cases result <;> cases hkind <;> exact ⟨_, rfl⟩
      rw [hshown] at hline
      rw [List.mem_singleton.mp hline] at hx
      rw [List.mem_singleton.mp hx]
      exact hy
  · obtain ⟨i, hi, hline⟩ := List.mem_flatMap.mp hline
    have hplain : i.isPlain = true := List.all_eq_true.mp h.plain i hi
    exact (h.body i hi).words x (names_of_mem_lines hplain hline hx)
  · cases kind <;> rw [List.mem_singleton.mp hline] at hx <;> cases hx

/-- Three-address text is cut into lines and each line into words. -/
theorem lines_of_renderTac {code : List Instr}
    (h : ∀ line ∈ code.flatMap Instr.lines, ∀ x ∈ line.names, isWord x = true) :
    (linesOf (renderTac code)).filterMap TacLine.ofText = code.flatMap Instr.lines := by
  have htext : renderTac code = unlines ((code.flatMap Instr.lines).map TacLine.text) := by
    unfold renderTac
    rw [List.map_flatMap]
    exact congrArg unlines (List.flatMap_congr fun i _ => i.tacLines_eq)
  have hlines : linesOf (renderTac code) = (code.flatMap Instr.lines).map TacLine.text := by
    rw [htext]
    apply linesOf_unlines
    intro text htext
    obtain ⟨line, hline, rfl⟩ := List.mem_map.mp htext
    exact newline_notMem_intercalate (TacLine.solid_words (h line hline))
  rw [hlines, List.filterMap_map]
  have hread : ∀ line ∈ code.flatMap Instr.lines, TacLine.ofText line.text = some line :=
    fun line hline => TacLine.ofText_text (h line hline)
  exact (List.filterMap_congr hread).trans List.filterMap_some

/-- The code that a three-address text shows. -/
def readTac (text : String) : List Instr :=
  readCode ⟨.main, none, []⟩ ((linesOf text).filterMap TacLine.ofText)

theorem filterMap_shown_filter (code : List Instr) :
    (code.filter (fun i => !i.isDecl)).filterMap Instr.shown = code.filterMap Instr.shown := by
  rw [List.filterMap_filter]
  apply List.filterMap_congr
  intro i _
  cases i <;> rfl

/-- **Code can be read back off its three-address text.** -/
theorem readTac_renderTac {source : String} {code : List Instr} (h : compile source = .ok code) :
    readTac (renderTac code) = code.filterMap Instr.shown := by
  obtain ⟨secs, hsecs, hcode⟩ := legible_of_compile h
  have hwords : ∀ line ∈ (secs.flatMap CodeSection.code).flatMap Instr.lines,
      ∀ x ∈ line.names, isWord x = true := by
    intro line hline
    rw [List.flatMap_assoc] at hline
    obtain ⟨sec, hsec, hline⟩ := List.mem_flatMap.mp hline
    exact (hsecs sec hsec).isWord_lines line hline
  rw [← renderTac_shown, ← filterMap_shown_filter, hcode, renderTac_shown]
  unfold readTac
  rw [lines_of_renderTac hwords, readCode_sections hsecs]

/-- **The three-address text of compiled programs is unambiguous.** Two texts are equal exactly if the code
    is, but for declarations of variables, the parameters of sections and the types of literals. -/
theorem renderTac_unambiguous (source source' : String) (code code' : List Instr)
    (h : compile source = .ok code) (h' : compile source' = .ok code') :
    renderTac code = renderTac code' ↔ code.filterMap Instr.shown = code'.filterMap Instr.shown := by
  constructor
  · intro heq
    rw [← readTac_renderTac h, ← readTac_renderTac h', heq]
  · intro heq
    rw [← renderTac_shown code, heq, renderTac_shown]

/-- A program with names that look like parts of a text. -/
def wordy (ty value : String) : String :=
  "procedure call(goto:" ++ ty ++ ");begin return end;begin call(" ++ value ++ ")end."

/-- The code of such a program. -/
def wordyCode (ty : Ty) (value : Literal) : List Instr :=
  [.sectionStart .procedure (some "call") [("goto", ty)] none, .ret none,
   .sectionEnd .procedure (some "call"), .sectionStart .main none [] none, .const "t1" value,
   .call "t2" "call" ["t1"], .sectionEnd .main none]

/-- The type of a parameter and that of a literal do not show, and its value does. -/
theorem renderTac_unambiguous_wordy :
    compile (wordy "integer" "1") = .ok (wordyCode .integer (.int 1)) ∧
      compile (wordy "boolean" "true") = .ok (wordyCode .boolean (.bool true)) ∧
      compile (wordy "integer" "2") = .ok (wordyCode .integer (.int 2)) ∧
      renderTac (wordyCode .integer (.int 1)) = renderTac (wordyCode .boolean (.bool true)) ∧
      renderTac (wordyCode .integer (.int 1)) ≠ renderTac (wordyCode .integer (.int 2)) := by
  have hone : compile (wordy "integer" "1") = .ok (wordyCode .integer (.int 1)) :=
    Except.eq_ok_of_toOption (by decide +kernel)
  have htrue : compile (wordy "boolean" "true") = .ok (wordyCode .boolean (.bool true)) :=
    Except.eq_ok_of_toOption (by decide +kernel)
  have htwo : compile (wordy "integer" "2") = .ok (wordyCode .integer (.int 2)) :=
    Except.eq_ok_of_toOption (by decide +kernel)
  refine ⟨hone, htrue, htwo, (renderTac_unambiguous _ _ _ _ hone htrue).mpr rfl, ?_⟩
  rw [ne_eq, renderTac_unambiguous _ _ _ _ hone htwo]
  decide

end TinyPascal
