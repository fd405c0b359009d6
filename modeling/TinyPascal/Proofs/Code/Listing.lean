import TinyPascal.Proofs.Code.Text

/-!
# `Proofs.Code.Listing` — what a listing tells about code

A listing writes one record a line: an operation, a list of quoted arguments, and a quoted result if
there is one. Nothing is escaped. If no name holds a quote or a line feed, the listing still tells all
that its records say: **two listings are equal exactly if the code is, up to the parameters and result
types of sections and the types of literals**, which records leave out.

## Contents
- **What is listed.** `Instr.listed`; `Record.instr?` reads an instruction back off its record.
- **Quoted names.** `Quotable`; `quote_append_inj`, `args_append_inj`: a quoted name, and a list of them,
  end at a place that does not depend on what follows.
- **Records.** `Record.text_inj`.
- **Listings.** `linesOf_renderList`, `renderList_faithful`.
-/

namespace TinyPascal

/-! ## What is listed -/

/-- The instruction without what its record leaves out: the parameters and the result type of a section,
    and the type of a literal. -/
def Instr.listed : Instr → Instr
  | .sectionStart kind name _ _ => .sectionStart kind name [] none
  | .const target value => .const target (.int value.value)
  | i => i

theorem Instr.record_listed (i : Instr) : i.listed.record = i.record := by
  cases i <;> rfl

/-- The kind of section with the given name. -/
def SectionKind.ofName (name : String) : SectionKind :=
  if name = "procedure" then .procedure else if name = "function" then .function else .main

theorem SectionKind.ofName_name (kind : SectionKind) : ofName kind.name = kind := by
  cases kind <;> rfl

/-- The operator with the given name in records. -/
def BinOp.ofMnemonic? (name : String) : Option BinOp :=
  all.find? (fun op => op.mnemonic = name)

/-- The instruction that a record lists. -/
def Record.instr? (r : Record) : Option Instr :=
  match r.result with
  | some target =>
    match r.op, r.args with
    | "const", [value] => some (.const target (.int (readInt value)))
    | "not", [arg] => some (.not target arg)
    | "call", callee :: args => some (.call target callee args)
    | op, [left, right] => (BinOp.ofMnemonic? op).map (.binary · target left right)
    | _, _ => none
  | none =>
    match r.op, r.args with
    | "section", kind :: name => some (.sectionStart (.ofName kind) name.head? [] none)
    | "endsection", kind :: name => some (.sectionEnd (.ofName kind) name.head?)
    | "mov", [arg, target] => some (.assign target arg)
    | "print", [arg] => some (.print arg)
    | "ret", arg => some (.ret arg.head?)
    | "label", [l] => some (.label l)
    | "jmp", [l] => some (.goto l)
    | "br", [cond, l] => some (.ifGoto cond l)
    | "brfalse", [cond, l] => some (.ifNotGoto cond l)
    | "decl", args =>
      some (.decl args.dropLast (if args.getLast? = some ":integer" then .integer else .boolean))
    | _, _ => none

/-- **An instruction can be read back off its record.** -/
theorem Instr.instr?_record (i : Instr) : i.record.instr? = some i.listed := by
  cases i with
  | decl names ty => cases ty <;> simp [record, Record.instr?, listed, Ty.name]
  | sectionStart kind name params result =>
      cases name <;> simp [record, Record.instr?, listed, SectionKind.ofName_name]
  | sectionEnd kind name => cases name <;> simp [record, Record.instr?, listed, SectionKind.ofName_name]
  | const target value => simp [record, Record.instr?, listed, readInt_repr]
  | assign target arg => rfl
  | binary op target left right => cases op <;> rfl
  | not target arg => rfl
  | call target callee args => rfl
  | print arg => rfl
  | ret arg => cases arg <;> rfl
  | label l => rfl
  | goto l => rfl
  | ifGoto cond l => rfl
  | ifNotGoto cond l => rfl

theorem Instr.record_eq_iff {i j : Instr} : i.record = j.record ↔ i.listed = j.listed := by
  constructor
  · intro h
    have hread := congrArg Record.instr? h
    rw [Instr.instr?_record, Instr.instr?_record] at hread
    exact Option.some.inj hread
  · intro h
    rw [← i.record_listed, h, j.record_listed]

/-! ## Quoted names -/

/-- A name that can stand between quotes on one line. -/
def Quotable (name : String) : Prop :=
  '\'' ∉ name.toList ∧ '\n' ∉ name.toList

instance (name : String) : Decidable (Quotable name) :=
  inferInstanceAs (Decidable ('\'' ∉ name.toList ∧ '\n' ∉ name.toList))

/-- Where the first `c` stands does not depend on what follows it. -/
theorem append_cons_inj {c : Char} {a b u v : List Char} (ha : c ∉ a) (hb : c ∉ b)
    (h : a ++ c :: u = b ++ c :: v) : a = b ∧ u = v := by
  induction a generalizing b with
  | nil =>
      cases b with
      | nil => exact ⟨rfl, List.tail_eq_of_cons_eq h⟩
      | cons d b => exact absurd (List.head_eq_of_cons_eq h ▸ List.mem_cons_self) hb
  | cons d a ih =>
      cases b with
      | nil => exact absurd (List.head_eq_of_cons_eq h ▸ List.mem_cons_self) ha
      | cons e b =>
          have hhead : d = e := List.head_eq_of_cons_eq h
          obtain ⟨hab, huv⟩ := ih (fun hmem => ha (List.mem_cons_of_mem _ hmem))
            (fun hmem => hb (List.mem_cons_of_mem _ hmem)) (List.tail_eq_of_cons_eq h)
          exact ⟨by rw [hhead, hab], huv⟩

/-- **A quoted name ends at its closing quote**, whatever follows. -/
theorem quote_append_inj {x y u v : String} (hx : Quotable x) (hy : Quotable y)
    (h : quote x ++ u = quote y ++ v) : x = y ∧ u = v := by
  have hlist : x.toList ++ '\'' :: u.toList = y.toList ++ '\'' :: v.toList := by
    simpa [quote] using congrArg String.toList h
  obtain ⟨hname, hrest⟩ := append_cons_inj hx.1 hy.1 hlist
  exact ⟨String.toList_inj.mp hname, String.toList_inj.mp hrest⟩

/-- The arguments of a record behind the first. -/
def moreArgs : List String → String
  | [] => ""
  | x :: xs => ", " ++ (quote x ++ moreArgs xs)

theorem intercalate_quote (x : String) (xs : List String) :
    ", ".intercalate ((x :: xs).map quote) = quote x ++ moreArgs xs := by
  induction xs generalizing x with
  | nil => simp [moreArgs]
  | cons y ys ih =>
      rw [List.map_cons, List.map_cons, String.intercalate_cons_cons, ← List.map_cons, ih,
        String.append_assoc]
      rfl

/-- Texts that start with different characters differ. -/
theorem ne_of_head {a b : String} (h : a.toList.head? ≠ b.toList.head?) : a ≠ b := by
  rintro rfl
  exact h rfl

theorem moreArgs_append_inj {xs ys : List String} {u v : String} (hxs : ∀ x ∈ xs, Quotable x)
    (hys : ∀ y ∈ ys, Quotable y) (h : moreArgs xs ++ (" ]" ++ u) = moreArgs ys ++ (" ]" ++ v)) :
    xs = ys ∧ u = v := by
  induction xs generalizing ys with
  | nil =>
      cases ys with
      | nil => exact ⟨rfl, by simpa [moreArgs] using h⟩
      | cons y ys => exact absurd h (ne_of_head (by simp [moreArgs]))
  | cons x xs ih =>
      cases ys with
      | nil => exact absurd h (ne_of_head (by simp [moreArgs]))
      | cons y ys =>
          obtain ⟨hx, hmorex⟩ := List.forall_mem_cons.mp hxs
          obtain ⟨hy, hmorey⟩ := List.forall_mem_cons.mp hys
          simp only [moreArgs, String.append_assoc, String.append_right_inj] at h
          obtain ⟨rfl, hmore⟩ := quote_append_inj hx hy h
          obtain ⟨rfl, huv⟩ := ih hmorex hmorey hmore
          exact ⟨rfl, huv⟩

/-- **A list of quoted names ends at its closing bracket**, whatever follows. -/
theorem args_append_inj {xs ys : List String} {u v : String} (hxs : ∀ x ∈ xs, Quotable x)
    (hys : ∀ y ∈ ys, Quotable y)
    (h : ", ".intercalate (xs.map quote) ++ (" ]" ++ u) =
      ", ".intercalate (ys.map quote) ++ (" ]" ++ v)) : xs = ys ∧ u = v := by
  cases xs with
  | nil =>
      cases ys with
      | nil => exact ⟨rfl, by simpa using h⟩
      | cons y ys =>
          rw [intercalate_quote] at h
          exact absurd h (ne_of_head (by simp [quote]))
  | cons x xs =>
      rw [intercalate_quote] at h
      cases ys with
      | nil => exact absurd h (ne_of_head (by simp [quote]))
      | cons y ys =>
          obtain ⟨hx, hmorex⟩ := List.forall_mem_cons.mp hxs
          obtain ⟨hy, hmorey⟩ := List.forall_mem_cons.mp hys
          rw [intercalate_quote, String.append_assoc, String.append_assoc] at h
          obtain ⟨rfl, hmore⟩ := quote_append_inj hx hy h
          obtain ⟨rfl, huv⟩ := moreArgs_append_inj hmorex hmorey hmore
          exact ⟨rfl, huv⟩

/-! ## Records -/

namespace Record

/-- All that a record quotes can stand between quotes. -/
structure Clean (r : Record) : Prop where
  op : Quotable r.op
  args : ∀ x ∈ r.args, Quotable x
  result : ∀ x ∈ r.result, Quotable x

/-- **A record can be read off its text.** -/
theorem text_inj {r r' : Record} (hr : r.Clean) (hr' : r'.Clean) (h : r.text = r'.text) : r = r' := by
  obtain ⟨op, args, result⟩ := r
  obtain ⟨op', args', result'⟩ := r'
  simp only [text, String.append_assoc, String.append_right_inj] at h
  obtain ⟨rfl, h⟩ := quote_append_inj hr.op hr'.op h
  rw [String.append_right_inj] at h
  obtain ⟨rfl, h⟩ := args_append_inj hr.args hr'.args h
  rw [String.append_left_inj] at h
  -- only a result starts with a comma
  cases result with
  | none =>
      cases result' with
      | none => rfl
      | some target => exact absurd h (ne_of_head (by simp [resultText]))
  | some target =>
      cases result' with
      | none => exact absurd h (ne_of_head (by simp [resultText]))
      | some target' =>
          have hquote : quote target ++ "" = quote target' ++ "" := by simpa [resultText] using h
          obtain ⟨rfl, _⟩ := quote_append_inj (hr.result target rfl) (hr'.result target' rfl) hquote
          rfl

/-- A record is written on one line. -/
theorem newline_notMem_text {r : Record} (hr : r.Clean) : '\n' ∉ r.text.toList := by
  have hquote : ∀ {x : String}, Quotable x → '\n' ∉ (quote x).toList := by
    intro x hx
    simpa [quote] using hx.2
  have hmore : ∀ {xs : List String}, (∀ x ∈ xs, Quotable x) → '\n' ∉ (moreArgs xs).toList := by
    intro xs hxs
    induction xs with
    | nil => simp [moreArgs]
    | cons x xs ih =>
        obtain ⟨hx, hxs⟩ := List.forall_mem_cons.mp hxs
        simpa [moreArgs] using ⟨hquote hx, ih hxs⟩
  have hargs : '\n' ∉ (", ".intercalate (r.args.map quote)).toList := by
    cases hr' : r.args with
    | nil => simp
    | cons x xs =>
        have hclean := hr.args
        rw [hr'] at hclean
        obtain ⟨hx, hxs⟩ := List.forall_mem_cons.mp hclean
        rw [intercalate_quote, String.toList_append, List.mem_append, not_or]
        exact ⟨hquote hx, hmore hxs⟩
  have hresult : '\n' ∉ r.resultText.toList := by
    unfold resultText
    cases hr' : r.result with
    | none => simp
    | some target => simpa using hquote (hr.result target hr')
  simp only [text, String.toList_append, List.mem_append, not_or]
  exact ⟨⟨⟨⟨⟨⟨by decide, hquote hr.op⟩, by decide⟩, hargs⟩, by decide⟩, hresult⟩, by decide⟩

end Record

/-- A written number holds neither quotes nor line feeds. -/
theorem quotable_repr (n : Int) : Quotable n.repr := by
  constructor
  · intro hquote
    rcases mem_repr hquote with h | h <;> exact absurd h (by decide)
  · intro hfeed
    rcases mem_repr hfeed with h | h <;> exact absurd h (by decide)

theorem Instr.quotable_op (i : Instr) : Quotable i.record.op := by
  cases i with
  | binary op target left right => cases op <;> simp [record, BinOp.mnemonic, Quotable]
  | _ => simp [record, Quotable]

/-- **Records of clean names are clean**: operations, kinds, types and numbers hold no quotes. -/
theorem Instr.clean_record {i : Instr} (h : ∀ x ∈ i.names, Quotable x) : i.record.Clean := by
  cases i with
  | decl names ty =>
      refine ⟨quotable_op _, ?_, by simp [record]⟩
      intro x hx
      rcases List.mem_append.mp hx with hx | hx
      · exact h x hx
      · rw [List.mem_singleton] at hx
        subst hx
        cases ty <;> decide
  | sectionStart kind name params result =>
      refine ⟨quotable_op _, ?_, by simp [record]⟩
      exact List.forall_mem_cons.mpr ⟨by cases kind <;> decide, h⟩
  | sectionEnd kind name =>
      refine ⟨quotable_op _, ?_, by simp [record]⟩
      exact List.forall_mem_cons.mpr ⟨by cases kind <;> decide, h⟩
  | const target value =>
      refine ⟨quotable_op _, ?_, ?_⟩
      · simpa [record] using quotable_repr value.value
      · simpa [record, names] using h
  | assign target arg =>
      refine ⟨quotable_op _, ?_, by simp [record]⟩
      simpa [record, names, and_comm] using h
  | binary op target left right =>
      simp only [names, List.forall_mem_cons] at h
      refine ⟨quotable_op _, ?_, ?_⟩
      · simpa [record] using ⟨h.2.1, h.2.2.1⟩
      · simpa [record] using h.1
  | not target arg =>
      simp only [names, List.forall_mem_cons] at h
      exact ⟨quotable_op _, by simpa [record] using h.2.1, by simpa [record] using h.1⟩
  | call target callee args =>
      obtain ⟨htarget, hargs⟩ := List.forall_mem_cons.mp h
      exact ⟨quotable_op _, hargs, by simpa [record] using htarget⟩
  | print arg => exact ⟨quotable_op _, h, by simp [record]⟩
  | ret arg => exact ⟨quotable_op _, h, by simp [record]⟩
  | label l => exact ⟨quotable_op _, h, by simp [record]⟩
  | goto l => exact ⟨quotable_op _, h, by simp [record]⟩
  | ifGoto cond l => exact ⟨quotable_op _, h, by simp [record]⟩
  | ifNotGoto cond l => exact ⟨quotable_op _, h, by simp [record]⟩

/-! ## Listings -/

/-- The line of an instruction in a listing. -/
def Instr.listLine (i : Instr) : String :=
  "  " ++ i.record.text ++ ","

/-- **The lines of a listing**: one for each instruction, between the two that enclose them. -/
theorem linesOf_renderList {code : List Instr} (h : ∀ i ∈ code, ∀ x ∈ i.names, Quotable x) :
    linesOf (renderList code) = "code: [" :: (code.map Instr.listLine ++ ["]"]) := by
  apply linesOf_unlines
  intro line hline
  rcases List.mem_cons.mp hline with rfl | hline
  · decide
  rcases List.mem_append.mp hline with hline | hline
  · obtain ⟨i, hi, rfl⟩ := List.mem_map.mp hline
    have htext := Record.newline_notMem_text (Instr.clean_record (h i hi))
    simpa using htext
  · rw [List.mem_singleton] at hline
    subst hline
    decide

theorem Instr.listLine_eq_iff {i j : Instr} (hi : ∀ x ∈ i.names, Quotable x)
    (hj : ∀ x ∈ j.names, Quotable x) : i.listLine = j.listLine ↔ i.listed = j.listed := by
  unfold Instr.listLine
  rw [String.append_left_inj, String.append_right_inj, ← Instr.record_eq_iff]
  constructor
  · exact Record.text_inj (Instr.clean_record hi) (Instr.clean_record hj)
  · exact congrArg Record.text

/-- Two maps that tell the same elements apart tell the same lists apart. -/
theorem map_eq_map_congr {α β γ : Type} {f : α → β} {g : α → γ} {l l' : List α}
    (h : ∀ a ∈ l, ∀ b ∈ l', (f a = f b ↔ g a = g b)) : l.map f = l'.map f ↔ l.map g = l'.map g := by
  induction l generalizing l' with
  | nil => simp [eq_comm]
  | cons a l ih =>
      cases l' with
      | nil => simp
      | cons b l' =>
          have htail : l.map f = l'.map f ↔ l.map g = l'.map g := ih (fun x hx y hy =>
            h x (List.mem_cons_of_mem _ hx) y (List.mem_cons_of_mem _ hy))
          simp only [List.map_cons, List.cons.injEq, htail,
            h a List.mem_cons_self b List.mem_cons_self]

/-- **The listing is a faithful projection.** If no name holds a quote or a line feed, two listings are
    equal exactly if the code is, but for the parameters and result types of sections and the types of
    literals. A listing has one line for each instruction, with its record, and two more around them. -/
theorem renderList_faithful (code code' : List Instr)
    (h : ∀ i ∈ code, ∀ x ∈ i.names, Quotable x) (h' : ∀ i ∈ code', ∀ x ∈ i.names, Quotable x) :
    (renderList code = renderList code' ↔ code.map Instr.listed = code'.map Instr.listed) ∧
      (linesOf (renderList code)).length = code.length + 2 ∧
      ∀ k i, code[k]? = some i →
        (linesOf (renderList code))[k + 1]? = some ("  " ++ i.record.text ++ ",") := by
  have hlines := linesOf_renderList h
  refine ⟨?_, by simp [hlines], ?_⟩
  · have hmap : code.map Instr.listLine = code'.map Instr.listLine ↔
        code.map Instr.listed = code'.map Instr.listed :=
      map_eq_map_congr (fun i hi j hj => Instr.listLine_eq_iff (h i hi) (h' j hj))
    rw [← hmap]
    constructor
    · intro heq
      have hboth := congrArg linesOf heq
      rw [hlines, linesOf_renderList h'] at hboth
      exact List.append_cancel_right (List.cons.inj hboth).2
    · intro heq
      show unlines ("code: [" :: (code.map Instr.listLine ++ ["]"])) = _
      rw [heq]
      rfl
  · intro k i hk
    rw [hlines, List.getElem?_cons_succ, List.getElem?_append_left, List.getElem?_map, hk]
    · rfl
    · rw [List.length_map]
      exact (List.getElem?_eq_some_iff.mp hk).1

/-- Code with names that look like parts of a listing. -/
def awkwardCode (value : Literal) (params : List (String × Ty)) : List Instr :=
  [.decl [":boolean", ""] .integer, .sectionStart .main (some "a, b") params none,
   .call "t1" "], result: " [", ", ""], .const "t2" value, .ret none, .ret (some "")]

/-- What is left out does not show, and what is left of a literal does. -/
theorem renderList_faithful_awkwardCode :
    (∀ i ∈ awkwardCode (.bool true) [], ∀ x ∈ i.names, Quotable x) ∧
      renderList (awkwardCode (.bool true) []) = renderList (awkwardCode (.int 1) [("a", .integer)]) ∧
      renderList (awkwardCode (.bool true) []) ≠ renderList (awkwardCode (.int 2) []) ∧
      (linesOf (renderList (awkwardCode (.bool true) []))).length = 8 := by
  have hnames : ∀ (value : Literal) (params : List (String × Ty)),
      ∀ i ∈ awkwardCode value params, ∀ x ∈ i.names, Quotable x := by
    intro value params
    simp only [awkwardCode, List.forall_mem_cons, Instr.names]
    decide
  have hsame := renderList_faithful (awkwardCode (.bool true) []) (awkwardCode (.int 1) [("a", .integer)])
    (hnames _ _) (hnames _ _)
  have hother := renderList_faithful (awkwardCode (.bool true) []) (awkwardCode (.int 2) [])
    (hnames _ _) (hnames _ _)
  refine ⟨hnames _ _, hsame.1.mpr rfl, ?_, hsame.2.1⟩
  rw [ne_eq, hother.1]
  decide

end TinyPascal
