import TinyPascal.CommandLine
import TinyPascal.Proofs.Code.Text
import TinyPascal.Proofs.Tree.Spelling

/-!
# `Proofs.Token.Listing` — reading a listing of tokens

A token is listed as its line, its column, its category and its text, and the text is not escaped: a string
may hold colons, tabs and quotes. A line can still be **read back**, since only its first colon and first
two tabs matter, and only the last field can hold others. No token holds a line feed, so that the listing is
cut into its lines at the line feeds.

## Contents
- **Kinds.** `Category.kind?` reads a kind off its text; `kind?_text` holds of every kind.
- **One line.** `readLine?`, `readLine?_line`; `newline_notMem_line`.
- **Listings.** `readListing`, `lex_listing_determines_tokens`.
-/

namespace TinyPascal

/-! ## Kinds -/

/-- The operator that is spelled this way. -/
def Operator.ofSpelling? (text : String) : Option Operator :=
  [assign, plus, minus, star, slash, eq, notEq, lt, ltEq, gt, gtEq].find? (fun op => op.spelling = text)

/-- The mark that is spelled this way. -/
def Punct.ofSpelling? (text : String) : Option Punct :=
  [semicolon, comma, dot, lparen, rparen, colon].find? (fun mark => mark.spelling = text)

namespace Token

namespace Category

/-- The category with this heading. -/
def ofTitle? (title : String) : Option Category :=
  [keyword, identifier, number, string, operator, punctuation, endOfStream].find?
    (fun category => category.title = title)

theorem ofTitle?_title (category : Category) : ofTitle? category.title = some category := by
  cases category <;> rfl

/-- A heading is letters only. -/
theorem notMem_title {c : Char} (h : c.isAlpha = false) (category : Category) :
    c ∉ category.title.toList := by
  have hletters : category.title.toList.all Char.isAlpha = true := by cases category <;> decide
  intro hmem
  rw [List.all_eq_true.mp hletters c hmem] at h
  cases h

/-- The kind of this category that is quoted as `text`. The quotes around a string are not part of it. -/
def kind? (text : String) : Category → Option Kind
  | keyword => (Keyword.ofString? text).map .keyword
  | identifier => some (.ident text)
  | number => some (.int (readInt text))
  | string => some (.str (String.ofList text.toList.tail.dropLast))
  | operator => (Operator.ofSpelling? text).map .operator
  | punctuation => (Punct.ofSpelling? text).map .punct
  | endOfStream => some .eof

/-- **Category and text give the kind.** -/
theorem kind?_text (kind : Kind) : kind.category.kind? kind.text = some kind := by
  cases kind with
  | int n => exact congrArg (fun n => some (Kind.int n)) (readInt_repr n)
  | str content => simp [Kind.category, Kind.text, kind?]
  | ident name => rfl
  | keyword k => cases k <;> rfl
  | operator op => cases op <;> rfl
  | punct mark => cases mark <;> rfl
  | eof => rfl

end Category

/-! ## One line -/

/-- What a listing shows of a token: its kind with the value, its line and its column. -/
def shown (t : Token) : Kind × Nat × Nat :=
  (t.kind, t.span.line, t.span.column)

theorem toList_line (t : Token) : t.line.toList = t.span.line.repr.toList ++ ':' ::
    (t.span.column.repr.toList ++ '\t' :: (t.kind.category.title.toList ++ '\t' ::
      t.kind.text.toList)) := by
  have htext : t.line = t.span.line.repr ++ ":" ++ t.span.column.repr ++ "\t" ++
      t.kind.category.title ++ "\t" ++ t.kind.text := rfl
  rw [htext]
  simp

end Token

/-- What stands in front of the first `c`, and what stands behind it. -/
def cutAt (c : Char) (cs : List Char) : List Char × List Char :=
  (cs.takeWhile (· != c), (cs.dropWhile (· != c)).tail)

theorem cutAt_append {c : Char} {front : List Char} (h : c ∉ front) (back : List Char) :
    cutAt c (front ++ c :: back) = (front, back) := by
  have hfront : ∀ d ∈ front, (d != c) = true := by
    intro d hd
    rw [bne_iff_ne]
    rintro rfl
    exact h hd
  unfold cutAt
  rw [List.takeWhile_append_of_pos hfront, List.dropWhile_append_of_pos hfront]
  simp

/-- Read a line of a listing. -/
def readLine? (line : String) : Option (Token.Kind × Nat × Nat) :=
  let (row, behindRow) := cutAt ':' line.toList
  let (column, behindColumn) := cutAt '\t' behindRow
  let (title, text) := cutAt '\t' behindColumn
  ((Token.Category.ofTitle? (String.ofList title)).bind (·.kind? (String.ofList text))).map
    (·, Lexeme.decimal row, Lexeme.decimal column)

theorem notMem_repr {n : Nat} {c : Char} (h : c.isDigit = false) : c ∉ n.repr.toList := by
  intro hmem
  rw [isDigit_of_mem_repr hmem] at h
  cases h

/-- **A line can be read back.** -/
theorem readLine?_line (t : Token) : readLine? t.line = some t.shown := by
  unfold readLine?
  rw [t.toList_line, cutAt_append (notMem_repr (by decide))]
  dsimp only
  rw [cutAt_append (notMem_repr (by decide))]
  dsimp only
  rw [cutAt_append (Token.Category.notMem_title (by decide) _)]
  dsimp only
  rw [String.ofList_toList, String.ofList_toList, Token.Category.ofTitle?_title, Option.bind_some,
    Token.Category.kind?_text, Lexeme.decimal_repr, Lexeme.decimal_repr]
  rfl

/-- No kind that a text can hold is quoted with a line feed. -/
theorem newline_notMem_text {kind : Token.Kind} (h : kind.Writable) : '\n' ∉ kind.text.toList := by
  cases kind with
  | int n =>
      intro hmem
      rcases mem_repr hmem with hsign | hdigit
      · exact absurd hsign (by decide)
      · exact absurd hdigit (by decide)
  | str content =>
      have hcontent : '\n' ∉ content.toList := h
      simpa [Token.Kind.text] using hcontent
  | ident name =>
      obtain ⟨c, cs, hname, hc, hcs⟩ := isWord_iff.mp h.1
      show '\n' ∉ name.toList
      rw [hname, List.mem_cons, not_or]
      exact ⟨(Lexeme.ne_of_class hc (by decide)).symm,
        fun hmem => absurd (hcs '\n' hmem) (by decide)⟩
  | keyword k => cases k <;> decide
  | operator op => cases op <;> decide
  | punct mark => cases mark <;> decide
  | eof => exact h.elim

theorem newline_notMem_line {t : Token} (h : '\n' ∉ t.kind.text.toList) : '\n' ∉ t.line.toList := by
  have hrow : '\n' ∉ t.span.line.repr.toList := notMem_repr (by decide)
  have hcolumn : '\n' ∉ t.span.column.repr.toList := notMem_repr (by decide)
  have htitle : '\n' ∉ t.kind.category.title.toList := Token.Category.notMem_title (by decide) _
  rw [t.toList_line]
  simp only [List.mem_append, List.mem_cons, not_or]
  exact ⟨hrow, by decide, hcolumn, by decide, htitle, by decide, h⟩

/-! ## Listings -/

/-- Read a listing, line by line. -/
def readListing (text : String) : List (Token.Kind × Nat × Nat) :=
  (linesOf text).filterMap readLine?

/-- The tokens of a text are listed without line feeds, the end of the stream included. -/
theorem newline_notMem_lines {source : String} {stream : Stream} (h : lex source = .ok stream) :
    ∀ line ∈ stream.toList.map Token.line, '\n' ∉ line.toList := by
  intro line hline
  obtain ⟨t, ht, rfl⟩ := List.mem_map.mp hline
  apply newline_notMem_line
  rcases List.mem_append.mp ht with ht | ht
  · exact newline_notMem_text (writable_of_lex h (List.mem_map_of_mem ht))
  · rw [List.mem_singleton.mp ht]
    show '\n' ∉ "end-of-stream".toList
    decide

/-- **A listing of tokens can be read back.** -/
theorem readListing_unlines {source : String} {stream : Stream} (h : lex source = .ok stream) :
    readListing (unlines (stream.toList.map Token.line)) = stream.toList.map Token.shown := by
  unfold readListing
  rw [linesOf_unlines (newline_notMem_lines h), List.filterMap_map]
  have hread : readLine? ∘ Token.line = some ∘ Token.shown := by
    funext t
    rw [Function.comp_apply, Function.comp_apply, readLine?_line]
  rw [hread, List.filterMap_eq_map]

/-- A text that is stored in UTF-8 is read as it is. -/
theorem decode_toUTF8 (source : String) : decode (.ok source.toUTF8) = .ok source := by
  have hread : String.fromUTF8? source.toUTF8 = some source := by
    unfold String.fromUTF8?
    rw [dif_pos (show source.toUTF8.IsValidUTF8 from source.isValidUTF8)]
    rfl
  have hok : (.ok source.toUTF8 : Except ReadError ByteArray) = pure source.toUTF8 := rfl
  unfold decode
  rw [hok, pure_bind, hread]
  rfl

/-- What is printed for a text without lexical errors. -/
theorem reply_lex {source : String} {stream : Stream} (h : lex source = .ok stream) (input : String) :
    Command.lex.reply input (.ok source.toUTF8) =
      { exit := 0, stdout := unlines (stream.toList.map Token.line) } := by
  have houtput : Command.lex.output source = .ok (unlines (stream.toList.map Token.line)) := by
    unfold Command.output
    rw [h]
    rfl
  unfold Command.reply
  rw [decode_toUTF8]
  dsimp only
  rw [houtput]

/-- **A listing determines the tokens.** What the listing command prints for a text without lexical errors
    has one line for each token, ended by a line feed and with none inside it. It can be read back: any
    other text that is listed the same way has the same kinds and values, at the same lines and columns. -/
theorem lex_listing_determines_tokens (source : String) (stream : Stream)
    (h : lex source = .ok stream) :
    ∃ text, (∀ input, Command.lex.reply input (.ok source.toUTF8) = { exit := 0, stdout := text }) ∧
      text = unlines (stream.toList.map Token.line) ∧
      (∀ line ∈ stream.toList.map Token.line, '\n' ∉ line.toList) ∧
      text.toList.count '\n' = stream.toList.length ∧
      readListing text = stream.toList.map Token.shown ∧
      ∀ source' stream' input, lex source' = .ok stream' →
        (Command.lex.reply input (.ok source'.toUTF8)).stdout = text →
        stream'.toList.map Token.shown = stream.toList.map Token.shown := by
  have hread := readListing_unlines h
  have hlines := newline_notMem_lines h
  refine ⟨_, reply_lex h, rfl, hlines, ?_, hread, fun source' stream' input h' hsame => ?_⟩
  · rw [count_newline_unlines hlines, List.length_map]
  · have hlisting : unlines (stream'.toList.map Token.line) =
        unlines (stream.toList.map Token.line) := by
      rw [reply_lex h' input] at hsame
      exact hsame
    rw [← readListing_unlines h', hlisting, hread]

/-- A string that reads like the line of a number, with tabs, quotes and a carriage return in it. -/
def tabbedString : String := "X := '\r1:1\tNumber\t''7'''"

/-- The tabs in the string do not end a field. -/
theorem lex_listing_determines_tokens_tabbed :
    ∃ text, Command.lex.reply "x.pas" (.ok tabbedString.toUTF8) = { exit := 0, stdout := text } ∧
      text.toList.count '\n' = 4 ∧
      readListing text = [(.ident "X", 1, 1), (.operator .assign, 1, 3),
        (.str "\r1:1\tNumber\t'7'", 1, 6), (.eof, 1, 25)] := by
  have hlex : lex tabbedString = .ok ⟨[⟨.ident "X", 0, 1, 1, 1⟩, ⟨.operator .assign, 2, 4, 1, 3⟩,
      ⟨.str "\r1:1\tNumber\t'7'", 5, 24, 1, 6⟩], 24, 24, 1, 25⟩ :=
    Except.eq_ok_of_toOption (by decide +kernel)
  obtain ⟨text, hreply, _, _, hcount, hread, _⟩ := lex_listing_determines_tokens _ _ hlex
  exact ⟨text, hreply "x.pas", hcount, hread⟩

end TinyPascal
