import JeffVm.Lexer
import Mathlib.Data.List.TakeWhile

/-!
# Lexing a line

`lex_line` reads a line word by word and puts a token for each of them at the end of the queue. A
position on the line is the rest of its text; at the empty rest stands the NUL, and `none` is a
position behind it.
-/

set_option autoImplicit false

namespace JeffVm

/-- A line of a source file: a NUL ends its text, and a newline is the last character. -/
structure LineInfo where
  lineText : List Char
  lineNum : Int
  terminated : '\x00' ∉ lineText
  oneLine : '\n' ∉ lineText.dropLast

/-! ## Characters -/

def isSpecialChar (c : Char) : Bool :=
  c ∈ ['(', ')', '{', '}', '[', ']', '+', '-', '*', '/', '\\', '%', '&', '|', '^', '~', '!', '?',
    '@', '#', '<', '>', '=', ',', ':', '.', '\'']

def isNumeric (c : Char) : Bool := '0' ≤ c && c ≤ '9'

def isNumber (c : Char) : Bool := isNumeric c || c == '.'

def isAlphabetic (c : Char) : Bool := ('A' ≤ c && c ≤ 'Z') || ('a' ≤ c && c ≤ 'z')

def isAlphanumeric (c : Char) : Bool := isNumeric c || isAlphabetic c || c == '_' || c == '$'

def isAnySpace (c : Char) : Bool := c == ' ' || c == '\t' || c == '\n' || c == '\r'

def isWhitespace (c : Char) : Bool := c == ' ' || c == '\t' || c == '\r'

/-- `CODE_COMMENT_CH` -/
def codeCommentCh : Char := ';'

/-! ## Types -/

def keywordToType : List (String × TokenType) :=
  [("if", .IF_T), ("then", .THEN), ("else", .ELSE), ("def", .DEF), ("new", .NEW),
    ("field", .FIELD), ("method", .METHOD), ("class", .CLASS), ("while", .WHILE), ("for", .FOR),
    ("break", .BREAK), ("continue", .CONTINUE), ("return", .RETURN), ("as", .AS), ("is", .IS_T),
    ("try", .TRY), ("catch", .CATCH), ("raise", .RAISE), ("import", .IMPORT),
    ("module", .MODULE_T), ("exit", .EXIT_T), ("in", .IN), ("notin", .NOTIN), ("const", .CONST_T),
    ("and", .AND_T), ("or", .OR_T), ("async", .ASYNC), ("await", .AWAIT)]

def wordType (word : List Char) : TokenType :=
  ((keywordToType.find? fun k => k.1.toList == word).map Prod.snd).getD .WORD

/-- The type of a word; `sec` is `word[1]`. -/
def specialType (c : Char) (sec : Option Char) : Option TokenType :=
  match c with
  | '(' => some .LPAREN
  | ')' => some .RPAREN
  | '{' => some .LBRCE
  | '}' => some .RBRCE
  | '[' => some .LBRAC
  | ']' => some .RBRAC
  | '+' => some (if sec = some '+' then .INCREMENT else .PLUS)
  | '-' => some (if sec = some '>' then .RARROW else if sec = some '-' then .DECREMENT else .MINUS)
  | '*' => some .STAR
  | '/' => some .FSLASH
  | '\\' => some .BSLASH
  | '%' => some .PERCENT
  | '&' => some .AMPER
  | '|' => some .PIPE
  | '^' => some .CARET
  | '~' => some .TILDE
  | '!' => some (if sec = some '=' then .NEQUIV else .EXCLAIM)
  | '?' => some .QUESTION
  | '@' => some .AT
  | '#' => some .POUND
  | '<' => some (if sec = some '-' then .LARROW else if sec = some '=' then .LTHANEQ else .LTHAN)
  | '>' => some (if sec = some '=' then .GTHANEQ else .GTHAN)
  | '=' => some (if sec = some '=' then .EQUIV else .EQUALS)
  | ',' => some .COMMA
  | ':' => some .COLON
  | '.' => some .PERIOD
  | '\'' => some .STR
  | ';' => some .SEMICOLON
  | _ => none

/-- `_resolve_type` without its flag. -/
def resolveType (word : List Char) : TokenType :=
  match word with
  | [] => .ENDLINE
  | c :: rest =>
    match specialType c rest.head? with
    | some type => type
    | none =>
      if isNumber c then
        if word.getLast? = some 'f' ∨ '.' ∈ word then .FLOATING else .INTEGER
      else wordType word

/-- What `_resolve_type` leaves in `in_comment`. -/
def resolveComment (word : List Char) (inComment : Bool) : Bool :=
  match word with
  | [] => false
  | c :: _ => inComment || c == codeCommentCh

def isComplex (seq : List Char) : Bool :=
  match seq with
  | '+' :: sec :: _ => sec == '+' || sec == '='
  | '-' :: sec :: _ => sec == '-' || sec == '=' || sec == '>'
  | '<' :: sec :: _ => sec == '-' || sec == '=' || sec == '<' || sec == '>'
  | '>' :: sec :: _ => sec == '=' || sec == '>'
  | '=' :: sec :: _ => sec == '='
  | '!' :: sec :: _ => sec == '='
  | _ => false

/-! ## Words -/

/-- A word, the number of characters it took with the blanks before it, and what comes next. -/
structure ReadWord where
  word : List Char
  charsConsumed : Nat
  index : Option (List Char)

/-- The word at a position behind the blanks, where `blanks` of them were read. -/
def readWordAt (blanks : Nat) : List Char → ReadWord
  -- the NUL is taken as a character
  | [] => ⟨['\x00'], blanks + 1, none⟩
  | c :: rest =>
    if isSpecialChar c || c == codeCommentCh then
      if isComplex (c :: rest) then ⟨c :: rest.take 1, blanks + 2, some (rest.drop 1)⟩
      else ⟨[c], blanks + 1, some rest⟩
    else if c == '\n' then ⟨[], blanks, some (c :: rest)⟩
    else if isNumber c then
      let digits := rest.takeWhile fun c => isNumber c || c == 'f'
      ⟨c :: digits, blanks + 1 + digits.length, some (rest.dropWhile fun c => isNumber c || c == 'f')⟩
    else if isAlphanumeric c then
      let letters := rest.takeWhile isAlphanumeric
      ⟨c :: letters, blanks + 1 + letters.length, some (rest.dropWhile isAlphanumeric)⟩
    else ⟨[c], blanks + 1, some rest⟩

/-- `_read_word` -/
def readWord (index : List Char) : ReadWord :=
  match index with
  | [] => ⟨[], 0, some []⟩
  | _ => readWordAt (index.takeWhile isWhitespace).length (index.dropWhile isWhitespace)

/-- The variables of the loop in `lex_line`. -/
structure LineReading where
  index : Option (List Char)
  inComment : Bool
  colNum : Int

/-- A word of a line; its text is the word up to a NUL. -/
structure LineWord where
  type : TokenType
  text : String
  col : Int
  deriving DecidableEq, Repr

/-- How an iteration of the loop reads on. -/
inductive Next where
  | overrun
  | skipped (r : LineReading)
  | read (w : LineWord) (charsConsumed : Nat) (r : LineReading)

/-- The part of an iteration that reads. -/
def LineReading.next (escapeCharacters : Bool) (r : LineReading) : Next :=
  match r.index with
  | none => .overrun
  | some index =>
    let w := readWord index
    let type := resolveType w.word
    let inComment := resolveComment w.word r.inComment
    let colNum := r.colNum + w.charsConsumed
    if inComment then .skipped ⟨w.index, inComment, colNum⟩
    else if type = .STR then
      match w.index.bind fun index => readString index escapeCharacters with
      | none => .overrun
      | some (str, index) =>
        .read ⟨type, str, colNum - str.length⟩ w.charsConsumed ⟨some index, inComment, colNum⟩
    else
      let text := String.ofList (w.word.takeWhile (· != '\x00'))
      .read ⟨type, text, colNum - text.length⟩ w.charsConsumed ⟨w.index, inComment, colNum⟩

/-! ## What `_read_word` does -/

/-- The word `c :: tail` in front of `rest`. -/
inductive Spells : Char → List Char → List Char → Prop
  | single {c : Char} {rest : List Char} : (isSpecialChar c || c == codeCommentCh) = true →
      isComplex (c :: rest) = false → Spells c [] rest
  | double {c d : Char} {rest : List Char} : isSpecialChar c = true →
      isComplex (c :: d :: rest) = true → Spells c [d] rest
  | number {c : Char} {digits rest : List Char} : isNumeric c = true →
      (∀ d ∈ digits, (isNumber d || d == 'f') = true) → Spells c digits rest
  | letters {c : Char} {letters rest : List Char} : isAlphanumeric c = true → isNumeric c = false →
      (∀ d ∈ letters, isAlphanumeric d = true) → Spells c letters rest
  | other {c : Char} {rest : List Char} : isSpecialChar c = false → c ≠ codeCommentCh →
      isAnySpace c = false → isAlphanumeric c = false → Spells c [] rest

/-- What is read at a position, by what stands there. -/
inductive WordAt : List Char → ReadWord → Prop
  | nul : WordAt [] ⟨[], 0, some []⟩
  | blanks {blanks : List Char} : blanks ≠ [] → (∀ c ∈ blanks, isWhitespace c = true) →
      WordAt blanks ⟨['\x00'], blanks.length + 1, none⟩
  | newline {blanks rest : List Char} : (∀ c ∈ blanks, isWhitespace c = true) →
      WordAt (blanks ++ '\n' :: rest) ⟨[], blanks.length, some ('\n' :: rest)⟩
  | word {blanks tail rest : List Char} {c : Char} : (∀ c ∈ blanks, isWhitespace c = true) →
      Spells c tail rest →
      WordAt (blanks ++ c :: (tail ++ rest)) ⟨c :: tail, blanks.length + 1 + tail.length, some rest⟩

section

variable {c d : Char} {rest : List Char}

theorem isSpecialChar_of_isComplex (h : isComplex (c :: rest) = true) :
    isSpecialChar c = true ∧ ∃ d rest', rest = d :: rest' := by
  unfold isComplex at h
  split at h
  all_goals first | cases h | skip
  all_goals
    rename_i heq
    cases heq
    exact ⟨rfl, _, _, rfl⟩

theorem reads_readWordAt {blanks : List Char} (hblanks : ∀ c ∈ blanks, isWhitespace c = true)
    (hc : isWhitespace c = false) :
    WordAt (blanks ++ c :: rest) (readWordAt blanks.length (c :: rest)) := by
  rw [readWordAt]
  split
  · rename_i hspecial
    split
    · rename_i hcomplex
      obtain ⟨hspecial, d, rest', rfl⟩ := isSpecialChar_of_isComplex hcomplex
      exact .word hblanks (.double hspecial hcomplex)
    · rename_i hcomplex
      have hsingle := Spells.single hspecial (Bool.eq_false_iff.mpr hcomplex)
      exact .word hblanks hsingle
  rename_i hspecial
  obtain ⟨hspecial, hcomment⟩ := Bool.or_eq_false_iff.mp (Bool.eq_false_iff.mpr hspecial)
  split
  · rename_i hnewline
    cases eq_of_beq hnewline
    exact .newline hblanks
  rename_i hnewline
  split
  · rename_i hnumber
    have hnumeric : isNumeric c = true := by
      rcases Bool.or_eq_true_iff.mp hnumber with hnumeric | hperiod
      · exact hnumeric
      · cases eq_of_beq hperiod
        cases hspecial
    have hspells : Spells c (rest.takeWhile fun c => isNumber c || c == 'f')
        (rest.dropWhile fun c => isNumber c || c == 'f') :=
      .number hnumeric fun d hd => by
        have hdigit := List.mem_takeWhile_imp hd
        exact hdigit
    have hword := WordAt.word hblanks hspells
    rw [List.takeWhile_append_dropWhile] at hword
    exact hword
  rename_i hnumber
  split
  · rename_i hletter
    have hnumeric : isNumeric c = false :=
      (Bool.or_eq_false_iff.mp (Bool.eq_false_iff.mpr hnumber)).1
    have hspells : Spells c (rest.takeWhile isAlphanumeric)
        (rest.dropWhile isAlphanumeric) :=
      .letters hletter hnumeric fun d hd => List.mem_takeWhile_imp hd
    have hword := WordAt.word hblanks hspells
    rw [List.takeWhile_append_dropWhile] at hword
    exact hword
  · rename_i hletter
    have hspace : isAnySpace c = false := by
      simp only [isWhitespace, isAnySpace, Bool.or_eq_false_iff] at hc ⊢
      exact ⟨⟨hc.1, Bool.eq_false_iff.mpr hnewline⟩, hc.2⟩
    exact .word hblanks (.other hspecial (by simpa using hcomment) hspace
      (Bool.eq_false_iff.mpr hletter))

theorem reads_readWord (index : List Char) : WordAt index (readWord index) := by
  cases index with
  | nil => exact .nul
  | cons a index =>
    have hblanks : ∀ c ∈ (a :: index).takeWhile isWhitespace, isWhitespace c = true :=
      fun c hc => List.mem_takeWhile_imp hc
    have hsplit : (a :: index).takeWhile isWhitespace ++ (a :: index).dropWhile isWhitespace =
        a :: index := List.takeWhile_append_dropWhile
    have hword : readWord (a :: index) = readWordAt ((a :: index).takeWhile isWhitespace).length
        ((a :: index).dropWhile isWhitespace) := rfl
    rw [hword]
    cases hat : (a :: index).dropWhile isWhitespace with
    | nil =>
      rw [hat, List.append_nil] at hsplit
      rw [hsplit] at hblanks ⊢
      exact .blanks (List.cons_ne_nil a index) hblanks
    | cons c rest =>
      have hc : isWhitespace c = false := by
        have hhead := List.head?_dropWhile_not isWhitespace (a :: index)
        rw [hat] at hhead
        exact hhead
      rw [hat] at hsplit
      have hread : WordAt ((a :: index).takeWhile isWhitespace ++ c :: rest) (readWordAt
          ((a :: index).takeWhile isWhitespace).length (c :: rest)) := reads_readWordAt hblanks hc
      rw [hsplit] at hread
      exact hread

end

inductive Ending where
  | done (more : Bool)
  | overrun
  | unfinished
  deriving DecidableEq, Repr

/-- The words of a line up to its end, or to where the line is overrun. -/
def wordsFrom (escapeCharacters : Bool) : Nat → LineReading → List LineWord × Ending
  | 0, _ => ([], .unfinished)
  | n + 1, r =>
    match r.next escapeCharacters with
    | .overrun => ([], .overrun)
    | .skipped r => wordsFrom escapeCharacters n r
    | .read w charsConsumed r =>
      if charsConsumed = 0 then ([w], .done true)
      else
        let (ws, ending) := wordsFrom escapeCharacters n r
        (w :: ws, ending)

/-- No word but the last takes no character. -/
def LineInfo.words (li : LineInfo) (escapeCharacters : Bool) : List LineWord × Ending :=
  wordsFrom escapeCharacters (li.lineText.length + 2) ⟨some li.lineText, false, 0⟩

/-! ## Tokens -/

/-- The lines of the file that are left, and the queue with its oldest token first; `created` has
all tokens there ever were. -/
structure Lexer where
  fi : List LineInfo
  escapeCharacters : Bool
  q : List Token
  created : List Token

namespace Lexer

def enqueue (lexer : Lexer) (tok : Token) : Lexer :=
  { lexer with q := lexer.q ++ [tok], created := lexer.created ++ [tok] }

def lastIs (lexer : Lexer) (type : TokenType) : Bool :=
  (lexer.q.getLast?.map Token.type) == some type

/-- A call of `lex_line`: how it ends, the lexer after it, and the tokens it creates itself. -/
structure Lexed where
  ending : Ending
  lexer : Lexer
  own : List Token

/-- The part of the iterations that edits the queue. `dequeue` is `Q_dequeue`, `lexNext` the call
of `lex_line` for the next line. -/
def addWords (dequeue : List Token → List Token) (lexNext : Lexer → Lexed) (lineNum : Int) :
    List LineWord → Lexer → Lexed
  | [], lexer => ⟨.done true, lexer, []⟩
  | w :: ws, lexer =>
    if w.type == .ENDLINE && lexer.lastIs .BSLASH then
      let lexed := lexNext { lexer with q := dequeue lexer.q }
      match lexed.ending with
      | .done _ => addWords dequeue lexNext lineNum ws lexed.lexer
      | ending => ⟨ending, lexed.lexer, []⟩
    else if w.type != .ENDLINE || (!lexer.q.isEmpty && !lexer.lastIs .ENDLINE) then
      let tok : Token := ⟨w.type, lineNum, w.col, w.text⟩
      let lexed := addWords dequeue lexNext lineNum ws (lexer.enqueue tok)
      { lexed with own := tok :: lexed.own }
    else addWords dequeue lexNext lineNum ws lexer

/-- `lex_line` on a file that has at most `n` lines left. -/
def lexLines (dequeue : List Token → List Token) : Nat → Lexer → Lexed
  | 0, lexer => ⟨if lexer.fi.isEmpty then .done false else .unfinished, lexer, []⟩
  | n + 1, lexer =>
    match lexer.fi with
    | [] => ⟨.done false, lexer, []⟩
    | li :: fi =>
      let (ws, ending) := li.words lexer.escapeCharacters
      let lexed := addWords dequeue (lexLines dequeue n) li.lineNum ws { lexer with fi := fi }
      match lexed.ending with
      | .done _ => { lexed with ending := ending }
      | _ => lexed

/-- `lex_line` -/
def lexLine (dequeue : List Token → List Token) (lexer : Lexer) : Lexed :=
  lexLines dequeue lexer.fi.length lexer

end Lexer

end JeffVm
