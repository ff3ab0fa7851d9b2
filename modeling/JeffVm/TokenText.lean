import JeffVm.LineBounds

/-!
# The texts of tokens

`isComplex` says how many characters an operator takes and `specialType` which type it gets. The
two agree but for five pairs of characters.
-/

set_option autoImplicit false

namespace JeffVm

/-- The text of an operator; words, numbers, literals and line ends have none. -/
def TokenType.spelling : TokenType → Option String
  | .LPAREN => some "("
  | .RPAREN => some ")"
  | .LBRCE => some "\x7b"
  | .RBRCE => some "\x7d"
  | .LBRAC => some "["
  | .RBRAC => some "]"
  | .PLUS => some "+"
  | .MINUS => some "-"
  | .STAR => some "*"
  | .FSLASH => some "/"
  | .BSLASH => some "\\"
  | .PERCENT => some "%"
  | .AMPER => some "&"
  | .PIPE => some "|"
  | .CARET => some "^"
  | .TILDE => some "~"
  | .EXCLAIM => some "!"
  | .QUESTION => some "?"
  | .AT => some "@"
  | .POUND => some "#"
  | .LTHAN => some "<"
  | .GTHAN => some ">"
  | .EQUALS => some "="
  | .SEMICOLON => some ";"
  | .COMMA => some ","
  | .COLON => some ":"
  | .PERIOD => some "."
  | .LARROW => some "<-"
  | .RARROW => some "->"
  | .INCREMENT => some "++"
  | .DECREMENT => some "--"
  | .LTHANEQ => some "<="
  | .GTHANEQ => some ">="
  | .EQUIV => some "=="
  | .NEQUIV => some "!="
  | _ => none

/-- The pairs that are read as one word and have no type of their own. -/
def strayPairs : List (List Char) :=
  [['+', '='], ['-', '='], ['<', '<'], ['<', '>'], ['>', '>']]

/-- Whether a stray pair is read in the code of a line, from `part` on. -/
def hasStrayPair (escapeCharacters : Bool) : LinePart → List Char → Bool
  | .code, c :: d :: rest =>
    if isComplex [c, d] then strayPairs.contains [c, d] || hasStrayPair escapeCharacters .code rest
    else hasStrayPair escapeCharacters (LinePart.step escapeCharacters .code c) (d :: rest)
  | .code, _ => false
  | .comment, _ => false
  | .literal, c :: rest =>
    hasStrayPair escapeCharacters (LinePart.step escapeCharacters .literal c) rest
  | .escaped, _ :: rest => hasStrayPair escapeCharacters .literal rest
  | .literal, [] | .escaped, [] => false

/-- A word has the text of its type. -/
def LineWord.spelled (w : LineWord) : Prop := ∀ s ∈ w.type.spelling, w.text = s

/-! ## Types and texts -/

section

variable {c d : Char} {tail rest : List Char}

theorem TokenType.spelling_isWord {type : TokenType} (h : type.isWord = true) :
    type.spelling = none := by
  cases type <;> first | rfl | cases h

theorem specialType_none {sec : Option Char} (hspecial : isSpecialChar c = false)
    (hcomment : c ≠ codeCommentCh) : specialType c sec = none := by
  unfold specialType
  split
  all_goals first | rfl | exact absurd rfl hcomment | cases hspecial

theorem resolveType_single (hspecial : isSpecialChar c = true) (hquote : c ≠ '\'') :
    (resolveType [c]).spelling = some (String.ofList [c]) := by
  have hchars : (['(', ')', '{', '}', '[', ']', '+', '-', '*', '/', '\\', '%', '&', '|', '^',
      '~', '!', '?', '@', '#', '<', '>', '=', ',', ':', '.'].all fun c =>
      decide ((resolveType [c]).spelling = some (String.ofList [c]))) = true := by decide
  refine of_decide_eq_true (List.all_eq_true.mp hchars c ?_)
  simp only [isSpecialChar, decide_eq_true_eq, List.mem_cons] at hspecial ⊢
  grind

/-- The pairs with a type of their own. -/
def operatorPairs : List (List Char) :=
  [['+', '+'], ['-', '-'], ['-', '>'], ['<', '-'], ['<', '='], ['>', '='], ['=', '='], ['!', '=']]

theorem isComplex_cases (h : isComplex [c, d] = true) :
    [c, d] ∈ strayPairs ∨ [c, d] ∈ operatorPairs := by
  unfold isComplex at h
  split at h
  all_goals first | cases h | skip
  all_goals
    rename_i heq
    cases heq
    simp only [Bool.or_eq_true, beq_iff_eq, or_assoc] at h
  · rcases h with rfl | rfl <;> decide
  · rcases h with rfl | rfl | rfl <;> decide
  · rcases h with rfl | rfl | rfl | rfl <;> decide
  · rcases h with rfl | rfl <;> decide
  · subst h
    decide
  · subst h
    decide

theorem resolveType_double (h : isComplex [c, d] = true) :
    (∀ s ∈ (resolveType [c, d]).spelling, String.ofList [c, d] = s) ↔
      strayPairs.contains [c, d] = false := by
  rcases isComplex_cases h with hstray | hpair
  · have hpairs : ∀ pair ∈ strayPairs,
        ¬ ∀ s ∈ (resolveType pair).spelling, String.ofList pair = s := by decide
    have hcontains : strayPairs.contains [c, d] = true := List.contains_iff_mem.mpr hstray
    rw [hcontains]
    exact iff_of_false (hpairs _ hstray) Bool.true_eq_false.mp
  · have hpairs : ∀ pair ∈ operatorPairs, (∀ s ∈ (resolveType pair).spelling, String.ofList pair = s) ∧
        strayPairs.contains pair = false := by decide
    exact iff_of_true (hpairs _ hpair).1 (hpairs _ hpair).2

end

/-! ## Passing over words -/

section

variable {escape : Bool} {c : Char} {blanks tail text rest : List Char}

/-- No operator of two characters starts with it. -/
def isSimple (c : Char) : Prop := ∀ d, isComplex [c, d] = false

/-- A class of characters that has none of the first characters of pairs. -/
theorem isSimple_of_class {p : Char → Bool} (h : p c = true)
    (hp : ['+', '-', '<', '>', '=', '!'].any p = false) : isSimple c := by
  intro d
  rw [← Bool.not_eq_true]
  intro hcomplex
  have hhead : c ∈ ['+', '-', '<', '>', '=', '!'] := by
    unfold isComplex at hcomplex
    split at hcomplex
    all_goals first | cases hcomplex | skip
    all_goals
      rename_i heq
      cases heq
      decide
  exact List.any_eq_false.mp hp c hhead h

theorem hasStrayPair_nil {part : LinePart} : hasStrayPair escape part [] = false := by
  cases part <;> rfl

theorem hasStrayPair_simple (h : isSimple c) : hasStrayPair escape .code (c :: rest) =
    hasStrayPair escape (LinePart.step escape .code c) rest := by
  cases rest with
  | nil => exact hasStrayPair_nil.symm
  | cons d rest => rw [hasStrayPair, if_neg (Bool.eq_false_iff.mp (h d))]

theorem hasStrayPair_plain (hsimple : ∀ c ∈ text, isSimple c) (hquote : '\'' ∉ text)
    (hcomment : codeCommentCh ∉ text) :
    hasStrayPair escape .code (text ++ rest) = hasStrayPair escape .code rest := by
  induction text with
  | nil => rfl
  | cons c text ih =>
    obtain ⟨hquote_head, hquote⟩ := not_or.mp (mt List.mem_cons.mpr hquote)
    obtain ⟨hcomment_head, hcomment⟩ := not_or.mp (mt List.mem_cons.mpr hcomment)
    have hstep : LinePart.step escape .code c = .code := by
      rw [LinePart.step, if_neg (Ne.symm hquote_head), if_neg (Ne.symm hcomment_head)]
    rw [List.cons_append, hasStrayPair_simple (hsimple c List.mem_cons_self), hstep]
    exact ih (fun d hd => hsimple d (List.mem_cons_of_mem c hd)) hquote hcomment

theorem hasStrayPair_comment : hasStrayPair escape .comment text = false := by
  cases text <;> rfl

theorem isSimple_of_isWhitespace (h : isWhitespace c = true) : isSimple c :=
  isSimple_of_class h (by decide)

theorem hasStrayPair_blanks (hblanks : ∀ c ∈ blanks, isWhitespace c = true) :
    hasStrayPair escape .code (blanks ++ rest) = hasStrayPair escape .code rest :=
  hasStrayPair_plain (fun c hc => isSimple_of_isWhitespace (hblanks c hc))
    (not_mem_blanks hblanks rfl) (not_mem_blanks hblanks rfl)

theorem hasStrayPair_readStringLoop {unesc : Bool} {word : List Char}
    (h : readStringLoop escape unesc text = some (word, rest)) :
    hasStrayPair escape (if unesc then .escaped else .literal) text =
      hasStrayPair escape .code rest := by
  induction text generalizing unesc word with
  | nil => cases unesc <;> cases h
  | cons c text ih =>
    cases unesc with
    | true =>
      obtain ⟨⟨word', rest'⟩, hloop, heq⟩ := Option.map_eq_some_iff.mp h
      cases heq
      exact ih hloop
    | false =>
      have hstep : hasStrayPair escape .literal (c :: text) = hasStrayPair escape
        (if c = '\'' then .code else if c = '\\' ∧ escape then .escaped else .literal) text := rfl
      rw [readStringLoop] at h
      rw [if_neg Bool.false_ne_true, hstep]
      split at h
      · rename_i hquote
        cases h
        rw [if_pos hquote]
      rename_i hquote
      rw [if_neg hquote]
      split at h
      · rename_i hbackslash
        rw [if_pos hbackslash]
        exact ih h
      · rename_i hbackslash
        obtain ⟨⟨word', rest'⟩, hloop, heq⟩ := Option.map_eq_some_iff.mp h
        cases heq
        rw [if_neg hbackslash]
        exact ih hloop

/-! ## The words of a line -/

theorem isComplex_pair {d : Char} : isComplex (c :: d :: rest) = isComplex [c, d] := by
  unfold isComplex
  split <;> simp_all

theorem not_isSpecialChar_of_class {p : Char → Bool} (h : p c = true)
    (hp : ∀ d, isSpecialChar d = true → p d = false) : isSpecialChar c = false := by
  rw [← Bool.not_eq_true]
  intro hspecial
  rw [hp c hspecial] at h
  cases h

/-- An operator of one character, one of two, or a word without operators in it. -/
theorem Spells.kind (h : Spells c tail rest) (hcomment : c ≠ codeCommentCh) :
    (tail = [] ∧ isSpecialChar c = true ∧ isComplex (c :: rest) = false) ∨
      (∃ d, tail = [d] ∧ isComplex [c, d] = true) ∨
      (isSpecialChar c = false ∧ ∀ d ∈ c :: tail, isSimple d) := by
  cases h with
  | single hspecial hcomplex =>
    rcases Bool.or_eq_true_iff.mp hspecial with hspecial | hsemicolon
    · exact .inl ⟨rfl, hspecial, hcomplex⟩
    · exact absurd (eq_of_beq hsemicolon) hcomment
  | double hspecial hcomplex => exact .inr (.inl ⟨_, rfl, isComplex_pair ▸ hcomplex⟩)
  | number hnumeric hdigits =>
    refine .inr (.inr ⟨?_, ?_⟩)
    · exact not_isSpecialChar_of_class hnumeric (by simp [isSpecialChar, isNumeric])
    · intro d hd
      rcases List.mem_cons.mp hd with rfl | hd
      · exact isSimple_of_class hnumeric (by decide)
      · exact isSimple_of_class (p := fun d => isNumber d || d == 'f') (hdigits d hd) (by decide)
  | letters hletter hnumeric hletters =>
    refine .inr (.inr ⟨?_, ?_⟩)
    · exact not_isSpecialChar_of_class hletter
        (by simp [isSpecialChar, isAlphanumeric, isNumeric, isAlphabetic])
    · intro d hd
      rcases List.mem_cons.mp hd with rfl | hd
      · exact isSimple_of_class hletter (by decide)
      · exact isSimple_of_class (hletters d hd) (by decide)
  | other hspecial _ _ _ =>
    refine .inr (.inr ⟨hspecial, fun d hd => ?_⟩)
    cases List.mem_singleton.mp hd
    exact isSimple_of_class (p := fun c => !isSpecialChar c) (by simpa using hspecial) (by decide)

end

section

variable {escape comment : Bool} {col : Int} {text rest tail : List Char} {c : Char}
  {ws : List LineWord × Ending}

theorem wordText_eq (hnul : '\x00' ∉ c :: tail) : wordText c tail = String.ofList (c :: tail) := by
  rw [wordText, List.takeWhile_eq_self_iff.mpr]
  intro d hd
  have hne : d ≠ '\x00' := fun heq => hnul (heq ▸ hd)
  simpa using hne

theorem Spells.spelled_iff (h : Spells c tail rest) (hquote : c ≠ '\'') (hcomment : c ≠ codeCommentCh)
    (hnul : '\x00' ∉ c :: tail) {col : Int} :
    (LineWord.spelled ⟨resolveType (c :: tail), wordText c tail, col⟩ ∧
      hasStrayPair escape .code rest = false) ↔
      hasStrayPair escape .code (c :: (tail ++ rest)) = false := by
  have hcode : LinePart.step escape .code c = .code := by
    rw [LinePart.step, if_neg hquote, if_neg hcomment]
  rw [LineWord.spelled, wordText_eq hnul]
  rcases h.kind hcomment with ⟨rfl, hspecial, hcomplex⟩ | ⟨d, rfl, hcomplex⟩ | ⟨hspecial, hsimple⟩
  · have hspelling := resolveType_single hspecial hquote
    have hpass : hasStrayPair escape .code (c :: rest) = hasStrayPair escape .code rest := by
      cases rest with
      | nil => rfl
      | cons d rest =>
        rw [isComplex_pair] at hcomplex
        rw [hasStrayPair, if_neg (Bool.eq_false_iff.mp hcomplex), hcode]
    rw [hspelling, List.nil_append, hpass]
    simp
  · have hpass : hasStrayPair escape .code (c :: ([d] ++ rest)) =
        (strayPairs.contains [c, d] || hasStrayPair escape .code rest) := by
      rw [List.singleton_append, hasStrayPair, if_pos hcomplex]
    rw [hpass, Bool.or_eq_false_iff, ← resolveType_double hcomplex]
  · have hword : (resolveType (c :: tail)).isWord = true :=
      resolveType_isWord (specialType_none hspecial hcomment)
    have hquotes : '\'' ∉ c :: tail := by
      intro hmem
      rcases List.mem_cons.mp hmem with heq | hmem
      · exact hquote heq.symm
      · exact (h.plain hmem).1 rfl
    have hcomments : codeCommentCh ∉ c :: tail := by
      intro hmem
      rcases List.mem_cons.mp hmem with heq | hmem
      · exact hcomment heq.symm
      · exact (h.plain hmem).2.1 rfl
    rw [TokenType.spelling_isWord hword, ← List.cons_append,
      hasStrayPair_plain hsimple hquotes hcomments]
    exact and_iff_right fun s hs => absurd hs (Option.not_mem_none s)

theorem spelled_endline (col : Int) : LineWord.spelled ⟨.ENDLINE, "", col⟩ := nofun

theorem Scans.spelled_iff (h : Scans escape comment col text ws) (hdone : ws.2 = .done true)
    (hline : '\n' ∉ text.dropLast) (hnul : '\x00' ∉ text) : (∀ w ∈ ws.1, w.spelled) ↔
      hasStrayPair escape (.ofComment comment) text = false := by
  induction h with
  | @nul comment col =>
    rw [List.forall_mem_singleton, hasStrayPair_nil]
    exact iff_of_true (spelled_endline col) rfl
  | blanks => cases hdone
  | @newline comment col rest =>
    obtain rfl := nil_of_newline [] hline
    rw [List.forall_mem_singleton]
    refine iff_of_true (spelled_endline col) ?_
    cases comment <;> rfl
  | @blankLine comment col blanks rest hne hblanks =>
    obtain rfl := nil_of_newline blanks hline
    rw [List.forall_mem_cons, List.forall_mem_singleton]
    refine iff_of_true ⟨spelled_endline _, spelled_endline _⟩ ?_
    cases comment with
    | true => exact hasStrayPair_comment
    | false => exact hasStrayPair_blanks hblanks
  | @skip comment col blanks tail rest c ws hblanks hspells hskip hrest ih =>
    have hline := not_mem_dropLast_append (blanks ++ c :: tail) (by simpa using hline)
    have hnul : '\x00' ∉ rest := fun hmem => hnul (by simp [hmem])
    rw [ih hdone hline hnul]
    have hcomment : hasStrayPair escape (.ofComment true) rest = false := hasStrayPair_comment
    refine iff_of_true hcomment ?_
    cases comment with
    | true => exact hasStrayPair_comment
    | false =>
      obtain rfl : c = codeCommentCh := eq_of_beq hskip
      have hsemicolon : isSimple codeCommentCh := fun d => rfl
      rw [LinePart.ofComment, if_neg Bool.false_ne_true, hasStrayPair_blanks hblanks,
        hasStrayPair_simple hsemicolon]
      exact hasStrayPair_comment
  | @literal col blanks rest index str ws hblanks hread hrest ih =>
    obtain ⟨word, rfl⟩ := readString_suffix hread
    have hline := not_mem_dropLast_append (blanks ++ '\'' :: word) (by simpa using hline)
    have hnul : '\x00' ∉ index := fun hmem => hnul (by simp [hmem])
    obtain ⟨⟨word', rest'⟩, hloop, heq⟩ := Option.map_eq_some_iff.mp hread
    cases heq
    have hquote : isSimple '\'' := fun d => rfl
    have hpass := hasStrayPair_readStringLoop hloop
    rw [List.forall_mem_cons, ih hdone hline hnul, LinePart.ofComment, if_neg Bool.false_ne_true,
      hasStrayPair_blanks hblanks, hasStrayPair_simple hquote]
    have hspelled : ∀ text col, LineWord.spelled ⟨.STR, text, col⟩ :=
      fun _ _ s hs => absurd hs (Option.not_mem_none s)
    exact (and_iff_right (hspelled _ _)).trans (iff_of_eq (congrArg (· = false) hpass.symm))
  | openLiteral => cases hdone
  | @word col blanks tail rest c ws hblanks hspells hcomment hquote hrest ih =>
    have hline := not_mem_dropLast_append (blanks ++ c :: tail) (by simpa using hline)
    have hword : '\x00' ∉ c :: tail := fun hmem => hnul (by
      rcases List.mem_cons.mp hmem with heq | hmem
      · simp [← heq]
      · simp [hmem])
    have hnul : '\x00' ∉ rest := fun hmem => hnul (by simp [hmem])
    rw [List.forall_mem_cons, ih hdone hline hnul, LinePart.ofComment, if_neg Bool.false_ne_true,
      hasStrayPair_blanks hblanks]
    exact hspells.spelled_iff hquote hcomment hword

theorem filter_blanks {blanks : List Char} (hblanks : ∀ c ∈ blanks, isWhitespace c = true) :
    blanks.filter (fun c => !isAnySpace c) = [] := by
  rw [List.filter_eq_nil_iff]
  intro c hc
  have hblank := hblanks c hc
  simp only [isWhitespace, isAnySpace, Bool.or_eq_true, Bool.not_eq_true'] at hblank ⊢
  rw [Bool.not_eq_false]
  rcases hblank with (hspace | htab) | hreturn
  · simp [hspace]
  · simp [htab]
  · simp [hreturn]

/-- On a line without literals and comments the texts are the line without its blanks. -/
theorem Scans.texts (h : Scans escape comment col text ws) (hcode : comment = false)
    (hline : '\n' ∉ text.dropLast) (hnul : '\x00' ∉ text) (hquotes : '\'' ∉ text)
    (hcomments : codeCommentCh ∉ text) :
    ws.1.flatMap (fun w => w.text.toList) = text.filter fun c => !isAnySpace c := by
  induction h with
  | nul => rfl
  | @blanks comment col blanks hne hblanks =>
    rw [filter_blanks hblanks, hcode]
    rfl
  | @newline comment col rest =>
    obtain rfl := nil_of_newline [] hline
    rfl
  | @blankLine comment col blanks rest hne hblanks =>
    obtain rfl := nil_of_newline blanks hline
    rw [List.filter_append, filter_blanks hblanks]
    rfl
  | @skip comment col blanks tail rest c ws hblanks hspells hskip hrest ih =>
    rw [hcode, Bool.false_or] at hskip
    obtain rfl : c = codeCommentCh := eq_of_beq hskip
    exact absurd (by simp) hcomments
  | literal => exact absurd (by simp) hquotes
  | openLiteral => exact absurd (by simp) hquotes
  | @word col blanks tail rest c ws hblanks hspells hcomment hquote hrest ih =>
    have hline := not_mem_dropLast_append (blanks ++ c :: tail) (by simpa using hline)
    have hsub : ∀ {d : Char}, d ∉ blanks ++ c :: (tail ++ rest) → d ∉ c :: tail ∧ d ∉ rest := by
      intro d hd
      simp only [List.mem_append, List.mem_cons, not_or] at hd ⊢
      tauto
    obtain ⟨hword, hnul⟩ := hsub hnul
    have hspaces : (c :: tail).filter (fun c => !isAnySpace c) = c :: tail := by
      rw [List.filter_eq_self]
      intro d hd
      rcases List.mem_cons.mp hd with rfl | hd
      · rw [hspells.head_not_space]
        rfl
      · rw [(hspells.plain hd).2.2]
        rfl
    rw [List.flatMap_cons, ih rfl hline hnul (hsub hquotes).2 (hsub hcomments).2, wordText_eq hword,
      List.filter_append, filter_blanks hblanks, List.nil_append, ← List.cons_append,
      List.filter_append, hspaces, String.toList_ofList]

end

/-! ## Tokens -/

namespace Lexer

/-- What a call makes of a line: it stays on the line, operators have the texts of their types,
and without literals and comments nothing but blanks is lost. -/
structure KeepsOperators (lexer : Lexer) (li : LineInfo) (own : List Token) : Prop where
  stays : (li.words lexer.escapeCharacters).2.isDone = true
  spelled : ∀ tok ∈ own, ∀ s ∈ tok.type.spelling, tok.text = s
  whole : '\'' ∉ li.lineText → codeCommentCh ∉ li.lineText →
    own.flatMap (fun tok => tok.text.toList) = li.lineText.filter fun c => !isAnySpace c

theorem keepsOperators_iff {lexer : Lexer} {li : LineInfo} {own : List Token}
    {words ends : List LineWord} (hws : (li.words lexer.escapeCharacters).1 = words ++ ends)
    (hends : ∀ w ∈ ends, w.type = .ENDLINE ∧ w.text = "") {ownEnds : List Token}
    (hown : own = words.map (LineWord.token li.lineNum) ++ ownEnds)
    (hownEnds : ∀ tok ∈ ownEnds, ∃ w ∈ ends, tok = w.token li.lineNum) :
    lexer.KeepsOperators li own ↔ li.closed lexer.escapeCharacters = true ∧
      hasStrayPair lexer.escapeCharacters .code li.lineText = false := by
  have hscans := li.scans_words lexer.escapeCharacters
  have hdone := li.words_done_iff lexer.escapeCharacters
  have hendlines : ∀ w ∈ ends, w.spelled := by
    intro w hw
    rw [LineWord.spelled, (hends w hw).1]
    exact nofun
  have hspelled : (∀ tok ∈ own, ∀ s ∈ tok.type.spelling, tok.text = s) ↔
      ∀ w ∈ (li.words lexer.escapeCharacters).1, w.spelled := by
    rw [hws, hown, List.forall_mem_append, List.forall_mem_append, List.forall_mem_map]
    refine and_congr Iff.rfl (iff_of_true ?_ hendlines)
    intro tok htok
    obtain ⟨w, hw, rfl⟩ := hownEnds tok htok
    exact hendlines w hw
  have htexts : own.flatMap (fun tok => tok.text.toList) =
      (li.words lexer.escapeCharacters).1.flatMap fun w => w.text.toList := by
    have hleft : ends.flatMap (fun w => w.text.toList) = [] := by
      rw [List.flatMap_eq_nil_iff]
      intro w hw
      rw [(hends w hw).2]
      rfl
    have hright : ownEnds.flatMap (fun tok => tok.text.toList) = [] := by
      rw [List.flatMap_eq_nil_iff]
      intro tok htok
      obtain ⟨w, hw, rfl⟩ := hownEnds tok htok
      rw [LineWord.token, (hends w hw).2]
      rfl
    rw [hws, hown, List.flatMap_append, List.flatMap_append, hleft, hright, List.flatMap_map]
    rfl
  constructor
  · rintro ⟨hstays, hkeeps, -⟩
    have hending : (li.words lexer.escapeCharacters).2 = .done true := by
      rcases hscans.ending with hending | hending
      · exact hending
      · rw [hending] at hstays
        cases hstays
    refine ⟨hdone.mp hending, ?_⟩
    exact (hscans.spelled_iff hending li.oneLine li.terminated).mp (hspelled.mp hkeeps)
  · rintro ⟨hclosed, hstray⟩
    have hending := hdone.mpr hclosed
    refine ⟨by rw [hending]; rfl, ?_, fun hquotes hcomments => ?_⟩
    · exact hspelled.mpr ((hscans.spelled_iff hending li.oneLine li.terminated).mpr hstray)
    · rw [htexts]
      exact hscans.texts rfl li.oneLine li.terminated hquotes hcomments

end Lexer

end JeffVm
