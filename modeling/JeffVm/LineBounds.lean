import JeffVm.Lexing

/-!
# Where the lexer stays on a line

A pass over the text of a line says at which characters a literal or a comment is open. The loop
of `lex_line` stays on the line exactly when no literal is open at the end and the last character
is no blank.
-/

set_option autoImplicit false

namespace JeffVm

/-- What stands open at a character of a line. -/
inductive LinePart where
  | code
  | comment
  | literal
  | escaped
  deriving DecidableEq, Repr

namespace LinePart

def step (escapeCharacters : Bool) : LinePart → Char → LinePart
  | .code, c => if c = '\'' then .literal else if c = codeCommentCh then .comment else .code
  | .comment, _ => .comment
  | .literal, c =>
    if c = '\'' then .code else if c = '\\' ∧ escapeCharacters then .escaped else .literal
  | .escaped, _ => .literal

def after (escapeCharacters : Bool) (part : LinePart) (text : List Char) : LinePart :=
  text.foldl (step escapeCharacters) part

/-- No literal is open. -/
def isClosed : LinePart → Bool
  | .code | .comment => true
  | .literal | .escaped => false

end LinePart

/-- From `part` on, every literal is closed in `text`, and `text` does not end in a blank. -/
def closedFrom (escapeCharacters : Bool) (part : LinePart) (text : List Char) : Bool :=
  (part.after escapeCharacters text).isClosed && !(text.getLast?.any isWhitespace)

def LineInfo.closed (li : LineInfo) (escapeCharacters : Bool) : Bool :=
  closedFrom escapeCharacters .code li.lineText

/-! ## Passing over words -/

section

variable {escape : Bool} {part : LinePart} {c : Char} {blanks tail text rest : List Char}

theorem LinePart.after_append :
    part.after escape (text ++ rest) = (part.after escape text).after escape rest :=
  List.foldl_append

theorem LinePart.after_comment : LinePart.after escape .comment text = .comment := by
  induction text with
  | nil => rfl
  | cons c text ih => exact ih

theorem LinePart.after_code (hquote : '\'' ∉ text) (hcomment : codeCommentCh ∉ text) :
    LinePart.after escape .code text = .code := by
  induction text with
  | nil => rfl
  | cons c text ih =>
    obtain ⟨hquote_head, hquote⟩ := not_or.mp (mt List.mem_cons.mpr hquote)
    obtain ⟨hcomment_head, hcomment⟩ := not_or.mp (mt List.mem_cons.mpr hcomment)
    have hstep : LinePart.step escape .code c = .code := by
      rw [LinePart.step, if_neg (Ne.symm hquote_head), if_neg (Ne.symm hcomment_head)]
    have hafter := ih hquote hcomment
    rw [LinePart.after, List.foldl_cons, hstep]
    exact hafter

/-- The characters of a word behind its first one. -/
theorem Spells.plain (h : Spells c tail rest) {d : Char} (hd : d ∈ tail) :
    d ≠ '\'' ∧ d ≠ codeCommentCh ∧ isAnySpace d = false := by
  have hword : ∀ {d : Char}, isAlphanumeric d = true ∨ isNumber d = true →
      d ≠ '\'' ∧ d ≠ codeCommentCh ∧ isAnySpace d = false := by
    intro d hd
    refine ⟨?_, ?_, ?_⟩
    · rintro rfl
      rcases hd with hd | hd <;> cases hd
    · rintro rfl
      rcases hd with hd | hd <;> cases hd
    · rw [← Bool.not_eq_true]
      intro hspace
      have hcases : d = ' ' ∨ d = '\t' ∨ d = '\n' ∨ d = '\r' := by
        simpa [isAnySpace, or_assoc] using hspace
      rcases hcases with rfl | rfl | rfl | rfl
      all_goals rcases hd with hd | hd <;> cases hd
  cases h with
  | single => cases hd
  | other => cases hd
  | double hspecial hcomplex =>
    rw [List.mem_singleton] at hd
    subst hd
    have hsecond : d = '+' ∨ d = '-' ∨ d = '=' ∨ d = '>' ∨ d = '<' := by
      unfold isComplex at hcomplex
      split at hcomplex
      all_goals first | cases hcomplex | skip
      all_goals
        rename_i heq
        cases heq
        simp only [Bool.or_eq_true, beq_iff_eq] at hcomplex
        grind
    rcases hsecond with rfl | rfl | rfl | rfl | rfl
    all_goals exact ⟨by decide, by decide, rfl⟩
  | number _ hdigits =>
    rcases Bool.or_eq_true_iff.mp (hdigits d hd) with hnumber | hf
    · exact hword (.inr hnumber)
    · cases eq_of_beq hf
      exact ⟨by decide, by decide, rfl⟩
  | letters _ _ hletters => exact hword (.inl (hletters d hd))

theorem Spells.head_not_space (h : Spells c tail rest) : isAnySpace c = false := by
  rw [← Bool.not_eq_true]
  intro hspace
  have hcases : c = ' ' ∨ c = '\t' ∨ c = '\n' ∨ c = '\r' := by
    simpa [isAnySpace, or_assoc] using hspace
  cases h with
  | single hspecial => rcases hcases with rfl | rfl | rfl | rfl <;> cases hspecial
  | double hspecial => rcases hcases with rfl | rfl | rfl | rfl <;> cases hspecial
  | number hnumeric => rcases hcases with rfl | rfl | rfl | rfl <;> cases hnumeric
  | letters hletter => rcases hcases with rfl | rfl | rfl | rfl <;> cases hletter
  | other _ _ hnot =>
    rw [hnot] at hspace
    cases hspace

theorem isWhitespace_of_isAnySpace (h : isAnySpace c = false) : isWhitespace c = false := by
  simp only [isAnySpace, isWhitespace, Bool.or_eq_false_iff] at h ⊢
  exact ⟨h.1.1, h.2⟩

theorem Spells.not_blank (h : Spells c tail rest) : ∀ d ∈ c :: tail, isWhitespace d = false := by
  intro d hd
  apply isWhitespace_of_isAnySpace
  rcases List.mem_cons.mp hd with rfl | hd
  · exact h.head_not_space
  · exact (h.plain hd).2.2

theorem not_mem_blanks {d : Char} (hblanks : ∀ c ∈ blanks, isWhitespace c = true)
    (hd : isWhitespace d = false) : d ∉ blanks := by
  intro hmem
  have hblank := hblanks d hmem
  rw [hd] at hblank
  cases hblank

theorem LinePart.after_blanks (hblanks : ∀ c ∈ blanks, isWhitespace c = true) :
    LinePart.after escape .code blanks = .code :=
  LinePart.after_code (not_mem_blanks hblanks rfl) (not_mem_blanks hblanks rfl)

theorem LinePart.after_word (h : Spells c tail rest) (hquote : c ≠ '\'')
    (hcomment : c ≠ codeCommentCh) : LinePart.after escape .code (c :: tail) = .code := by
  apply LinePart.after_code
  · intro hmem
    rcases List.mem_cons.mp hmem with heq | htail
    · exact hquote heq.symm
    · exact (h.plain htail).1 rfl
  · intro hmem
    rcases List.mem_cons.mp hmem with heq | htail
    · exact hcomment heq.symm
    · exact (h.plain htail).2.1 rfl

/-- Whether the line ends in a blank is decided behind text that does not. -/
theorem closedFrom_append (htext : text ≠ [])
    (hlast : ∀ c ∈ text.getLast?, isWhitespace c = false) :
    closedFrom escape part (text ++ rest) = closedFrom escape (part.after escape text) rest := by
  have hany : (text ++ rest).getLast?.any isWhitespace = rest.getLast?.any isWhitespace := by
    cases rest with
    | nil =>
      have hc := List.getLast?_eq_some_getLast htext
      rw [List.append_nil, hc, Option.any_some, hlast _ hc]
      rfl
    | cons d rest => rw [List.getLast?_append_of_ne_nil text (List.cons_ne_nil d rest)]
  rw [closedFrom, closedFrom, LinePart.after_append, hany]

/-- A literal that is read to its end is closed by the last character read. -/
theorem readStringLoop_closes {unesc : Bool} {word : List Char}
    (h : readStringLoop escape unesc text = some (word, rest)) :
    ∃ read, text = read ++ '\'' :: rest ∧
      LinePart.after escape (if unesc then .escaped else .literal) (read ++ ['\'']) = .code := by
  induction text generalizing unesc word with
  | nil => cases unesc <;> cases h
  | cons c text ih =>
    cases unesc with
    | true =>
      obtain ⟨⟨word', rest'⟩, hloop, heq⟩ := Option.map_eq_some_iff.mp h
      cases heq
      obtain ⟨read, rfl, hafter⟩ := ih hloop
      exact ⟨c :: read, rfl, hafter⟩
    | false =>
      rw [readStringLoop] at h
      split at h
      · rename_i hquote
        cases h
        exact ⟨[], by rw [hquote, List.nil_append], rfl⟩
      rename_i hquote
      split at h
      · rename_i hbackslash
        obtain ⟨read, rfl, hafter⟩ := ih h
        have hstep : LinePart.step escape .literal c = .escaped := by
          rw [LinePart.step, if_neg hquote, if_pos hbackslash]
        refine ⟨c :: read, rfl, ?_⟩
        rw [LinePart.after, List.cons_append, List.foldl_cons, if_neg Bool.false_ne_true, hstep]
        exact hafter
      · rename_i hbackslash
        obtain ⟨⟨word', rest'⟩, hloop, heq⟩ := Option.map_eq_some_iff.mp h
        cases heq
        obtain ⟨read, rfl, hafter⟩ := ih hloop
        have hstep : LinePart.step escape .literal c = .literal := by
          rw [LinePart.step, if_neg hquote, if_neg hbackslash]
        refine ⟨c :: read, rfl, ?_⟩
        rw [LinePart.after, List.cons_append, List.foldl_cons, if_neg Bool.false_ne_true, hstep]
        exact hafter

theorem readStringLoop_open {unesc : Bool} (h : readStringLoop escape unesc text = none) :
    (LinePart.after escape (if unesc then .escaped else .literal) text).isClosed = false := by
  induction text generalizing unesc with
  | nil => cases unesc <;> rfl
  | cons c text ih =>
    cases unesc with
    | true => exact ih (Option.map_eq_none_iff.mp h)
    | false =>
      rw [readStringLoop] at h
      split at h
      · cases h
      rename_i hquote
      rw [LinePart.after, List.foldl_cons, if_neg Bool.false_ne_true, LinePart.step, if_neg hquote]
      split at h
      · rename_i hbackslash
        rw [if_pos hbackslash]
        exact ih h
      · rename_i hbackslash
        rw [if_neg hbackslash]
        exact ih (Option.map_eq_none_iff.mp h)

theorem closedFrom_literal {str : String} (hread : readString text escape = some (str, rest)) :
    closedFrom escape .code ('\'' :: text) = closedFrom escape .code rest := by
  obtain ⟨⟨word, rest⟩, hloop, heq⟩ := Option.map_eq_some_iff.mp hread
  cases heq
  obtain ⟨read, rfl, hafter⟩ := readStringLoop_closes hloop
  have hsplit : '\'' :: (read ++ '\'' :: rest) = ('\'' :: (read ++ ['\''])) ++ rest := by
    rw [List.cons_append, List.append_assoc]
    rfl
  have hlast : ∀ c ∈ ('\'' :: (read ++ ['\''])).getLast?, isWhitespace c = false := by
    intro c hc
    rw [← List.cons_append, List.getLast?_concat] at hc
    cases hc
    rfl
  rw [hsplit, closedFrom_append (List.cons_ne_nil _ _) hlast]
  have hcode : LinePart.after escape .code ('\'' :: (read ++ ['\''])) = .code := hafter
  rw [hcode]

theorem not_closedFrom_openLiteral (hread : readString text escape = none) :
    closedFrom escape .code ('\'' :: text) = false := by
  have hopen := readStringLoop_open (Option.map_eq_none_iff.mp hread)
  have hafter : (LinePart.after escape .code ('\'' :: text)).isClosed = false := hopen
  rw [closedFrom, hafter, Bool.false_and]

end

/-! ## The loop -/

section

variable {escape comment : Bool} {col : Int} {text rest : List Char} {ws : List LineWord × Ending}

theorem not_mem_dropLast_append (before : List Char) (h : '\n' ∉ (before ++ text).dropLast) :
    '\n' ∉ text.dropLast := by
  cases text with
  | nil => exact List.not_mem_nil
  | cons c text =>
    rw [List.dropLast_append_of_ne_nil (List.cons_ne_nil c text)] at h
    exact fun hmem => h (List.mem_append_right before hmem)

theorem nil_of_newline (before : List Char) (h : '\n' ∉ (before ++ '\n' :: rest).dropLast) :
    rest = [] := by
  cases rest with
  | nil => rfl
  | cons c rest =>
    rw [List.dropLast_append_of_ne_nil (List.cons_ne_nil _ _), List.dropLast_cons_cons] at h
    exact absurd (List.mem_append_right before List.mem_cons_self) h

/-- What the flag `in_comment` stands for. -/
def LinePart.ofComment (comment : Bool) : LinePart := if comment then .comment else .code

theorem closedFrom_endsBlank {part : LinePart} (hne : text ≠ [])
    (hblanks : ∀ c ∈ text, isWhitespace c = true) : closedFrom escape part text = false := by
  have hlast := List.getLast?_eq_some_getLast hne
  have hblank := hblanks _ (List.getLast_mem hne)
  rw [closedFrom, hlast, Option.any_some, hblank, Bool.not_true, Bool.and_false]

theorem LinePart.after_ofComment_blanks {blanks : List Char}
    (hblanks : ∀ c ∈ blanks, isWhitespace c = true) :
    (LinePart.ofComment comment).after escape blanks = .ofComment comment := by
  cases comment with
  | true => exact LinePart.after_comment
  | false => exact LinePart.after_blanks hblanks

theorem closedFrom_newline {part : LinePart} (h : part.isClosed = true) :
    closedFrom escape part ['\n'] = true := by
  cases part with
  | code => rfl
  | comment => rfl
  | literal => cases h
  | escaped => cases h

theorem closedFrom_blanks {blanks : List Char} (hblanks : ∀ c ∈ blanks, isWhitespace c = true) :
    closedFrom escape .code (blanks ++ '\'' :: rest) = closedFrom escape .code ('\'' :: rest) := by
  have hlast : (blanks ++ '\'' :: rest).getLast? = ('\'' :: rest).getLast? :=
    List.getLast?_append_of_ne_nil blanks (List.cons_ne_nil _ _)
  rw [closedFrom, closedFrom, LinePart.after_append, LinePart.after_blanks hblanks, hlast]

theorem readString_suffix {index : List Char} {str : String}
    (h : readString text escape = some (str, index)) : ∃ word, text = word ++ index := by
  obtain ⟨⟨word, index⟩, hloop, heq⟩ := Option.map_eq_some_iff.mp h
  cases heq
  obtain ⟨read, rfl, -⟩ := readStringLoop_closes hloop
  exact ⟨read ++ ['\''], by simp⟩

theorem Spells.closedFrom_append {part : LinePart} {blanks tail : List Char} {c : Char}
    (h : Spells c tail rest) : closedFrom escape part (blanks ++ c :: (tail ++ rest)) =
      closedFrom escape (part.after escape (blanks ++ c :: tail)) rest := by
  have hsplit : blanks ++ c :: (tail ++ rest) = (blanks ++ c :: tail) ++ rest := by simp
  have hne : blanks ++ c :: tail ≠ [] := List.append_ne_nil_of_right_ne_nil _ (List.cons_ne_nil c tail)
  rw [hsplit, JeffVm.closedFrom_append hne]
  intro d hd
  rw [List.getLast?_append_of_ne_nil blanks (List.cons_ne_nil c tail)] at hd
  exact h.not_blank d (List.mem_of_getLast? hd)

theorem Scans.done_iff (h : Scans escape comment col text ws) (hline : '\n' ∉ text.dropLast) :
    ws.2 = .done true ↔ closedFrom escape (.ofComment comment) text = true := by
  induction h with
  | @nul comment =>
    cases comment <;> exact iff_of_true rfl rfl
  | blanks hne hblanks =>
    rw [closedFrom_endsBlank hne hblanks]
    exact iff_of_false Ending.noConfusion Bool.false_ne_true
  | @newline comment col rest =>
    obtain rfl := nil_of_newline [] hline
    cases comment <;> exact iff_of_true rfl rfl
  | @blankLine comment col blanks rest hne hblanks =>
    obtain rfl := nil_of_newline blanks hline
    have hclosed : (LinePart.ofComment comment).isClosed = true := by cases comment <;> rfl
    have hafter : (LinePart.ofComment comment).after escape blanks = .ofComment comment :=
      LinePart.after_ofComment_blanks hblanks
    have htext : closedFrom escape (.ofComment comment) (blanks ++ ['\n']) = true := by
      rw [closedFrom, LinePart.after_append, hafter, List.getLast?_concat]
      exact closedFrom_newline hclosed
    exact iff_of_true rfl htext
  | @skip comment col blanks tail rest c ws hblanks hspells hskip hrest ih =>
    have hline := not_mem_dropLast_append (blanks ++ c :: tail) (by simpa using hline)
    have hafter : (LinePart.ofComment comment).after escape (blanks ++ c :: tail) = .comment := by
      rw [LinePart.after_append, LinePart.after_ofComment_blanks hblanks]
      cases comment with
      | true => exact LinePart.after_comment
      | false =>
        obtain rfl : c = codeCommentCh := eq_of_beq hskip
        exact LinePart.after_comment
    rw [hspells.closedFrom_append, hafter]
    exact ih hline
  | @literal col blanks rest index str ws hblanks hread hrest ih =>
    obtain ⟨word, rfl⟩ := readString_suffix hread
    have hline := not_mem_dropLast_append (blanks ++ '\'' :: word) (by simpa using hline)
    rw [LinePart.ofComment, if_neg Bool.false_ne_true, closedFrom_blanks hblanks,
      closedFrom_literal hread]
    exact ih hline
  | @openLiteral col blanks rest hblanks hread =>
    rw [LinePart.ofComment, if_neg Bool.false_ne_true, closedFrom_blanks hblanks,
      not_closedFrom_openLiteral hread]
    exact iff_of_false Ending.noConfusion Bool.false_ne_true
  | @word col blanks tail rest c ws hblanks hspells hcomment hquote hrest ih =>
    have hline := not_mem_dropLast_append (blanks ++ c :: tail) (by simpa using hline)
    have hafter : LinePart.after escape .code (blanks ++ c :: tail) = .code := by
      rw [LinePart.after_append, LinePart.after_blanks hblanks]
      exact LinePart.after_word hspells hquote hcomment
    rw [LinePart.ofComment, if_neg Bool.false_ne_true, hspells.closedFrom_append, hafter]
    exact ih hline

end

/-! ## Calls of `lex_line` -/

def Ending.isDone : Ending → Bool
  | .done _ => true
  | .overrun | .unfinished => false

theorem Scans.ending {escape comment : Bool} {col : Int} {text : List Char}
    {ws : List LineWord × Ending} (h : Scans escape comment col text ws) :
    ws.2 = .done true ∨ ws.2 = .overrun := by
  induction h with
  | nul => exact .inl rfl
  | blanks => exact .inr rfl
  | newline => exact .inl rfl
  | blankLine => exact .inl rfl
  | skip _ _ _ _ ih => exact ih
  | literal _ _ _ ih => exact ih
  | openLiteral => exact .inr rfl
  | word _ _ _ _ _ ih => exact ih

theorem Scans.ends_of_done {escape comment : Bool} {col : Int} {text : List Char}
    {ws : List LineWord × Ending} (h : Scans escape comment col text ws) (hdone : ws.2 = .done true) :
    ∃ w ∈ ws.1, w.type = .ENDLINE := by
  induction h with
  | nul => exact ⟨_, List.mem_cons_self, rfl⟩
  | blanks => cases hdone
  | newline => exact ⟨_, List.mem_cons_self, rfl⟩
  | blankLine => exact ⟨_, List.mem_cons_self, rfl⟩
  | skip _ _ _ _ ih => exact ih hdone
  | literal _ _ _ ih =>
    obtain ⟨w, hw, hend⟩ := ih hdone
    exact ⟨w, List.mem_cons_of_mem _ hw, hend⟩
  | openLiteral => cases hdone
  | word _ _ _ _ _ ih =>
    obtain ⟨w, hw, hend⟩ := ih hdone
    exact ⟨w, List.mem_cons_of_mem _ hw, hend⟩

theorem LineInfo.scans_words (li : LineInfo) (escape : Bool) :
    Scans escape false 0 li.lineText (li.words escape) :=
  scans_wordsFrom (Nat.le_refl _)

theorem LineInfo.words_done_iff (li : LineInfo) (escape : Bool) :
    (li.words escape).2 = .done true ↔ li.closed escape = true :=
  (li.scans_words escape).done_iff li.oneLine

/-- The words of a line and its ends. -/
theorem Scans.parts {escape comment : Bool} {col : Int} {text : List Char}
    {ws : List LineWord × Ending} (h : Scans escape comment col text ws) :
    ∃ words ends, ws.1 = words ++ ends ∧ (∀ w ∈ words, w.type ≠ .ENDLINE) ∧
      ∀ w ∈ ends, w.type = .ENDLINE ∧ w.text = "" := by
  induction h with
  | nul => exact ⟨[], _, rfl, List.forall_mem_nil _, by simp⟩
  | @blanks comment col blanks _ _ =>
    cases comment with
    | true => exact ⟨[], [], rfl, List.forall_mem_nil _, List.forall_mem_nil _⟩
    | false => exact ⟨_, [], (List.append_nil _).symm, by simp, List.forall_mem_nil _⟩
  | newline => exact ⟨[], _, rfl, List.forall_mem_nil _, by simp⟩
  | blankLine => exact ⟨[], _, rfl, List.forall_mem_nil _, by simp⟩
  | skip _ _ _ _ ih => exact ih
  | literal _ _ _ ih =>
    obtain ⟨words, ends, hws, hwords, hends⟩ := ih
    rw [hws]
    exact ⟨_ :: words, ends, rfl, List.forall_mem_cons.mpr ⟨TokenType.noConfusion, hwords⟩, hends⟩
  | openLiteral => exact ⟨[], [], rfl, List.forall_mem_nil _, List.forall_mem_nil _⟩
  | word _ _ _ _ _ ih =>
    obtain ⟨words, ends, hws, hwords, hends⟩ := ih
    rw [hws]
    refine ⟨_ :: words, ends, rfl, ?_, hends⟩
    exact List.forall_mem_cons.mpr ⟨resolveType_ne_endline _ _, hwords⟩

def LineWord.token (lineNum : Int) (w : LineWord) : Token := ⟨w.type, lineNum, w.col, w.text⟩

namespace Lexer

def enqueueAll (lexer : Lexer) (toks : List Token) : Lexer :=
  { lexer with q := lexer.q ++ toks, created := lexer.created ++ toks }

section

variable {dequeue : List Token → List Token} {lexNext : Lexer → Lexed} {lineNum : Int}

/-- The words in front of the ends all get a token. -/
theorem addWords_append {words ends : List LineWord} (hwords : ∀ w ∈ words, w.type ≠ .ENDLINE)
    (lexer : Lexer) :
    let lexed := addWords dequeue lexNext lineNum ends
      (lexer.enqueueAll (words.map (LineWord.token lineNum)))
    addWords dequeue lexNext lineNum (words ++ ends) lexer =
      { lexed with own := words.map (LineWord.token lineNum) ++ lexed.own } := by
  induction words generalizing lexer with
  | nil => simp [enqueueAll]
  | cons w words ih =>
    obtain ⟨hw, hwords⟩ := List.forall_mem_cons.mp hwords
    have hends : (w.type == .ENDLINE && lexer.lastIs .BSLASH) = false := by simp [hw]
    have henqueue : (w.type != .ENDLINE || (!lexer.q.isEmpty && !lexer.lastIs .ENDLINE)) = true := by
      simp [hw]
    have hall : lexer.enqueueAll ((w :: words).map (LineWord.token lineNum)) =
        (lexer.enqueue (w.token lineNum)).enqueueAll (words.map (LineWord.token lineNum)) := by
      simp [enqueueAll, enqueue]
    have hrest := ih hwords (lexer.enqueue (w.token lineNum))
    rw [List.cons_append, addWords, if_neg (Bool.eq_false_iff.mp hends), if_pos henqueue, hall]
    dsimp only at hrest ⊢
    rw [LineWord.token] at hrest
    rw [hrest]
    rfl

/-- The ends of a line give one token at most. -/
theorem addWords_ends {ends : List LineWord} (hends : ∀ w ∈ ends, w.type = .ENDLINE ∧ w.text = "")
    (lexer : Lexer) :
    let own := (addWords dequeue lexNext lineNum ends lexer).own
    own.length ≤ 1 ∧ (lexer.lastIs .ENDLINE = true → own = []) ∧
      ∀ tok ∈ own, ∃ w ∈ ends, tok = w.token lineNum := by
  induction ends generalizing lexer with
  | nil => exact ⟨Nat.zero_le _, fun _ => rfl, List.forall_mem_nil _⟩
  | cons w ends ih =>
    obtain ⟨⟨htype, -⟩, hends⟩ := List.forall_mem_cons.mp hends
    have hmem : ∀ {own : List Token}, (∀ tok ∈ own, ∃ w ∈ ends, tok = w.token lineNum) →
        ∀ tok ∈ own, ∃ w' ∈ w :: ends, tok = w'.token lineNum := fun hown tok htok => by
      obtain ⟨w', hw', htok⟩ := hown tok htok
      exact ⟨w', List.mem_cons_of_mem w hw', htok⟩
    rw [addWords]
    split
    · rename_i hbslash
      have hlast : lexer.lastIs .ENDLINE = false := by
        have hbslash := (Bool.and_eq_true_iff.mp hbslash).2
        unfold lastIs at hbslash ⊢
        rw [eq_of_beq hbslash]
        rfl
      rw [hlast]
      dsimp only
      split
      · obtain ⟨hlength, -, hown⟩ := ih hends
          (lexNext { lexer with q := dequeue lexer.q }).lexer
        exact ⟨hlength, fun h => absurd h Bool.false_ne_true, hmem hown⟩
      · exact ⟨Nat.zero_le _, fun h => absurd h Bool.false_ne_true, List.forall_mem_nil _⟩
    split
    · rename_i henqueue
      obtain ⟨-, hrest, -⟩ := ih hends (lexer.enqueue (w.token lineNum))
      have hlast : (lexer.enqueue (w.token lineNum)).lastIs .ENDLINE = true := by
        simp [lastIs, enqueue, LineWord.token, htype]
      have hown := hrest hlast
      have hnot : ¬lexer.q = [] ∧ lexer.lastIs .ENDLINE = false := by
        simpa [htype] using henqueue
      rw [LineWord.token] at hown
      dsimp only
      rw [hown, hnot.2]
      refine ⟨Nat.le_refl 1, fun h => absurd h Bool.false_ne_true, ?_⟩
      exact List.forall_mem_singleton.mpr ⟨w, List.mem_cons_self, rfl⟩
    · obtain ⟨hlength, hlast, hown⟩ := ih hends lexer
      exact ⟨hlength, hlast, hmem hown⟩

/-- What the queue edits and the calls for further lines keep, the words of a line keep. -/
theorem addWords_keeps (I : Lexer → Prop) (E : Ending → Prop) (hdone : E (.done true))
    (henqueue : ∀ (lexer : Lexer) (w : LineWord), I lexer → I (lexer.enqueue (w.token lineNum)))
    (hdequeue : ∀ lexer : Lexer, I lexer → I { lexer with q := dequeue lexer.q })
    (hnext : ∀ lexer, I lexer → E (lexNext lexer).ending ∧ I (lexNext lexer).lexer)
    (ws : List LineWord) (lexer : Lexer) (hlexer : I lexer) :
    E (addWords dequeue lexNext lineNum ws lexer).ending ∧
      I (addWords dequeue lexNext lineNum ws lexer).lexer := by
  induction ws generalizing lexer with
  | nil => exact ⟨hdone, hlexer⟩
  | cons w ws ih =>
    rw [addWords]
    split
    · have hlexed := hnext _ (hdequeue _ hlexer)
      dsimp only
      split
      · exact ih _ hlexed.2
      · exact hlexed
    split
    · exact ih _ (henqueue _ _ hlexer)
    · exact ih _ hlexer

theorem lexLines_cons {n : Nat} {lexer : Lexer} {li : LineInfo} {fi : List LineInfo}
    (hfi : lexer.fi = li :: fi) :
    let lexed := addWords dequeue (lexLines dequeue n) li.lineNum (li.words lexer.escapeCharacters).1
      { lexer with fi := fi }
    (lexLines dequeue (n + 1) lexer).lexer = lexed.lexer ∧
      (lexLines dequeue (n + 1) lexer).own = lexed.own ∧
      (lexLines dequeue (n + 1) lexer).ending =
        if lexed.ending.isDone then (li.words lexer.escapeCharacters).2 else lexed.ending := by
  intro lexed
  rw [lexLines, hfi]
  dsimp only
  split
  · rename_i more hmore
    have hdone : lexed.ending = .done more := hmore
    rw [hdone]
    exact ⟨rfl, rfl, rfl⟩
  · rename_i hmore
    have hdone : lexed.ending.isDone = false := by
      cases hending : lexed.ending with
      | done more => exact absurd hending (hmore more)
      | overrun => rfl
      | unfinished => rfl
    rw [hdone]
    exact ⟨rfl, rfl, rfl⟩

theorem lexLines_nil {n : Nat} {lexer : Lexer} (hfi : lexer.fi = []) :
    lexLines dequeue n lexer = ⟨.done false, lexer, []⟩ := by
  cases n with
  | zero => rw [lexLines, hfi]; rfl
  | succ n => rw [lexLines, hfi]

/-- The lines that are left are the last ones; the flag is kept. -/
theorem lexLines_fi (n : Nat) (lexer : Lexer) : (lexLines dequeue n lexer).lexer.fi <:+ lexer.fi ∧
    (lexLines dequeue n lexer).lexer.escapeCharacters = lexer.escapeCharacters := by
  induction n generalizing lexer with
  | zero => exact ⟨List.suffix_refl _, rfl⟩
  | succ n ih =>
    cases hfi : lexer.fi with
    | nil =>
      rw [lexLines_nil hfi, hfi]
      exact ⟨List.suffix_refl _, rfl⟩
    | cons li fi =>
      have hkeeps := @addWords_keeps dequeue (lexLines dequeue n) li.lineNum
        (fun l => l.fi <:+ fi ∧ l.escapeCharacters = lexer.escapeCharacters) (fun _ => True)
        trivial (fun _ _ h => h) (fun _ h => h)
        (fun l h => ⟨trivial, (ih l).1.trans h.1, (ih l).2.trans h.2⟩)
        (li.words lexer.escapeCharacters).1 { lexer with fi := fi } ⟨List.suffix_refl fi, rfl⟩
      rw [(lexLines_cons hfi).1]
      exact ⟨hkeeps.2.1.trans (List.suffix_cons li fi), hkeeps.2.2⟩

/-- The tokens a call creates itself: those of the words, and one for the ends at most. -/
theorem lexLines_own {n : Nat} {lexer : Lexer} {li : LineInfo} {fi : List LineInfo}
    (hfi : lexer.fi = li :: fi) : ∃ words ends own,
      (li.words lexer.escapeCharacters).1 = words ++ ends ∧ (∀ w ∈ words, w.type ≠ .ENDLINE) ∧
      (∀ w ∈ ends, w.type = .ENDLINE ∧ w.text = "") ∧
      (lexLines dequeue (n + 1) lexer).own = words.map (LineWord.token li.lineNum) ++ own ∧
      own.length ≤ 1 ∧ ∀ tok ∈ own, ∃ w ∈ ends, tok = w.token li.lineNum := by
  obtain ⟨words, ends, hws, hwords, hends⟩ := (li.scans_words lexer.escapeCharacters).parts
  have hown := (@lexLines_cons dequeue n lexer li fi hfi).2.1
  rw [hws, addWords_append hwords] at hown
  obtain ⟨hlength, -, htoks⟩ := @addWords_ends dequeue (lexLines dequeue n) li.lineNum ends hends
    (({ lexer with fi := fi } : Lexer).enqueueAll (words.map (LineWord.token li.lineNum)))
  exact ⟨words, ends, _, hws, hwords, hends, hown, hlength, htoks⟩

/-- With as many rounds as lines left, a call comes to its end. -/
theorem lexLines_finishes {n : Nat} {lexer : Lexer} (hn : lexer.fi.length ≤ n) :
    (lexLines dequeue n lexer).ending ≠ .unfinished := by
  induction n generalizing lexer with
  | zero =>
    rw [lexLines_nil (List.length_eq_zero_iff.mp (Nat.le_zero.mp hn))]
    exact Ending.noConfusion
  | succ n ih =>
    cases hfi : lexer.fi with
    | nil =>
      rw [lexLines_nil hfi]
      exact Ending.noConfusion
    | cons li fi =>
      rw [hfi, List.length_cons] at hn
      have hkeeps := @addWords_keeps dequeue (lexLines dequeue n) li.lineNum
        (fun l => l.fi.length ≤ n) (fun e => e ≠ .unfinished)
        Ending.noConfusion (fun _ _ h => h) (fun _ h => h)
        (fun l h => ⟨ih h, (@lexLines_fi dequeue n l).1.length_le.trans h⟩)
        (li.words lexer.escapeCharacters).1 { lexer with fi := fi } (Nat.le_of_succ_le_succ hn)
      rw [(lexLines_cons hfi).2.2]
      split
      · rcases (li.scans_words lexer.escapeCharacters).ending with hending | hending
        · rw [hending]
          exact Ending.noConfusion
        · rw [hending]
          exact Ending.noConfusion
      · exact hkeeps.1

theorem lexLines_done {escape : Bool} {n : Nat} {lexer : Lexer} (hn : lexer.fi.length ≤ n)
    (hescape : lexer.escapeCharacters = escape) (hclosed : ∀ li ∈ lexer.fi, li.closed escape = true) :
    (lexLines dequeue n lexer).ending.isDone = true := by
  induction n generalizing lexer with
  | zero =>
    rw [lexLines_nil (List.length_eq_zero_iff.mp (Nat.le_zero.mp hn))]
    rfl
  | succ n ih =>
    cases hfi : lexer.fi with
    | nil =>
      rw [lexLines_nil hfi]
      rfl
    | cons li fi =>
      rw [hfi] at hn hclosed
      have hkeeps := @addWords_keeps dequeue (lexLines dequeue n) li.lineNum
        (fun l => l.fi.length ≤ n ∧ l.escapeCharacters = escape ∧ ∀ li ∈ l.fi, li.closed escape = true)
        (fun e => e.isDone = true) rfl (fun _ _ h => h) (fun _ h => h)
        (fun l h => by
          obtain ⟨hsuffix, hflag⟩ := @lexLines_fi dequeue n l
          refine ⟨ih h.1 h.2.1 h.2.2, hsuffix.length_le.trans h.1, hflag.trans h.2.1, ?_⟩
          exact fun li hli => h.2.2 li (hsuffix.subset hli))
        (li.words lexer.escapeCharacters).1 { lexer with fi := fi }
        ⟨Nat.le_of_succ_le_succ hn, hescape, fun l hl => hclosed l (List.mem_cons_of_mem li hl)⟩
      have hli := (li.words_done_iff escape).mpr (hclosed li List.mem_cons_self)
      rw [(lexLines_cons hfi).2.2, if_pos hkeeps.1, hescape, hli]
      rfl

theorem closed_of_lexLines_done {n : Nat} {lexer : Lexer} {li : LineInfo} {fi : List LineInfo}
    (hfi : lexer.fi = li :: fi) (hdone : (lexLines dequeue (n + 1) lexer).ending.isDone = true) :
    li.closed lexer.escapeCharacters = true := by
  rw [(lexLines_cons hfi).2.2] at hdone
  split at hdone
  · rcases (li.scans_words lexer.escapeCharacters).ending with hending | hending
    · exact (li.words_done_iff _).mp hending
    · rw [hending] at hdone
      cases hdone
  · rename_i hnot
    exact absurd hdone hnot

/-- Every call of `lex_line` terminates. The calls that read the lines of a file stay on them,
whatever the queue, exactly when every literal is closed on its line and no line ends in a blank
without a newline behind it. -/
theorem lexLine_staysOnLine (dequeue : List Token → List Token) :
    (∀ lexer, (lexLine dequeue lexer).ending ≠ .unfinished) ∧
      ∀ escapeCharacters fi, (∀ lines, lines <:+ fi → ∀ q created,
          (lexLine dequeue ⟨lines, escapeCharacters, q, created⟩).ending.isDone = true) ↔
        ∀ li ∈ fi, li.closed escapeCharacters = true := by
  refine ⟨fun lexer => lexLines_finishes (Nat.le_refl _), fun escape fi => ⟨?_, ?_⟩⟩
  · intro hdone li hli
    obtain ⟨before, behind, rfl⟩ := List.append_of_mem hli
    have hsuffix : li :: behind <:+ before ++ li :: behind := List.suffix_append before _
    exact closed_of_lexLines_done rfl (hdone (li :: behind) hsuffix [] [])
  · intro hclosed lines hlines q created
    apply lexLines_done (Nat.le_refl _) rfl
    exact fun li hli => hclosed li (hlines.subset hli)

/-- A literal that is left open, and a last line that ends in a blank. -/
theorem not_lexLine_staysOnLine : ¬ ∀ (li : LineInfo) (dequeue : List Token → List Token)
    (escapeCharacters : Bool),
    (lexLine dequeue ⟨[li], escapeCharacters, [], []⟩).ending.isDone = true := by
  intro hdone
  have hopen := hdone ⟨['\'', 'a', '\n'], 1, by decide, by decide⟩ List.tail true
  have hover : (lexLine List.tail ⟨[⟨['\'', 'a', '\n'], 1, by decide, by decide⟩], true, [], []⟩).ending =
    .overrun := by decide
  rw [hover] at hopen
  cases hopen

end

end Lexer

end JeffVm
