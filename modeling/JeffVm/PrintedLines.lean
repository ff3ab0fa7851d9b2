import JeffVm.TokenText

/-!
# Lexing printed lines

What the loop of `lex_line` makes of a line that is put together from words: a word that stands
behind blanks and cannot be read further gives its token, a literal gives its own, a comment and
blanks at the end give none. A text of such lines is lexed line by line.
-/

set_option autoImplicit false

namespace JeffVm

/-! ## Words that cannot be read further -/

/-- `_read_word` takes `c :: tail` and leaves `rest`. -/
inductive Munches : Char → List Char → List Char → Prop
  | single {c : Char} {rest : List Char} : (isSpecialChar c || c == codeCommentCh) = true →
      isComplex (c :: rest) = false → Munches c [] rest
  | double {c d : Char} {rest : List Char} : isComplex (c :: d :: rest) = true →
      Munches c [d] rest
  | number {c : Char} {digits rest : List Char} : isNumeric c = true →
      (∀ d ∈ digits, (isNumber d || d == 'f') = true) →
      (∀ d ∈ rest.head?, (isNumber d || d == 'f') = false) → Munches c digits rest
  | letters {c : Char} {letters rest : List Char} : isAlphanumeric c = true →
      isNumeric c = false → (∀ d ∈ letters, isAlphanumeric d = true) →
      (∀ d ∈ rest.head?, isAlphanumeric d = false) → Munches c letters rest
  | other {c : Char} {rest : List Char} : isSpecialChar c = false → c ≠ codeCommentCh →
      isAnySpace c = false → isAlphanumeric c = false → Munches c [] rest

section Reading

variable {c : Char} {tail rest blanks : List Char}

theorem Munches.spells (h : Munches c tail rest) : Spells c tail rest := by
  cases h with
  | single hspecial hcomplex => exact .single hspecial hcomplex
  | double hcomplex => exact .double (isSpecialChar_of_isComplex hcomplex).1 hcomplex
  | number hnumeric hdigits _ => exact .number hnumeric hdigits
  | letters hletter hnumeric hletters _ => exact .letters hletter hnumeric hletters
  | other hspecial hcomment hspace hletter => exact .other hspecial hcomment hspace hletter

/-- The longest run of a kind is what was put there. -/
theorem takeWhile_append_stop {p : Char → Bool} {run : List Char} (hrun : ∀ d ∈ run, p d = true)
    (hstop : ∀ d ∈ rest.head?, p d = false) :
    (run ++ rest).takeWhile p = run ∧ (run ++ rest).dropWhile p = rest := by
  have hrest : rest.takeWhile p = [] ∧ rest.dropWhile p = rest := by
    cases rest with
    | nil => exact ⟨rfl, rfl⟩
    | cons d rest =>
      have hd : ¬ p d = true := by
        rw [hstop d rfl]
        exact Bool.false_ne_true
      exact ⟨List.takeWhile_cons_of_neg hd, List.dropWhile_cons_of_neg hd⟩
  rw [List.takeWhile_append_of_pos hrun, List.dropWhile_append_of_pos hrun, hrest.1, hrest.2,
    List.append_nil]
  exact ⟨rfl, rfl⟩

theorem not_special_of_alphanumeric (h : isAlphanumeric c = true) :
    (isSpecialChar c || c == codeCommentCh) = false ∧ (c == '\n') = false := by
  have hspecial : isSpecialChar c = false := not_isSpecialChar_of_class h
    (by simp [isSpecialChar, isAlphanumeric, isNumeric, isAlphabetic])
  have hne : ∀ d, isAlphanumeric d = false → (c == d) = false := by
    intro d hd
    rw [beq_eq_false_iff_ne]
    rintro rfl
    rw [h] at hd
    cases hd
  rw [hspecial, hne codeCommentCh rfl, hne '\n' rfl]
  exact ⟨rfl, rfl⟩

/-- Only the next character matters. -/
theorem Munches.before {rest' : List Char} (h : Munches c tail rest)
    (hrest : rest'.head? = rest.head?) : Munches c tail rest' := by
  have hcomplex : ∀ d, isComplex (d :: rest') = isComplex (d :: rest) := by
    intro d
    cases rest with
    | nil =>
      rw [List.head?_eq_none_iff.mp hrest]
    | cons e rest =>
      obtain ⟨rest', rfl⟩ := List.head?_eq_some_iff.mp hrest
      exact isComplex_pair.trans isComplex_pair.symm
  cases h with
  | single hspecial hsimple => exact .single hspecial (by rw [hcomplex]; exact hsimple)
  | double hpair => exact .double (by rw [isComplex_pair] at hpair ⊢; exact hpair)
  | number hnumeric hdigits hstop => exact .number hnumeric hdigits (hrest ▸ hstop)
  | letters hletter hnumeric hletters hstop =>
    exact .letters hletter hnumeric hletters (hrest ▸ hstop)
  | other hspecial hcomment hspace hletter => exact .other hspecial hcomment hspace hletter

theorem readWordAt_munches (h : Munches c tail rest) (n : Nat) :
    readWordAt n (c :: (tail ++ rest)) = ⟨c :: tail, n + 1 + tail.length, some rest⟩ := by
  cases h with
  | single hspecial hcomplex =>
    rw [List.nil_append, readWordAt, if_pos hspecial, if_neg (Bool.eq_false_iff.mp hcomplex)]
    rfl
  | @double d _ hcomplex =>
    have hspecial : (isSpecialChar c || c == codeCommentCh) = true := by
      rw [(isSpecialChar_of_isComplex hcomplex).1]
      rfl
    rw [List.singleton_append, readWordAt, if_pos hspecial, if_pos hcomplex]
    rfl
  | number hnumeric hdigits hstop =>
    have hletter : isAlphanumeric c = true := by simp [isAlphanumeric, hnumeric]
    have hnumber : isNumber c = true := by simp [isNumber, hnumeric]
    obtain ⟨hspecial, hnewline⟩ := not_special_of_alphanumeric hletter
    obtain ⟨htake, hdrop⟩ := takeWhile_append_stop hdigits hstop
    rw [readWordAt, hspecial, hnewline, hnumber]
    simp only [htake, hdrop, Bool.false_eq_true, if_false, if_true]
  | letters hletter hnumeric hletters hstop =>
    have hnumber : isNumber c = false := by
      rw [isNumber, hnumeric, Bool.false_or, beq_eq_false_iff_ne]
      rintro rfl
      cases hletter
    obtain ⟨hspecial, hnewline⟩ := not_special_of_alphanumeric hletter
    obtain ⟨htake, hdrop⟩ := takeWhile_append_stop hletters hstop
    rw [readWordAt, hspecial, hnewline, hnumber, hletter]
    simp only [htake, hdrop, Bool.false_eq_true, if_false, if_true]
  | other hspecial hcomment hspace hletter =>
    have hcomment' : (c == codeCommentCh) = false := beq_eq_false_iff_ne.mpr hcomment
    have hnewline : (c == '\n') = false := by
      rw [beq_eq_false_iff_ne]
      rintro rfl
      cases hspace
    have hnumber : isNumber c = false := by
      have hnumeric : isNumeric c = false := by
        simp only [isAlphanumeric, Bool.or_eq_false_iff] at hletter
        exact hletter.1.1.1
      rw [isNumber, hnumeric, Bool.false_or, beq_eq_false_iff_ne]
      rintro rfl
      cases hspecial
    rw [List.nil_append, readWordAt, hspecial, hcomment', hnewline, hnumber, hletter]
    rfl

theorem readWord_munches (hblanks : ∀ d ∈ blanks, isWhitespace d = true)
    (h : Munches c tail rest) : readWord (blanks ++ c :: (tail ++ rest)) =
      ⟨c :: tail, blanks.length + 1 + tail.length, some rest⟩ := by
  have hc : isWhitespace c = false := isWhitespace_of_isAnySpace h.spells.head_not_space
  have hstop : ∀ d ∈ (c :: (tail ++ rest)).head?, isWhitespace d = false := by
    rintro d ⟨⟩
    exact hc
  obtain ⟨htake, hdrop⟩ := takeWhile_append_stop hblanks hstop
  rw [readWord, htake, hdrop, readWordAt_munches h]
  · rintro heq
    cases blanks <;> cases heq

end Reading

/-! ## Lines -/

/-- The type and the text of a token. -/
abbrev TokenKind := TokenType × String

def LineWord.kind (w : LineWord) : TokenKind := (w.type, w.text)

def Token.kind (token : Token) : TokenKind := (token.type, token.text)

/-- Outside of comments, the rest of a line gives the tokens and then ends. -/
def Lexes (escape : Bool) (text : List Char) (kinds : List TokenKind) : Prop :=
  ∀ n, text.length + 2 ≤ n → ∀ col, ∃ words ends,
    wordsFrom escape n ⟨some text, false, col⟩ = (words ++ ends, .done true) ∧
      words.map LineWord.kind = kinds ∧ ends ≠ [] ∧
      ∀ w ∈ ends, w.type = .ENDLINE ∧ w.text = ""

section Lines

variable {escape : Bool} {c : Char} {blanks tail text rest : List Char} {kinds : List TokenKind}

/-- The words of a comment are skipped. -/
theorem Scans.comment_ends {comment : Bool} {col : Int} {ws : List LineWord × Ending}
    (h : Scans escape comment col text ws) (hcomment : comment = true) :
    ∀ w ∈ ws.1, w.type = .ENDLINE ∧ w.text = "" := by
  induction h with
  | nul => exact List.forall_mem_singleton.mpr ⟨rfl, rfl⟩
  | blanks =>
    subst hcomment
    exact List.forall_mem_nil _
  | newline => exact List.forall_mem_singleton.mpr ⟨rfl, rfl⟩
  | blankLine => exact List.forall_mem_cons.mpr ⟨⟨rfl, rfl⟩, List.forall_mem_singleton.mpr ⟨rfl, rfl⟩⟩
  | skip _ _ _ _ ih => exact ih rfl
  | literal => cases hcomment
  | openLiteral => cases hcomment
  | word => cases hcomment

namespace Lexes

/-- Nothing but a newline, perhaps behind blanks. -/
theorem newline (hblanks : ∀ d ∈ blanks, isWhitespace d = true) :
    Lexes escape (blanks ++ ['\n']) [] := by
  intro n hn col
  have hlast : ∀ n col, n ≠ 0 → wordsFrom escape n ⟨some ['\n'], false, col⟩ =
      ([⟨.ENDLINE, "", col⟩], .done true) := by
    intro n col hn
    cases n with
    | zero => exact absurd rfl hn
    | succ n =>
      have hread : readWord ['\n'] = ⟨[], 0, some ['\n']⟩ := rfl
      rw [wordsFrom, next_endline hread, Int.natCast_zero, Int.add_zero]
      rfl
  by_cases hne : blanks = []
  · subst hne
    refine ⟨[], _, hlast n col (by omega), rfl, List.cons_ne_nil _ _, ?_⟩
    exact List.forall_mem_singleton.mpr ⟨rfl, rfl⟩
  · obtain ⟨b, bs, rfl⟩ := List.exists_cons_of_ne_nil hne
    have hstop : ∀ d ∈ ['\n'].head?, isWhitespace d = false := by
      rintro d ⟨⟩
      rfl
    obtain ⟨htake, hdrop⟩ := takeWhile_append_stop hblanks hstop
    have hread : readWord (b :: bs ++ ['\n']) = ⟨[], (b :: bs).length, some ['\n']⟩ := by
      rw [← congrArg List.length htake, List.cons_append, readWord, ← List.cons_append, hdrop]
      · rfl
      · exact List.cons_ne_nil _ _
    cases n with
    | zero => simp at hn
    | succ n =>
      have hlen : (b :: bs).length ≠ 0 := Nat.succ_ne_zero _
      rw [wordsFrom, next_endline hread]
      dsimp only
      rw [if_neg hlen, hlast n _ (by simp at hn; omega)]
      refine ⟨[], _, rfl, rfl, List.cons_ne_nil _ _, ?_⟩
      exact List.forall_mem_cons.mpr ⟨⟨rfl, rfl⟩, List.forall_mem_singleton.mpr ⟨rfl, rfl⟩⟩

/-- A comment up to the end of the line. -/
theorem comment (hblanks : ∀ d ∈ blanks, isWhitespace d = true) {body : List Char}
    (hbody : '\n' ∉ body) : Lexes escape (blanks ++ codeCommentCh :: (body ++ ['\n'])) [] := by
  intro n hn col
  have hmunch : Munches codeCommentCh [] (body ++ ['\n']) :=
    .single rfl (by cases body <;> rfl)
  have hread := readWord_munches hblanks hmunch
  rw [List.nil_append] at hread
  cases n with
  | zero => simp at hn
  | succ n =>
    rw [wordsFrom, next_skip hread (by simp)]
    dsimp only
    have hlen : (body ++ ['\n']).length + 2 ≤ n := by
      simp only [List.length_append, List.length_cons, List.length_nil] at hn ⊢
      omega
    have hscans : ∀ col, Scans escape true col (body ++ ['\n'])
        (wordsFrom escape n ⟨some (body ++ ['\n']), true, col⟩) := fun _ => scans_wordsFrom hlen
    have hscans := hscans (col + ((blanks.length + 1 + ([] : List Char).length : Nat) : Int))
    have hclosed : closedFrom escape (.ofComment true) (body ++ ['\n']) = true := by
      rw [closedFrom, LinePart.ofComment, if_pos rfl, LinePart.after_comment]
      simp [LinePart.isClosed, isWhitespace]
    have hdone := (hscans.done_iff (by rw [List.dropLast_concat]; exact hbody)).mpr hclosed
    obtain ⟨w, hw, -⟩ := hscans.ends_of_done hdone
    refine ⟨[], _, ?_, rfl, List.ne_nil_of_mem hw, hscans.comment_ends rfl⟩
    rw [List.nil_append, ← hdone]

/-- A word behind blanks. -/
theorem word (hblanks : ∀ d ∈ blanks, isWhitespace d = true) (hmunch : Munches c tail rest)
    (hcomment : c ≠ codeCommentCh) (hquote : c ≠ '\'') (h : Lexes escape rest kinds) :
    Lexes escape (blanks ++ c :: (tail ++ rest))
      ((resolveType (c :: tail), wordText c tail) :: kinds) := by
  intro n hn col
  have hread := readWord_munches hblanks hmunch
  cases n with
  | zero => simp at hn
  | succ n =>
    rw [wordsFrom, next_word hread hcomment hquote]
    dsimp only
    rw [if_neg (by omega)]
    have hlen : rest.length + 2 ≤ n := by
      simp only [List.length_append, List.length_cons] at hn
      omega
    obtain ⟨words, ends, hwords, hkinds, hne, hends⟩ :=
      h n hlen (col + ((blanks.length + 1 + tail.length : Nat) : Int))
    rw [hwords]
    exact ⟨_ :: words, ends, rfl, by rw [List.map_cons, hkinds]; rfl, hne, hends⟩

/-- A literal behind blanks. -/
theorem literal {str : String} {index : List Char}
    (hblanks : ∀ d ∈ blanks, isWhitespace d = true)
    (hstr : readString rest escape = some (str, index)) (h : Lexes escape index kinds) :
    Lexes escape (blanks ++ '\'' :: rest) ((.STR, str) :: kinds) := by
  intro n hn col
  have hmunch : Munches '\'' [] rest := .single rfl (by cases rest <;> rfl)
  have hread := readWord_munches hblanks hmunch
  rw [List.nil_append] at hread
  cases n with
  | zero => simp at hn
  | succ n =>
    rw [wordsFrom, next_literal hread, hstr]
    dsimp only [Option.map_some, Option.getD_some]
    rw [if_neg (by omega)]
    have hlen : index.length + 2 ≤ n := by
      have hshorter := length_readString hstr
      simp only [List.length_append, List.length_cons] at hn
      omega
    obtain ⟨words, ends, hwords, hkinds, hne, hends⟩ :=
      h n hlen (col + ((blanks.length + 1 + ([] : List Char).length : Nat) : Int))
    rw [hwords]
    exact ⟨_ :: words, ends, rfl, by rw [List.map_cons, hkinds]; rfl, hne, hends⟩

end Lexes

end Lines

/-! ## Files -/

namespace Lexer

/-- `lex`, with at most `n` calls of `lex_line`. -/
def lex (dequeue : List Token → List Token) : Nat → Lexer → Option (List Token)
  | 0, _ => none
  | n + 1, lexer =>
    let lexed := lexLine dequeue lexer
    match lexed.ending with
    | .done true => lex dequeue n lexed.lexer
    | .done false => some lexed.lexer.q
    | _ => none

section

variable {dequeue : List Token → List Token} {lexNext : Lexer → Lexed} {lineNum : Int}

/-- Behind an end of the line there is no other one. -/
theorem addWords_ended {ends : List LineWord} (hends : ∀ w ∈ ends, w.type = .ENDLINE ∧ w.text = "")
    {lexer : Lexer} (hlast : lexer.lastIs .ENDLINE = true) :
    addWords dequeue lexNext lineNum ends lexer = ⟨.done true, lexer, []⟩ := by
  have hbslash : lexer.lastIs .BSLASH = false := by
    unfold lastIs at hlast ⊢
    rw [eq_of_beq hlast]
    rfl
  induction ends with
  | nil => rfl
  | cons w ends ih =>
    obtain ⟨⟨htype, -⟩, hends⟩ := List.forall_mem_cons.mp hends
    rw [addWords, hbslash, hlast, htype]
    simpa using ih hends

/-- The end of a line with words is queued once. -/
theorem addWords_end {ends : List LineWord} (hne : ends ≠ [])
    (hends : ∀ w ∈ ends, w.type = .ENDLINE ∧ w.text = "") {lexer : Lexer} {last : Token}
    (hlast : lexer.q.getLast? = some last) (hbslash : last.type ≠ .BSLASH)
    (hendline : last.type ≠ .ENDLINE) : ∃ tok : Token, tok.kind = (.ENDLINE, "") ∧
      addWords dequeue lexNext lineNum ends lexer = ⟨.done true, lexer.enqueue tok, [tok]⟩ := by
  obtain ⟨w, ends, rfl⟩ := List.exists_cons_of_ne_nil hne
  obtain ⟨⟨htype, htext⟩, hends⟩ := List.forall_mem_cons.mp hends
  refine ⟨w.token lineNum, by rw [Token.kind, LineWord.token, htype, htext], ?_⟩
  have hq : lexer.q.isEmpty = false := by
    cases hq : lexer.q with
    | nil =>
      rw [hq] at hlast
      cases hlast
    | cons => rfl
  have hlastIs : ∀ type, last.type ≠ type → lexer.lastIs type = false := by
    intro type hne
    rw [lastIs, hlast, Option.map_some, beq_eq_false_iff_ne]
    exact fun heq => hne (Option.some.inj heq)
  have hended : (lexer.enqueue (w.token lineNum)).lastIs .ENDLINE = true := by
    simp [lastIs, enqueue, LineWord.token, htype]
  rw [addWords, hlastIs .BSLASH hbslash, hlastIs .ENDLINE hendline, hq]
  simp only [Bool.and_false, Bool.false_eq_true, if_false, Bool.not_false, Bool.and_self,
    Bool.or_true, if_true]
  have hrest := @addWords_ended dequeue lexNext lineNum ends hends _ hended
  rw [LineWord.token] at hrest
  rw [hrest]
  rfl

/-- A line that gives words adds these and an end. -/
theorem lexLine_lexes {lexer : Lexer} {li : LineInfo} {fi : List LineInfo} {kinds : List TokenKind}
    (hfi : lexer.fi = li :: fi) (h : Lexes lexer.escapeCharacters li.lineText kinds)
    {last : TokenKind} (hlast : kinds.getLast? = some last) (hbslash : last.1 ≠ .BSLASH)
    (hwords : ∀ k ∈ kinds, k.1 ≠ .ENDLINE) : ∃ toks : List Token,
      toks.map Token.kind = kinds ++ [(.ENDLINE, "")] ∧
      (lexLine dequeue lexer).ending = .done true ∧
      (lexLine dequeue lexer).lexer = { lexer with fi := fi }.enqueueAll toks := by
  obtain ⟨words, ends, hline, hkinds, hne, hends⟩ := h _ (Nat.le_refl _) 0
  have hli : li.words lexer.escapeCharacters = (words ++ ends, .done true) := hline
  have hword : ∀ w ∈ words, w.type ≠ .ENDLINE := by
    intro w hw
    exact hwords w.kind (hkinds ▸ List.mem_map_of_mem hw)
  obtain ⟨w, hw, hwlast⟩ : ∃ w, words.getLast? = some w ∧ w.kind = last := by
    rw [← hkinds, List.getLast?_map] at hlast
    exact Option.map_eq_some_iff.mp hlast
  have hqueue : (({ lexer with fi := fi } : Lexer).enqueueAll
      (words.map (LineWord.token li.lineNum))).q.getLast? = some (w.token li.lineNum) := by
    simp [enqueueAll, List.getLast?_append, hw]
  have htype : w.type = last.1 := congrArg Prod.fst hwlast
  obtain ⟨tok, htok, hend⟩ := @addWords_end dequeue (lexLines dequeue fi.length) li.lineNum ends
    hne hends _ _ hqueue (by rw [← htype] at hbslash; exact hbslash)
    (hword w (List.mem_of_getLast? hw))
  have hadd := @addWords_append dequeue (lexLines dequeue fi.length) li.lineNum words ends hword
    { lexer with fi := fi }
  dsimp only at hadd
  rw [hend] at hadd
  have hcons := @lexLines_cons dequeue fi.length lexer li fi hfi
  dsimp only at hcons
  rw [hli, hadd] at hcons
  obtain ⟨hlexer, -, hending⟩ := hcons
  have hcall : lexLine dequeue lexer = lexLines dequeue (fi.length + 1) lexer := by
    rw [lexLine, hfi, List.length_cons]
  rw [hcall]
  refine ⟨words.map (LineWord.token li.lineNum) ++ [tok], ?_, ?_, ?_⟩
  · rw [List.map_append, List.map_map, List.map_singleton, htok, ← hkinds]
    rfl
  · rw [hending]
    rfl
  · rw [hlexer]
    simp [enqueueAll, enqueue]

/-- A line that gives the tokens and an end. -/
structure Line (escape : Bool) (text : List Char) (kinds : List TokenKind) : Prop where
  lexes : Lexes escape text kinds
  last : ∃ last, kinds.getLast? = some last ∧ last.1 ≠ .BSLASH
  words : ∀ k ∈ kinds, k.1 ≠ .ENDLINE

/-- The tokens of a file are those of its lines, with an end behind each. -/
theorem lex_lines {escape : Bool} {fi : List LineInfo} {lines : List (List TokenKind)}
    (h : List.Forall₂ (fun li kinds => Line escape li.lineText kinds) fi lines)
    (q created : List Token) : ∃ toks : List Token,
      lex dequeue (fi.length + 1) ⟨fi, escape, q, created⟩ = some (q ++ toks) ∧
      toks.map Token.kind = lines.flatMap fun kinds => kinds ++ [(.ENDLINE, "")] := by
  induction h generalizing q created with
  | nil =>
    refine ⟨[], ?_, rfl⟩
    rw [List.append_nil]
    rfl
  | @cons li kinds fi lines hline _ ih =>
    obtain ⟨last, hlast, hbslash⟩ := hline.last
    obtain ⟨toks, hkinds, hending, hlexer⟩ := @lexLine_lexes dequeue
      ⟨li :: fi, escape, q, created⟩ li fi kinds rfl hline.lexes last hlast hbslash hline.words
    obtain ⟨rest, hrest, hkindsRest⟩ := ih (q ++ toks) (created ++ toks)
    refine ⟨toks ++ rest, ?_, ?_⟩
    · rw [List.length_cons, lex, hending, hlexer]
      rw [← List.append_assoc]
      exact hrest
    · rw [List.map_append, hkinds, hkindsRest, List.flatMap_cons]

end

end Lexer

end JeffVm
