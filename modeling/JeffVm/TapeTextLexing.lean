import JeffVm.TapeText

/-!
# Lexing the text format

The tokens of each line that `tape_write` prints: names and operations are words, a negative
number is a sign and its digits, a string is read back as it was, and the comment with the place
in the source is skipped.
-/

set_option autoImplicit false

namespace JeffVm

/-! ## Names and numbers -/

/-- A name that the lexer reads as one word. -/
def isName (name : String) : Bool :=
  match name.toList with
  | [] => false
  | c :: tail => isAlphanumeric c && !isNumeric c && tail.all isAlphanumeric

/-- The token of a name. -/
def nameKind (name : String) : TokenKind := (wordType name.toList, name)

/-- Nothing that would belong to a word or a number before it. -/
def EndsWord (text : List Char) : Prop :=
  ∀ d ∈ text.head?, isAlphanumeric d = false ∧ (isNumber d || d == 'f') = false

section Words

variable {escape : Bool} {blanks rest : List Char} {kinds : List TokenKind}

theorem isWhitespace_blanks (n : Nat) : ∀ d ∈ List.replicate n ' ', isWhitespace d = true := by
  intro d hd
  rw [List.eq_of_mem_replicate hd]
  rfl

theorem isAlphanumeric_ne_nul {c : Char} (h : isAlphanumeric c = true) : c ≠ '\x00' := by
  rintro rfl
  cases h

/-- A name behind blanks. -/
theorem Lexes.name {name : String} (hblanks : ∀ d ∈ blanks, isWhitespace d = true)
    (hname : isName name = true) (hrest : EndsWord rest) (h : Lexes escape rest kinds) :
    Lexes escape (blanks ++ (name.toList ++ rest)) (nameKind name :: kinds) := by
  unfold isName at hname
  split at hname
  · cases hname
  · rename_i c tail hchars
    simp only [Bool.and_eq_true, Bool.not_eq_true', List.all_eq_true] at hname
    obtain ⟨⟨hletter, hnumeric⟩, htail⟩ := hname
    have hmunch : Munches c tail rest :=
      .letters hletter hnumeric htail fun d hd => (hrest d hd).1
    obtain ⟨hspecial, -⟩ := not_special_of_alphanumeric hletter
    obtain ⟨hspecial, hcomment⟩ := Bool.or_eq_false_iff.mp hspecial
    have hcomment : c ≠ codeCommentCh := beq_eq_false_iff_ne.mp hcomment
    have hquote : c ≠ '\'' := by
      rintro rfl
      cases hletter
    have hnumber : isNumber c = false := by
      rw [isNumber, hnumeric, Bool.false_or, beq_eq_false_iff_ne]
      rintro rfl
      cases hletter
    have htype : resolveType (c :: tail) = wordType name.toList := by
      rw [resolveType, specialType_none hspecial hcomment, hchars]
      simp only [hnumber, Bool.false_eq_true, if_false]
    have htext : wordText c tail = name := by
      rw [wordText_eq, ← hchars, String.ofList_toList]
      intro hmem
      rcases List.mem_cons.mp hmem with heq | hmem
      · exact isAlphanumeric_ne_nul hletter heq.symm
      · exact isAlphanumeric_ne_nul (htail _ hmem) rfl
    have hword := Lexes.word hblanks hmunch hcomment hquote h
    rw [htype, htext] at hword
    rw [hchars]
    exact hword

/-- A number without a sign behind blanks. -/
theorem Lexes.digits {c : Char} {digits : List Char}
    (hblanks : ∀ d ∈ blanks, isWhitespace d = true)
    (hdigits : ∀ d ∈ c :: digits, isNumeric d = true) (hrest : EndsWord rest)
    (h : Lexes escape rest kinds) : Lexes escape (blanks ++ c :: (digits ++ rest))
      ((.INTEGER, String.ofList (c :: digits)) :: kinds) := by
  have hc := hdigits c List.mem_cons_self
  have hmunch : Munches c digits rest := by
    apply Munches.number hc
    · intro d hd
      simp [isNumber, hdigits d (List.mem_cons_of_mem c hd)]
    · exact fun d hd => (hrest d hd).2
  have hletter : isAlphanumeric c = true := by simp [isAlphanumeric, hc]
  obtain ⟨hspecial, -⟩ := not_special_of_alphanumeric hletter
  obtain ⟨hspecial, hcomment⟩ := Bool.or_eq_false_iff.mp hspecial
  have hcomment : c ≠ codeCommentCh := beq_eq_false_iff_ne.mp hcomment
  have hquote : c ≠ '\'' := by
    rintro rfl
    cases hletter
  have hne : ∀ e, isNumeric e = false → e ∉ c :: digits := by
    intro e he hmem
    rw [hdigits e hmem] at he
    cases he
  have htype : resolveType (c :: digits) = .INTEGER := by
    have hlast : ¬ ((c :: digits).getLast? = some 'f' ∨ '.' ∈ c :: digits) := by
      rintro (hf | hdot)
      · exact hne 'f' rfl (List.mem_of_getLast? hf)
      · exact hne '.' rfl hdot
    have hnumber : isNumber c = true := by simp [isNumber, hc]
    rw [resolveType, specialType_none hspecial hcomment]
    simp only [hnumber, if_true, if_neg hlast]
  have hword := Lexes.word hblanks hmunch hcomment hquote h
  rw [htype, wordText_eq (hne _ rfl)] at hword
  exact hword

/-- A spelling of a double behind blanks. -/
theorem Lexes.float {c : Char} {whole fraction : List Char}
    (hblanks : ∀ d ∈ blanks, isWhitespace d = true)
    (hwhole : ∀ d ∈ c :: whole, isNumeric d = true) (hfraction : ∀ d ∈ fraction, isNumeric d = true)
    (hrest : EndsWord rest) (h : Lexes escape rest kinds) :
    Lexes escape (blanks ++ c :: (whole ++ '.' :: fraction ++ rest))
      ((.FLOATING, String.ofList (c :: (whole ++ '.' :: fraction))) :: kinds) := by
  have hc := hwhole c List.mem_cons_self
  have hdigits : ∀ d ∈ whole ++ '.' :: fraction, isNumber d = true := by
    intro d hd
    rw [isNumber]
    rcases List.mem_append.mp hd with hd | hd
    · rw [hwhole d (List.mem_cons_of_mem c hd)]
      rfl
    · rcases List.mem_cons.mp hd with rfl | hd
      · rfl
      · rw [hfraction d hd]
        rfl
  have hmunch : Munches c (whole ++ '.' :: fraction) rest := by
    apply Munches.number hc
    · intro d hd
      rw [hdigits d hd]
      rfl
    · exact fun d hd => (hrest d hd).2
  have hletter : isAlphanumeric c = true := by simp [isAlphanumeric, hc]
  obtain ⟨hspecial, -⟩ := not_special_of_alphanumeric hletter
  obtain ⟨hspecial, hcomment⟩ := Bool.or_eq_false_iff.mp hspecial
  have hcomment : c ≠ codeCommentCh := beq_eq_false_iff_ne.mp hcomment
  have hquote : c ≠ '\'' := by
    rintro rfl
    cases hletter
  have hnul : '\x00' ∉ c :: (whole ++ '.' :: fraction) := by
    intro hmem
    rcases List.mem_cons.mp hmem with heq | hmem
    · exact isAlphanumeric_ne_nul hletter heq.symm
    · cases hdigits _ hmem
  have htype : resolveType (c :: (whole ++ '.' :: fraction)) = .FLOATING := by
    have hperiod : (c :: (whole ++ '.' :: fraction)).getLast? = some 'f' ∨
        '.' ∈ c :: (whole ++ '.' :: fraction) := by
      apply Or.inr
      simp
    have hnumber : isNumber c = true := by simp [isNumber, hc]
    rw [resolveType, specialType_none hspecial hcomment]
    simp only [hnumber, if_true, if_pos hperiod]
  have hword := Lexes.word hblanks hmunch hcomment hquote h
  rw [htype, wordText_eq hnul] at hword
  exact hword

/-- A sign is a token of its own. -/
theorem Lexes.minus {c : Char} (hblanks : ∀ d ∈ blanks, isWhitespace d = true)
    (hc : isNumeric c = true) (h : Lexes escape (c :: rest) kinds) :
    Lexes escape (blanks ++ '-' :: c :: rest) ((.MINUS, "-") :: kinds) := by
  have hsimple : isComplex ('-' :: c :: rest) = false := by
    have hne : ∀ e, isNumeric e = false → (c == e) = false := by
      intro e he
      rw [beq_eq_false_iff_ne]
      rintro rfl
      rw [hc] at he
      cases he
    rw [isComplex, hne '-' rfl, hne '=' rfl, hne '>' rfl]
    rfl
  have hmunch : Munches '-' [] (c :: rest) := .single rfl hsimple
  exact Lexes.word hblanks hmunch (by decide) (by decide) h

end Words

/-! ## Printed numbers -/

theorem isNumeric_eq_isDigit (c : Char) : isNumeric c = c.isDigit := by
  have hlow : '0' ≤ c ↔ '0'.val ≤ c.val := Iff.rfl
  have hhigh : c ≤ '9' ↔ c.val ≤ '9'.val := Iff.rfl
  simp [isNumeric, Char.isDigit, hlow, hhigh]

/-- The digits of a number, as they are printed. -/
theorem natDigits (n : Nat) : ∃ c digits, (toString n).toList = c :: digits ∧
    ∀ d ∈ c :: digits, isNumeric d = true := by
  have hchars : (toString n).toList = Nat.toDigits 10 n := Nat.toList_repr
  obtain ⟨c, digits, hcons⟩ := List.exists_cons_of_ne_nil (@Nat.toDigits_ne_nil n 10)
  refine ⟨c, digits, hchars.trans hcons, ?_⟩
  intro d hd
  rw [isNumeric_eq_isDigit]
  exact Nat.isDigit_of_mem_toDigits (by omega) (by omega) (hcons ▸ hd)

/-- `strtoll` reads a printed number. -/
theorem strtoll_toString {n : Nat} (h : (n : Int) ≤ 2 ^ 63 - 1) : strtoll (toString n) = n := by
  have hchars : (toString n).toList = Nat.toDigits 10 n := Nat.toList_repr
  have hdigits : (Nat.toDigits 10 n).takeWhile Char.isDigit = Nat.toDigits 10 n := by
    rw [List.takeWhile_eq_self_iff]
    intro c hc
    exact Nat.isDigit_of_mem_toDigits (by omega) (by omega) hc
  have hvalue : digitsValue (Nat.toDigits 10 n) = n := by
    rw [digitsValue, hdigits, ← Nat.ofDigitChars_eq_foldl, Nat.ofDigitChars_ten_toDigits]
  rw [strtoll, hchars, hvalue]
  omega

theorem toList_toString_negSucc (n : Nat) :
    (toString (Int.negSucc n)).toList = '-' :: (toString (n + 1)).toList := by
  rw [Int.toString_eq_repr, Int.repr, String.toList_append]
  rfl

/-! ## Strings and comments -/

/-- What is read of a printed string, and where the lexer goes on. -/
theorem readStringLoop_literal {s line : List Char} (hnul : '\x00' ∉ s) (h : Escapable s) :
    readStringLoop true false (literal s line) = some (s ++ ['\''], line) := by
  induction hlen : s.length using Nat.strong_induction_on generalizing s with
  | h n ih =>
    cases s with
    | nil => exact readStringLoop_quote
    | cons c s =>
      simp only [List.mem_cons, not_or] at hnul
      obtain ⟨hc, hs⟩ := hnul
      rw [List.length_cons] at hlen
      by_cases hne : c = '\\'
      · subst hne
        -- the backslash takes the one that escapes the double quote along
        obtain ⟨s', rfl, hs'⟩ := escapable_backslash.mp h
        rw [List.length_cons] at hlen
        have hnul' : '\x00' ∉ s' := fun hmem => hs (List.mem_cons_of_mem _ hmem)
        have hchars : literal ('\\' :: '"' :: s') line = '\\' :: '\\' :: '"' :: literal s' line := rfl
        rw [hchars, readStringLoop_backslash, readStringLoop_plain (by decide) (by decide),
          ih s'.length (by omega) hnul' hs' rfl]
        rfl
      · obtain ⟨htab, hrest⟩ := (escapable_cons hne).mp h
        have hread := ih s.length (by omega) hs hrest rfl
        unfold literal at hread ⊢
        cases hesc : shouldEscape c with
        | true =>
          rw [escape, if_neg (Ne.symm hc), if_pos hesc, List.cons_append, List.cons_append,
            readStringLoop_backslash, charUnesc_excapeChar hesc, hread]
          rfl
        | false =>
          have hself := (excapeChar_eq_self hesc).mpr htab
          have hquote := excapeChar_ne_quote hesc
          rw [hself] at hquote
          rw [escape, if_neg (Ne.symm hc), hesc, if_neg Bool.false_ne_true, hself, List.cons_append,
            readStringLoop_plain hquote hne, hread]
          rfl

theorem readString_literal {s line : List Char} (hnul : '\x00' ∉ s) (h : Escapable s) :
    readString (literal s line) true = some (quoted s, line) := by
  rw [readString, readStringLoop_literal hnul h]
  rfl

/-- No end of a line or of a string. -/
def Clean (text : List Char) : Prop := '\n' ∉ text ∧ '\x00' ∉ text

instance (text : List Char) : Decidable (Clean text) :=
  inferInstanceAs (Decidable ('\n' ∉ text ∧ '\x00' ∉ text))

section Clean

variable {text text' : List Char} {c : Char}

theorem clean_append : Clean (text ++ text') ↔ Clean text ∧ Clean text' := by
  simp only [Clean, List.mem_append, not_or]
  tauto

theorem clean_cons : Clean (c :: text) ↔ Clean [c] ∧ Clean text := by
  rw [← List.singleton_append, clean_append]

theorem clean_of_forall {p : Char → Bool} (h : ∀ c ∈ text, p c = true) (hnewline : p '\n' = false)
    (hnul : p '\x00' = false) : Clean text := by
  refine ⟨fun hmem => ?_, fun hmem => ?_⟩
  · rw [h _ hmem] at hnewline
    cases hnewline
  · rw [h _ hmem] at hnul
    cases hnul

theorem clean_blanks (n : Nat) : Clean (List.replicate n ' ') :=
  clean_of_forall (fun c hc => by rw [List.eq_of_mem_replicate hc]; exact beq_self_eq_true ' ')
    rfl rfl

theorem clean_name {name : String} (h : isName name = true) : Clean name.toList := by
  have hletters : ∀ c ∈ name.toList, isAlphanumeric c = true := by
    unfold isName at h
    split at h
    · cases h
    · rename_i c tail hchars
      simp only [Bool.and_eq_true, List.all_eq_true] at h
      rw [hchars]
      exact List.forall_mem_cons.mpr ⟨h.1.1, h.2⟩
  exact clean_of_forall hletters rfl rfl

theorem clean_nat (n : Nat) : Clean (toString n).toList := by
  obtain ⟨c, digits, hchars, hdigits⟩ := natDigits n
  rw [hchars]
  exact clean_of_forall hdigits rfl rfl

theorem clean_int (n : Int) : Clean (toString n).toList := by
  cases n with
  | ofNat n => exact clean_nat n
  | negSucc n =>
    rw [toList_toString_negSucc]
    exact clean_cons.mpr ⟨by decide, clean_nat (n + 1)⟩

theorem clean_escape (s : List Char) : Clean (escape s) := by
  induction s with
  | nil => decide
  | cons c s ih =>
    rw [escape]
    split_ifs with hnul hesc
    · decide
    · have hchar : Clean [excapeChar c] := by
        simp only [shouldEscape, Bool.or_eq_true, decide_eq_true_eq] at hesc
        rcases hesc with ((rfl | rfl) | rfl) | rfl <;> decide
      exact clean_cons.mpr ⟨by decide, clean_cons.mpr ⟨hchar, ih⟩⟩
    · apply clean_cons.mpr
      refine ⟨?_, ih⟩
      have hne : c ≠ '\n' := by
        rintro rfl
        exact hesc rfl
      unfold excapeChar
      split
      · exact absurd rfl hne
      · decide
      · decide
      · exact ⟨fun hmem => hne (List.mem_singleton.mp hmem).symm,
          fun hmem => hnul (List.mem_singleton.mp hmem).symm⟩

theorem clean_sourceComment (n : Nat) (source : SourceMapping) : Clean (sourceComment n source) := by
  unfold sourceComment
  split_ifs
  · simp only [clean_append]
    exact ⟨⟨⟨⟨clean_blanks _, by decide⟩, clean_int _⟩, by decide⟩, clean_int _⟩
  · decide

end Clean

/-- The comment behind an instruction is skipped. -/
theorem lexes_sourceComment {escape : Bool} (n : Nat) (source : SourceMapping) :
    Lexes escape (sourceComment n source ++ ['\n']) [] ∧ EndsWord (sourceComment n source ++ ['\n']) := by
  unfold sourceComment
  split_ifs
  · have hbody : Clean (" line=".toList ++ (toString source.line).toList ++ ", col=".toList ++
        (toString source.col).toList) := by
      simp only [clean_append]
      exact ⟨⟨⟨by decide, clean_int _⟩, by decide⟩, clean_int _⟩
    have hlexes := @Lexes.comment escape _ (isWhitespace_blanks (instructionCommentLpad - n)) _ hbody.1
    refine ⟨?_, ?_⟩
    · simp only [List.append_assoc] at hlexes ⊢
      exact hlexes
    · cases instructionCommentLpad - n with
      | zero =>
        rintro d ⟨⟩
        exact ⟨rfl, rfl⟩
      | succ m =>
        rintro d ⟨⟩
        exact ⟨rfl, rfl⟩
  · refine ⟨@Lexes.newline escape [] (List.forall_mem_nil _), ?_⟩
    rintro d ⟨⟩
    exact ⟨rfl, rfl⟩

/-! ## Lines of the format -/

/-- The tokens of an operand. -/
def Arg.kinds (floatFmt : UInt64 → List Char) : Arg → List TokenKind
  | .noArg => []
  | .id name => [nameKind name]
  | .str text => [(.STR, text)]
  | .val (.int (.ofNat n)) => [(.INTEGER, toString n)]
  | .val (.int (.negSucc n)) => [(.MINUS, "-"), (.INTEGER, toString (n + 1))]
  | .val (.float bits) => [(.FLOATING, String.ofList (floatFmt bits))]
  | .val (.char _) => []

def TextLine.kinds (floatFmt : UInt64 → List Char) : TextLine → List TokenKind
  | .module name => [nameKind "module", nameKind name]
  | .endclass _ => [nameKind classendKeyword]
  | .class name => [nameKind classKeyword, nameKind name]
  | .field name => [nameKind fieldKeyword, nameKind name]
  | .label name => [(.AT, "@"), nameKind name]
  | .instruction ins _ => nameKind ins.op.opToStr :: ins.arg.kinds floatFmt

/-- `"%f"` prints all digits of the double, and no sign. -/
def PrintedWhole (floatFmt : UInt64 → List Char) (val : UInt64) : Prop :=
  ∃ c whole fraction, floatFmt val = c :: (whole ++ '.' :: fraction) ∧
    (∀ d ∈ c :: whole, isNumeric d = true) ∧ (∀ d ∈ fraction, isNumeric d = true) ∧
    strtod (String.ofList (floatFmt val)) = val

/-- What the text format keeps of the operands: names of one word, strings of the assembler, and
numbers. -/
def Arg.Printable (floatFmt : UInt64 → List Char) : Arg → Prop
  | .noArg => True
  | .id name => isName name = true
  | .str text => ∃ s, text = quoted s ∧ '\x00' ∉ s ∧ Escapable s
  | .val (.int n) => -2 ^ 31 ≤ n ∧ n < 2 ^ 31
  | .val (.float bits) => PrintedWhole floatFmt bits
  | .val (.char _) => False

def TextLine.Printable (floatFmt : UInt64 → List Char) : TextLine → Prop
  | .module name | .endclass name | .class name | .field name | .label name => isName name = true
  | .instruction ins _ => ins.arg.Printable floatFmt

theorem wordType_ne (word : List Char) {type : TokenType} (h : type ≠ .WORD)
    (hkeywords : ∀ k ∈ keywordToType, k.2 ≠ type) : wordType word ≠ type := by
  unfold wordType
  cases hfind : keywordToType.find? fun k => k.1.toList == word with
  | none => exact h.symm
  | some k => exact hkeywords k (List.mem_of_find?_eq_some hfind)

section Lines

variable {floatFmt : UInt64 → List Char} {blanks rest : List Char}

theorem stops_newline : EndsWord ['\n'] := by
  rintro d ⟨⟩
  exact ⟨rfl, rfl⟩

/-- A keyword and a name. -/
theorem lexes_named {indent : List Char} {keyword name : String}
    (hindent : ∀ d ∈ indent, isWhitespace d = true) (hkeyword : isName keyword = true)
    (hname : isName name = true) : Lexes true (indent ++ (keyword.toList ++ ' ' :: name.toList) ++ ['\n'])
      [nameKind keyword, nameKind name] := by
  have hend : Lexes true ['\n'] [] := @Lexes.newline true [] (List.forall_mem_nil _)
  have hblank : ∀ d ∈ [' '], isWhitespace d = true := isWhitespace_blanks 1
  have hsecond := Lexes.name hblank hname stops_newline hend
  have hstops : EndsWord ([' '] ++ (name.toList ++ ['\n'])) := by
    rintro d ⟨⟩
    exact ⟨rfl, rfl⟩
  have hfirst := Lexes.name hindent hkeyword hstops hsecond
  simp only [List.append_assoc, List.cons_append, List.nil_append] at hfirst ⊢
  exact hfirst

theorem lexes_label {name : String} (hname : isName name = true) :
    Lexes true ('@' :: name.toList ++ ['\n']) [(.AT, "@"), nameKind name] := by
  have hend : Lexes true ['\n'] [] := @Lexes.newline true [] (List.forall_mem_nil _)
  have hsecond := @Lexes.name true [] _ _ name (List.forall_mem_nil _) hname stops_newline hend
  have hmunch : Munches '@' [] ([] ++ (name.toList ++ ['\n'])) := .single rfl (by
    cases [] ++ (name.toList ++ ['\n']) <;> rfl)
  exact @Lexes.word true '@' [] [] _ _ (List.forall_mem_nil _) hmunch (by decide) (by decide) hsecond

theorem lexes_endclass {name : String} (hname : isName name = true) :
    Lexes true ("endclass  ; ".toList ++ name.toList ++ ['\n']) [nameKind classendKeyword] := by
  have hclean : Clean (' ' :: name.toList) := clean_cons.mpr ⟨by decide, clean_name hname⟩
  have hblanks : ∀ d ∈ [' ', ' '], isWhitespace d = true := isWhitespace_blanks 2
  have hcomment := @Lexes.comment true _ hblanks _ hclean.1
  have hstops : EndsWord ([' ', ' '] ++ codeCommentCh :: (' ' :: name.toList ++ ['\n'])) := by
    rintro d ⟨⟩
    exact ⟨rfl, rfl⟩
  exact @Lexes.name true [] _ _ classendKeyword (List.forall_mem_nil _) (by decide) hstops hcomment

theorem isName_opToStr (op : Op) : isName op.opToStr = true ∧ op.opToStr.length < 6 := by
  cases op <;> decide

/-- An operand behind blanks. -/
theorem lexes_arg {arg : Arg} (h : arg.Printable floatFmt) (hne : arg ≠ .noArg) (op : Op)
    (hblanks : ∀ d ∈ blanks, isWhitespace d = true) :
    ∃ text, instructionWrite floatFmt ⟨op, arg⟩ = some (opFmt op ++ text) ∧ Clean text ∧
      ∀ rest, EndsWord rest → Lexes true rest [] →
        Lexes true (blanks ++ (text ++ rest)) (arg.kinds floatFmt) := by
  cases arg with
  | noArg => exact absurd rfl hne
  | id name =>
    refine ⟨name.toList, rfl, clean_name h, ?_⟩
    intro rest hstops hrest
    exact Lexes.name hblanks h hstops hrest
  | str text =>
    obtain ⟨s, rfl, hnul, hesc⟩ := h
    refine ⟨_, instructionWrite_quoted floatFmt op hnul, ?_, ?_⟩
    · apply clean_cons.mpr
      exact ⟨by decide, clean_append.mpr ⟨clean_escape s, by decide⟩⟩
    · intro rest _ hrest
      have hliteral := Lexes.literal hblanks (@readString_literal s rest hnul hesc) hrest
      rw [literal] at hliteral
      rw [List.cons_append, List.append_assoc]
      exact hliteral
  | val val =>
    cases val with
    | int n =>
      refine ⟨(toString n).toList, rfl, clean_int n, ?_⟩
      intro rest hstops hrest
      cases n with
      | ofNat n =>
        obtain ⟨c, digits, hchars, hdigits⟩ := natDigits n
        have hlexes := Lexes.digits hblanks hdigits hstops hrest
        rw [← hchars, String.ofList_toList] at hlexes
        have htext : (toString (Int.ofNat n)).toList = c :: digits := hchars
        rw [htext]
        exact hlexes
      | negSucc n =>
        obtain ⟨c, digits, hchars, hdigits⟩ := natDigits (n + 1)
        have hnumber := @Lexes.digits true [] rest [] c digits (List.forall_mem_nil _) hdigits hstops hrest
        rw [← hchars, String.ofList_toList] at hnumber
        rw [toList_toString_negSucc, hchars]
        exact Lexes.minus hblanks (hdigits c List.mem_cons_self) hnumber
    | float val =>
      obtain ⟨c, whole, fraction, hchars, hwhole, hfraction, -⟩ := h
      refine ⟨floatFmt val, rfl, ?_, ?_⟩
      · rw [hchars, ← List.cons_append, clean_append]
        have hperiod : Clean ['.'] := by decide
        refine ⟨clean_of_forall hwhole rfl rfl, ?_⟩
        exact clean_cons.mpr ⟨hperiod, clean_of_forall hfraction rfl rfl⟩
      · intro rest hstops hrest
        have hlexes := Lexes.float hblanks hwhole hfraction hstops hrest
        rw [Arg.kinds, hchars]
        exact hlexes
    | char c => exact h.elim

/-- A line of the format is printed, and read as its tokens. -/
theorem TextLine.lexes {line : TextLine} (h : line.Printable floatFmt) :
    ∃ text, line.print floatFmt = some text ∧ Clean text ∧
      Lexes true (text ++ ['\n']) (line.kinds floatFmt) := by
  cases line with
  | module name =>
    refine ⟨_, rfl, clean_append.mpr ⟨by decide, clean_name h⟩, ?_⟩
    exact @lexes_named [] "module" name (List.forall_mem_nil _) (by decide) h
  | endclass name =>
    exact ⟨_, rfl, clean_append.mpr ⟨by decide, clean_name h⟩, lexes_endclass h⟩
  | «class» name =>
    refine ⟨_, rfl, clean_append.mpr ⟨by decide, clean_name h⟩, ?_⟩
    exact @lexes_named [] classKeyword name (List.forall_mem_nil _) (by decide) h
  | field name =>
    refine ⟨_, rfl, clean_append.mpr ⟨by decide, clean_name h⟩, ?_⟩
    exact @lexes_named [' '] fieldKeyword name (isWhitespace_blanks 1) (by decide) h
  | label name =>
    exact ⟨_, rfl, clean_cons.mpr ⟨by decide, clean_name h⟩, lexes_label h⟩
  | instruction ins source =>
    obtain ⟨hop, hlength⟩ := isName_opToStr ins.op
    have hindent : ∀ d ∈ [' ', ' '], isWhitespace d = true := isWhitespace_blanks 2
    by_cases hne : ins.arg = .noArg
    · obtain ⟨op, arg⟩ := ins
      dsimp only at hne hop hlength
      subst hne
      obtain ⟨hcomment, hstops⟩ := @lexes_sourceComment true ([' ', ' '] ++ op.opToStr.toList).length source
      refine ⟨_, rfl, ?_, ?_⟩
      · rw [clean_append, clean_append]
        exact ⟨⟨by decide, clean_name hop⟩, clean_sourceComment _ source⟩
      · have hlexes := Lexes.name hindent hop hstops hcomment
        simp only [List.append_assoc] at hlexes ⊢
        exact hlexes
    · have hpad : opFmt ins.op = [' ', ' '] ++ (ins.op.opToStr.toList ++
          List.replicate (6 - ins.op.opToStr.length) ' ') := rfl
      obtain ⟨operand, hwrite, hclean, hlexes⟩ :=
        lexes_arg h hne ins.op (isWhitespace_blanks (6 - ins.op.opToStr.length))
      obtain ⟨hcomment, hstops⟩ := @lexes_sourceComment true (opFmt ins.op ++ operand).length source
      have harg := hlexes _ hstops hcomment
      refine ⟨opFmt ins.op ++ operand ++ sourceComment (opFmt ins.op ++ operand).length source,
        ?_, ?_, ?_⟩
      · rw [TextLine.print, hwrite, Option.map_some]
      · rw [clean_append, clean_append]
        refine ⟨⟨?_, hclean⟩, clean_sourceComment _ source⟩
        rw [hpad, clean_append, clean_append]
        exact ⟨by decide, clean_name hop, clean_blanks _⟩
      · have hpadStops : EndsWord (List.replicate (6 - ins.op.opToStr.length) ' ' ++ (operand ++
            (sourceComment (opFmt ins.op ++ operand).length source ++ ['\n']))) := by
          obtain ⟨m, hm⟩ := Nat.exists_eq_succ_of_ne_zero (n := 6 - ins.op.opToStr.length) (by omega)
          rw [hm]
          rintro d ⟨⟩
          exact ⟨rfl, rfl⟩
        have hline := Lexes.name hindent hop hpadStops harg
        rw [TextLine.kinds]
        rw [hpad] at hline ⊢
        simp only [List.append_assoc] at hline ⊢
        exact hline

/-- No token of a line ends it or carries it on. -/
theorem TextLine.kinds_type (line : TextLine) :
    ∀ k ∈ line.kinds floatFmt, k.1 ≠ .ENDLINE ∧ k.1 ≠ .BSLASH := by
  have hname : ∀ name, (nameKind name).1 ≠ .ENDLINE ∧ (nameKind name).1 ≠ .BSLASH := fun name =>
    ⟨wordType_ne _ (by decide) (by decide), wordType_ne _ (by decide) (by decide)⟩
  have harg : ∀ arg : Arg, ∀ k ∈ arg.kinds floatFmt, k.1 ≠ .ENDLINE ∧ k.1 ≠ .BSLASH := by
    intro arg
    unfold Arg.kinds
    split
    · exact nofun
    · exact List.forall_mem_singleton.mpr (hname _)
    · exact List.forall_mem_singleton.mpr ⟨nofun, nofun⟩
    · exact List.forall_mem_singleton.mpr ⟨nofun, nofun⟩
    · exact List.forall_mem_cons.mpr ⟨⟨nofun, nofun⟩, List.forall_mem_singleton.mpr ⟨nofun, nofun⟩⟩
    · exact List.forall_mem_singleton.mpr ⟨nofun, nofun⟩
    · exact nofun
  cases line with
  | module name => exact List.forall_mem_cons.mpr ⟨hname _, List.forall_mem_singleton.mpr (hname _)⟩
  | endclass name => exact List.forall_mem_singleton.mpr (hname _)
  | «class» name => exact List.forall_mem_cons.mpr ⟨hname _, List.forall_mem_singleton.mpr (hname _)⟩
  | field name => exact List.forall_mem_cons.mpr ⟨hname _, List.forall_mem_singleton.mpr (hname _)⟩
  | label name =>
    exact List.forall_mem_cons.mpr ⟨⟨nofun, nofun⟩, List.forall_mem_singleton.mpr (hname _)⟩
  | instruction ins source => exact List.forall_mem_cons.mpr ⟨hname _, harg ins.arg⟩

theorem TextLine.line {line : TextLine} (h : line.Printable floatFmt) :
    ∃ text, line.print floatFmt = some text ∧ Clean text ∧
      Lexer.Line true (text ++ ['\n']) (line.kinds floatFmt) := by
  obtain ⟨text, hprint, hclean, hlexes⟩ := line.lexes h
  have hne : line.kinds floatFmt ≠ [] := by
    cases line <;> exact List.cons_ne_nil _ _
  obtain ⟨last, hlast⟩ := Option.ne_none_iff_exists'.mp (mt List.getLast?_eq_none_iff.mp hne)
  refine ⟨text, hprint, hclean, hlexes, ⟨last, hlast, ?_⟩, fun k hk => (line.kinds_type k hk).1⟩
  exact (line.kinds_type last (List.mem_of_getLast? hlast)).2

/-- Lines of a file that are printed are lexed as their tokens. -/
theorem lex_print {dequeue : List Token → List Token} {lines : List TextLine}
    (h : ∀ line ∈ lines, line.Printable floatFmt) :
    ∃ texts, (lines.mapM fun line => (line.print floatFmt).map (· ++ ['\n'])) = some texts ∧
      (∀ text ∈ texts, '\x00' ∉ text ∧ '\n' ∉ text.dropLast) ∧
      ∀ fi : List LineInfo, fi.map LineInfo.lineText = texts → ∃ tokens,
        Lexer.lex dequeue (fi.length + 1) ⟨fi, true, [], []⟩ = some tokens ∧
        tokens.map Token.kind =
          lines.flatMap fun line => line.kinds floatFmt ++ [(.ENDLINE, "")] := by
  have hlines : ∃ texts, (lines.mapM fun line => (line.print floatFmt).map (· ++ ['\n'])) =
      some texts ∧ (∀ text ∈ texts, '\x00' ∉ text ∧ '\n' ∉ text.dropLast) ∧
      List.Forall₂ (fun text line => Lexer.Line true text (line.kinds floatFmt)) texts lines := by
    induction lines with
    | nil => exact ⟨[], rfl, nofun, .nil⟩
    | cons line lines ih =>
      obtain ⟨hline, hrest⟩ := List.forall_mem_cons.mp h
      obtain ⟨text, hprint, hclean, hlexes⟩ := line.line hline
      obtain ⟨texts, hprints, hcleans, hall⟩ := ih hrest
      refine ⟨(text ++ ['\n']) :: texts, ?_, ?_, .cons hlexes hall⟩
      · rw [List.mapM_cons, hprint, hprints]
        rfl
      · refine List.forall_mem_cons.mpr ⟨?_, hcleans⟩
        rw [List.dropLast_concat]
        refine ⟨?_, hclean.1⟩
        simp [hclean.2]
  obtain ⟨texts, hprints, hcleans, hall⟩ := hlines
  refine ⟨texts, hprints, hcleans, ?_⟩
  rintro fi rfl
  have hfi : List.Forall₂ (fun li kinds => Lexer.Line true li.lineText kinds) fi
      (lines.map (TextLine.kinds floatFmt)) := by
    rw [List.forall₂_map_left_iff] at hall
    exact List.forall₂_map_right_iff.mpr hall
  obtain ⟨tokens, hlex, hkinds⟩ := @Lexer.lex_lines dequeue true fi _ hfi [] []
  refine ⟨tokens, hlex, ?_⟩
  rw [hkinds, List.flatMap_map]

end Lines

end JeffVm
