import JeffVm.Lexer
import JeffVm.Tape

/-!
# Assembly text

What `instruction_write` prints and `tape_read_ins` reads. A string operand is printed escaped
and is read by the lexer with escape processing on.
-/

set_option autoImplicit false

namespace JeffVm

/-! ## Escaping -/

def shouldEscape (c : Char) : Bool := c = '\'' || c = '"' || c = '\n' || c = '\r'

def excapeChar (c : Char) : Char :=
  match c with
  | '\n' => 'n'
  | '\t' => 't'
  | '\r' => 'r'
  | c => c

/-- A string ends at its first NUL. -/
def escape : List Char → List Char
  | [] => []
  | c :: str =>
    if c = '\x00' then []
    else if shouldEscape c then '\\' :: excapeChar c :: escape str
    else excapeChar c :: escape str

variable {c : Char} {s s' : List Char}

theorem excapeChar_eq_backslash : excapeChar c = '\\' ↔ c = '\\' := by
  constructor
  · intro h
    unfold excapeChar at h
    split at h
    all_goals first | exact h | cases h
  · rintro rfl
    rfl

/-- The two tables agree on the characters behind a backslash. -/
theorem charUnesc_excapeChar (h : shouldEscape c = true) : charUnesc (excapeChar c) = c := by
  simp only [shouldEscape, Bool.or_eq_true, decide_eq_true_eq] at h
  rcases h with ((rfl | rfl) | rfl) | rfl
  all_goals rfl

/-- Only a tab is changed without a backslash. -/
theorem excapeChar_eq_self (h : shouldEscape c = false) : excapeChar c = c ↔ c ≠ '\t' := by
  constructor
  · rintro heq rfl
    cases heq
  · intro htab
    simp only [shouldEscape, Bool.or_eq_false_iff, decide_eq_false_iff_not] at h
    unfold excapeChar
    split
    · exact absurd rfl h.1.2
    · exact absurd rfl htab
    · exact absurd rfl h.2
    · rfl

theorem excapeChar_ne_quote (h : shouldEscape c = false) : excapeChar c ≠ '\'' := by
  intro heq
  unfold excapeChar at heq
  split at heq
  · cases heq
  · cases heq
  · cases heq
  · subst heq
    cases h

theorem escape_append (h : '\x00' ∉ s) : escape (s ++ s') = escape s ++ escape s' := by
  induction s with
  | nil => rfl
  | cons c s ih =>
    simp only [List.mem_cons, not_or] at h
    have hc : c ≠ '\x00' := Ne.symm h.1
    simp only [List.cons_append, escape, if_neg hc, ih h.2]
    split_ifs
    · rfl
    · rfl

/-! ## Printing -/

/-- `"  %-6s"` -/
def opFmt (op : Op) : List Char := [' ', ' '] ++ op.opToStr.toList.rightpad 6 ' '

/-- `"\'%.*s\'"`; a negative precision counts as none. -/
def strFmt (precision : Int) (str : List Char) : List Char :=
  '\'' :: (if precision < 0 then str else str.take precision.toNat) ++ ['\'']

/-- `floatFmt` prints a double as `"%f"` does. `none` is the call of `ERROR` on a character, or a
read behind the end of an empty string. -/
def instructionWrite (floatFmt : UInt64 → List Char) (ins : Instruction) : Option (List Char) :=
  match ins.arg with
  | .noArg => some ([' ', ' '] ++ ins.op.opToStr.toList)
  | .id id => some (opFmt ins.op ++ id.toList)
  | .str str =>
    match str.toList with
    | [] => none
    | _ :: str =>
      let tmp := escape str
      some (opFmt ins.op ++ strFmt (tmp.length - 2) tmp)
  | .val (.int val) => some (opFmt ins.op ++ (toString val).toList)
  | .val (.float val) => some (opFmt ins.op ++ floatFmt val)
  | .val (.char _) => none

/-- The text of a string token. -/
def quoted (s : List Char) : String := String.ofList ('\'' :: (s ++ ['\'']))

/-- The precision leaves out what the closing quote was escaped to. -/
theorem strFmt_quoted (h : '\x00' ∉ s) :
    strFmt ((escape (s ++ ['\''])).length - 2) (escape (s ++ ['\''])) =
      '\'' :: (escape s ++ ['\'']) := by
  have hlen : ((escape s ++ ['\\', '\'']).length : Int) - 2 = (escape s).length := by
    simp
  have hescape : escape (s ++ ['\'']) = escape s ++ ['\\', '\''] := escape_append h
  rw [hescape, hlen, strFmt, if_neg (by omega), Int.toNat_natCast, List.take_left']
  · rfl
  · rfl

theorem instructionWrite_quoted (floatFmt : UInt64 → List Char) (op : Op) (h : '\x00' ∉ s) :
    instructionWrite floatFmt ⟨op, .str (quoted s)⟩ =
      some (opFmt op ++ '\'' :: (escape s ++ ['\''])) := by
  have hchars : (quoted s).toList = '\'' :: (s ++ ['\'']) := String.toList_ofList
  simp only [instructionWrite, hchars, strFmt_quoted h]

/-! ## Reading a printed string -/

/-- The loop stores `word`. -/
def ReadsWord (line word : List Char) : Prop :=
  ∃ rest, readStringLoop true false line = some (word, rest)

variable {u : Char} {line word rest : List Char}

theorem reads_quote : ReadsWord ('\'' :: line) word ↔ word = ['\''] := by
  simp [ReadsWord, readStringLoop_quote, eq_comm]

theorem reads_backslash :
    ReadsWord ('\\' :: u :: line) word ↔ ∃ w, word = charUnesc u :: w ∧ ReadsWord line w := by
  simp only [ReadsWord, readStringLoop_backslash, Option.map_eq_some_iff, Prod.exists, Prod.mk.injEq]
  constructor
  · rintro ⟨rest, w, r, hread, rfl, rfl⟩
    exact ⟨w, rfl, r, hread⟩
  · rintro ⟨w, rfl, r, hread⟩
    exact ⟨r, w, r, hread, rfl, rfl⟩

theorem reads_plain (hquote : c ≠ '\'') (hbackslash : c ≠ '\\') :
    ReadsWord (c :: line) word ↔ ∃ w, word = c :: w ∧ ReadsWord line w := by
  simp only [ReadsWord, readStringLoop_plain hquote hbackslash, Option.map_eq_some_iff, Prod.exists,
    Prod.mk.injEq]
  constructor
  · rintro ⟨rest, w, r, hread, rfl, rfl⟩
    exact ⟨w, rfl, r, hread⟩
  · rintro ⟨w, rfl, r, hread⟩
    exact ⟨r, w, r, hread, rfl, rfl⟩

/-- What is read of an escaped character of a string. -/
theorem reads_escape_cons (h : shouldEscape c = true) (hnul : c ≠ '\x00') :
    ReadsWord (escape (c :: s) ++ line) word ↔ ∃ w, word = c :: w ∧ ReadsWord (escape s ++ line) w := by
  rw [escape, if_neg hnul, if_pos h, List.cons_append, List.cons_append, reads_backslash,
    charUnesc_excapeChar h]

theorem reads_escape_plain (h : shouldEscape c = false) (hnul : c ≠ '\x00') (hne : c ≠ '\\') :
    ReadsWord (escape (c :: s) ++ line) word ↔
      ∃ w, word = excapeChar c :: w ∧ ReadsWord (escape s ++ line) w := by
  rw [escape, if_neg hnul, if_neg (by simp [h]), List.cons_append,
    reads_plain (excapeChar_ne_quote h) (mt excapeChar_eq_backslash.mp hne)]

/-- The literal of `s` behind its opening quote, and the rest of the line. -/
def literal (s line : List Char) : List Char := escape s ++ '\'' :: line

/-- A character other than a backslash is read back if it is not a tab. -/
theorem reads_literal_cons (hnul : c ≠ '\x00') (hne : c ≠ '\\') :
    ReadsWord (literal (c :: s) line) (c :: word) ↔ c ≠ '\t' ∧ ReadsWord (literal s line) word := by
  unfold literal
  cases h : shouldEscape c with
  | true =>
    have htab : c ≠ '\t' := by
      rintro rfl
      cases h
    rw [reads_escape_cons h hnul]
    constructor
    · rintro ⟨w, heq, hread⟩
      obtain rfl := List.tail_eq_of_cons_eq heq
      exact ⟨htab, hread⟩
    · rintro ⟨-, hread⟩
      exact ⟨word, rfl, hread⟩
  | false =>
    rw [reads_escape_plain h hnul hne]
    constructor
    · rintro ⟨w, heq, hread⟩
      obtain rfl := List.tail_eq_of_cons_eq heq
      exact ⟨(excapeChar_eq_self h).mp (List.head_eq_of_cons_eq heq).symm, hread⟩
    · rintro ⟨htab, hread⟩
      exact ⟨word, congrArg (· :: word) ((excapeChar_eq_self h).mpr htab).symm, hread⟩

/-- A character other than a backslash is not read as one. -/
theorem not_reads_backslash (hnul : c ≠ '\x00') (hne : c ≠ '\\') :
    ¬ ReadsWord (literal (c :: s) line) ('\\' :: word) := by
  unfold literal
  intro hread
  cases h : shouldEscape c with
  | true =>
    obtain ⟨w, heq, -⟩ := (reads_escape_cons h hnul).mp hread
    exact hne (List.head_eq_of_cons_eq heq).symm
  | false =>
    obtain ⟨w, heq, -⟩ := (reads_escape_plain h hnul hne).mp hread
    exact hne (excapeChar_eq_backslash.mp (List.head_eq_of_cons_eq heq).symm)

/-- The backslash of the string takes the one that escapes `u` along. -/
theorem reads_literal_backslash (hnul : u ≠ '\x00') (h : shouldEscape u = true) :
    ReadsWord (literal ('\\' :: u :: s) line) ('\\' :: word) ↔
      ReadsWord (excapeChar u :: literal s line) word := by
  have hchars : literal ('\\' :: u :: s) line =
      '\\' :: '\\' :: excapeChar u :: literal s line := by
    rw [literal, escape, if_neg (by decide), if_neg (by decide), escape, if_neg hnul, if_pos h]
    rfl
  rw [hchars, reads_backslash]
  constructor
  · rintro ⟨w, heq, hread⟩
    obtain rfl := List.tail_eq_of_cons_eq heq
    exact hread
  · exact fun hread => ⟨word, rfl, hread⟩

/-- The backslash of the string takes `u` itself along. -/
theorem reads_literal_backslash_plain (hnul : u ≠ '\x00') (h : shouldEscape u = false) :
    ReadsWord (literal ('\\' :: u :: s) line) ('\\' :: word) ↔
      u = '\\' ∧ ReadsWord (literal s line) word := by
  have hchars : literal ('\\' :: u :: s) line = '\\' :: excapeChar u :: literal s line := by
    rw [literal, escape, if_neg (by decide), if_neg (by decide), escape, if_neg hnul,
      if_neg (by simp [h])]
    rfl
  rw [hchars, reads_backslash]
  constructor
  · rintro ⟨w, heq, hread⟩
    have hu : charUnesc (excapeChar u) = '\\' := (List.head_eq_of_cons_eq heq).symm
    obtain rfl := List.tail_eq_of_cons_eq heq
    exact ⟨excapeChar_eq_backslash.mp (charUnesc_eq_backslash.mp hu), hread⟩
  · rintro ⟨rfl, hread⟩
    exact ⟨word, rfl, hread⟩

theorem not_reads_literal_nil_backslash : ¬ ReadsWord (literal [] line) ('\\' :: word) := by
  intro hread
  have heq := reads_quote.mp hread
  exact absurd (List.head_eq_of_cons_eq heq) (by decide)

theorem not_reads_literal_one_backslash : ¬ ReadsWord (literal ['\\'] line) ('\\' :: word) := by
  intro hread
  obtain ⟨w, heq, -⟩ := reads_backslash.mp hread
  exact absurd (List.head_eq_of_cons_eq heq) (by decide)

/-- Behind the escape of `u`, no backslash is read. -/
theorem not_reads_excapeChar_backslash (h : shouldEscape u = true) :
    ¬ ReadsWord (excapeChar u :: literal s line) ('\\' :: word) := by
  intro hread
  have hne : excapeChar u ≠ '\\' := by
    intro heq
    rw [excapeChar_eq_backslash.mp heq] at h
    cases h
  by_cases hquote : excapeChar u = '\''
  · rw [hquote] at hread
    exact absurd (List.head_eq_of_cons_eq (reads_quote.mp hread)) (by decide)
  · obtain ⟨w, heq, -⟩ := (reads_plain hquote hne).mp hread
    exact hne (List.head_eq_of_cons_eq heq).symm

theorem replicate_append_cons (n : Nat) (l : List Char) :
    List.replicate n c ++ c :: l = c :: (List.replicate n c ++ l) := by
  have hsucc : List.replicate n c ++ [c] = c :: List.replicate n c := by
    rw [← List.replicate_succ', List.replicate_succ]
  rw [← List.singleton_append, ← List.append_assoc, hsucc]
  rfl

/-- The reader loses a backslash for good: the literal of `v` is never read as `v` with
backslashes before it. -/
theorem not_reads_stretched {v : List Char} (hnul : '\x00' ∉ v) (n : Nat) :
    ¬ ReadsWord (literal v line) ('\\' :: (List.replicate n '\\' ++ (v ++ ['\'']))) := by
  induction v using List.twoStepInduction generalizing n with
  | nil => exact not_reads_literal_nil_backslash
  | singleton c =>
    have hc : c ≠ '\x00' := by
      rintro rfl
      exact hnul List.mem_cons_self
    by_cases hne : c = '\\'
    · subst hne
      exact not_reads_literal_one_backslash
    · exact not_reads_backslash hc hne
  | cons_cons c u v ih _ =>
    simp only [List.mem_cons, not_or] at hnul
    obtain ⟨hc, hu, hv⟩ := hnul
    by_cases hne : c = '\\'
    · subst hne
      intro hread
      -- the run of backslashes before `u` grows by one
      have hgrow : List.replicate n '\\' ++ ('\\' :: u :: v ++ ['\'']) =
          '\\' :: (List.replicate n '\\' ++ (u :: v ++ ['\''])) := replicate_append_cons n _
      rw [hgrow] at hread
      cases h : shouldEscape u with
      | true =>
        have hread' := (reads_literal_backslash (Ne.symm hu) h).mp hread
        exact not_reads_excapeChar_backslash h hread'
      | false =>
        obtain ⟨rfl, hread'⟩ := (reads_literal_backslash_plain (Ne.symm hu) h).mp hread
        apply ih hv (n + 1)
        have hstretch := replicate_append_cons (c := '\\') n (v ++ ['\''])
        rw [List.cons_append, hstretch] at hread'
        exact hread'
    · exact not_reads_backslash (Ne.symm hc) hne

/-! ## Which strings survive -/

/-- No tab, and a backslash only directly before a double quote. -/
def Escapable (s : List Char) : Prop :=
  '\t' ∉ s ∧ ∀ post, '\\' :: post <:+ s → post.head? = some '"'

theorem escapable_nil : Escapable [] := by
  refine ⟨List.not_mem_nil, ?_⟩
  intro post hpost
  cases List.suffix_nil.mp hpost

theorem escapable_cons (hne : c ≠ '\\') : Escapable (c :: s) ↔ c ≠ '\t' ∧ Escapable s := by
  unfold Escapable
  rw [List.mem_cons, not_or]
  constructor
  · rintro ⟨⟨hc, hs⟩, hpost⟩
    exact ⟨Ne.symm hc, hs, fun post h => hpost post (h.trans (List.suffix_cons c s))⟩
  · rintro ⟨hc, hs, hpost⟩
    refine ⟨⟨Ne.symm hc, hs⟩, ?_⟩
    intro post h
    rcases List.suffix_cons_iff.mp h with heq | h
    · exact absurd (List.head_eq_of_cons_eq heq).symm hne
    · exact hpost post h

theorem escapable_backslash :
    Escapable ('\\' :: s) ↔ ∃ s', s = '"' :: s' ∧ Escapable s' := by
  constructor
  · rintro ⟨htab, hpost⟩
    obtain ⟨s', rfl⟩ : ∃ s', s = '"' :: s' :=
      List.head?_eq_some_iff.mp (hpost s (List.suffix_refl _))
    refine ⟨s', rfl, fun hmem => htab (by simp [hmem]), ?_⟩
    intro post h
    exact hpost post (h.trans ((List.suffix_cons _ s').trans (List.suffix_cons _ _)))
  · rintro ⟨s', rfl, hs'⟩
    have hs : Escapable ('"' :: s') := (escapable_cons (by decide)).mpr ⟨by decide, hs'⟩
    refine ⟨?_, ?_⟩
    · rw [List.mem_cons, not_or]
      exact ⟨by decide, hs.1⟩
    · intro post h
      rcases List.suffix_cons_iff.mp h with heq | h
      · rw [List.tail_eq_of_cons_eq heq]
        rfl
      · exact hs.2 post h

/-- Of the characters behind a backslash only the double quote is read as itself. -/
theorem reads_excapeChar (h : shouldEscape u = true) :
    ReadsWord (excapeChar u :: literal s line) (u :: (s ++ ['\''])) ↔
      u = '"' ∧ ReadsWord (literal s line) (s ++ ['\'']) := by
  simp only [shouldEscape, Bool.or_eq_true, decide_eq_true_eq] at h
  rcases h with ((rfl | rfl) | rfl) | rfl
  · refine iff_of_false ?_ (fun h => absurd h.1 (by decide))
    intro hread
    have heq := List.tail_eq_of_cons_eq (reads_quote.mp hread)
    exact List.append_ne_nil_of_right_ne_nil s (List.cons_ne_nil _ _) heq
  · have hplain : ReadsWord ('"' :: literal s line) ('"' :: (s ++ ['\''])) ↔
        ∃ w, '"' :: (s ++ ['\'']) = '"' :: w ∧ ReadsWord (literal s line) w :=
      reads_plain (by decide) (by decide)
    refine hplain.trans ?_
    simp
  · refine iff_of_false ?_ (fun h => absurd h.1 (by decide))
    intro hread
    obtain ⟨w, heq, -⟩ := (reads_plain (c := 'n') (by decide) (by decide)).mp hread
    exact absurd (List.head_eq_of_cons_eq heq) (by decide)
  · refine iff_of_false ?_ (fun h => absurd h.1 (by decide))
    intro hread
    obtain ⟨w, heq, -⟩ := (reads_plain (c := 'r') (by decide) (by decide)).mp hread
    exact absurd (List.head_eq_of_cons_eq heq) (by decide)

/-- A backslash survives before a double quote only. -/
theorem reads_own_backslash (hnul : '\x00' ∉ s) :
    ReadsWord (literal ('\\' :: s) line) ('\\' :: (s ++ ['\''])) ↔
      ∃ s', s = '"' :: s' ∧ ReadsWord (literal s' line) (s' ++ ['\'']) := by
  cases s with
  | nil => exact iff_of_false not_reads_literal_one_backslash (by simp)
  | cons u s =>
    simp only [List.mem_cons, not_or] at hnul
    obtain ⟨hu, hs⟩ := hnul
    cases h : shouldEscape u with
    | false =>
      rw [reads_literal_backslash_plain (Ne.symm hu) h]
      refine iff_of_false ?_ ?_
      · rintro ⟨rfl, hread⟩
        exact not_reads_stretched hs 0 hread
      · rintro ⟨s', heq, -⟩
        rw [List.head_eq_of_cons_eq heq] at h
        cases h
    | true =>
      rw [reads_literal_backslash (Ne.symm hu) h, List.cons_append, reads_excapeChar h]
      constructor
      · rintro ⟨rfl, hread⟩
        exact ⟨s, rfl, hread⟩
      · rintro ⟨s', heq, hread⟩
        obtain ⟨rfl, rfl⟩ := List.cons.inj heq
        exact ⟨rfl, hread⟩

theorem reads_literal_iff (hnul : '\x00' ∉ s) :
    ReadsWord (literal s line) (s ++ ['\'']) ↔ Escapable s := by
  induction hlen : s.length using Nat.strong_induction_on generalizing s with
  | h n ih =>
    cases s with
    | nil => exact iff_of_true (reads_quote.mpr rfl) escapable_nil
    | cons c s =>
      simp only [List.mem_cons, not_or] at hnul
      obtain ⟨hc, hs⟩ := hnul
      have hlt : s.length < n := by
        rw [← hlen]
        exact Nat.lt_succ_self s.length
      by_cases hne : c = '\\'
      · subst hne
        rw [List.cons_append, reads_own_backslash hs, escapable_backslash]
        -- both sides go on behind the double quote
        apply exists_congr
        intro s'
        apply and_congr_right
        rintro rfl
        exact ih s'.length ((Nat.lt_succ_self s'.length).trans hlt)
          (fun hmem => hs (List.mem_cons_of_mem _ hmem)) rfl
      · rw [List.cons_append, reads_literal_cons (Ne.symm hc) hne, escapable_cons hne,
          ih s.length hlt hs rfl]

/-- The printed string is lexed to the text that was printed, whatever stands behind it. -/
def SurvivesAssembly (floatFmt : UInt64 → List Char) (op : Op) (s line : List Char) : Prop :=
  ∃ printed, instructionWrite floatFmt ⟨op, .str (quoted s)⟩ = some (opFmt op ++ '\'' :: printed) ∧
    (readString (printed ++ line) true).map Prod.fst = some (quoted s)

theorem survivesAssembly_iff (floatFmt : UInt64 → List Char) (op : Op) (s line : List Char)
    (hnul : '\x00' ∉ s) : SurvivesAssembly floatFmt op s line ↔ Escapable s := by
  rw [← @reads_literal_iff _ line hnul]
  have hread : ∀ word, (readString word true).map Prod.fst = some (quoted s) ↔
      ReadsWord word (s ++ ['\'']) := by
    intro word
    rw [readString, Option.map_map, Option.map_eq_some_iff, quoted]
    constructor
    · rintro ⟨⟨w, rest⟩, hloop, htext⟩
      rw [← List.tail_eq_of_cons_eq (String.ofList_injective htext)]
      exact ⟨rest, hloop⟩
    · rintro ⟨rest, hloop⟩
      exact ⟨_, hloop, rfl⟩
  have hline : (escape s ++ ['\'']) ++ line = literal s line := by simp [literal]
  constructor
  · rintro ⟨printed, hwrite, htext⟩
    rw [instructionWrite_quoted floatFmt op hnul] at hwrite
    have hprinted := List.tail_eq_of_cons_eq (List.append_cancel_left (Option.some.inj hwrite))
    rw [← hprinted, hline] at htext
    exact (hread _).mp htext
  · intro h
    refine ⟨escape s ++ ['\''], instructionWrite_quoted floatFmt op hnul, ?_⟩
    rw [hline]
    exact (hread _).mpr h

theorem survivesAssembly_quote :
    SurvivesAssembly (fun _ => []) .RES ['a', '\'', '\n', '\\', '"'] ['\n'] := by
  refine (survivesAssembly_iff _ _ _ _ (by decide)).mpr ?_
  have hquote : Escapable ['\\', '"'] := escapable_backslash.mpr ⟨[], rfl, escapable_nil⟩
  have hline : Escapable ['\n', '\\', '"'] := (escapable_cons (by decide)).mpr ⟨by decide, hquote⟩
  have hapos : Escapable ['\'', '\n', '\\', '"'] :=
    (escapable_cons (by decide)).mpr ⟨by decide, hline⟩
  exact (escapable_cons (by decide)).mpr ⟨by decide, hapos⟩

/-- A tab is printed as the letter `t`. -/
theorem not_survivesAssembly : ¬ ∀ (floatFmt : UInt64 → List Char) (op : Op) (s line : List Char),
    '\x00' ∉ s → SurvivesAssembly floatFmt op s line := by
  intro h
  obtain ⟨printed, hwrite, htext⟩ := h (fun _ => []) .RES ['\t'] [] (by decide)
  rw [instructionWrite_quoted _ _ (by decide)] at hwrite
  have hprinted := List.tail_eq_of_cons_eq (List.append_cancel_left (Option.some.inj hwrite))
  rw [← hprinted] at htext
  have htext' := Option.some.inj htext
  exact absurd htext' (by decide)

/-! ## Reading instructions -/

def classKeyword : String := "class"
def classendKeyword : String := "endclass"
def fieldKeyword : String := "field"

/-- The names behind the commas. -/
def readParents : List Token → Option (List String × List Token)
  | [] => none
  | [next] => if next.type = .COMMA then none else some ([], [next])
  | next :: parent :: tokens =>
    if next.type = .COMMA then
      (readParents tokens).map fun parents => (parent.text :: parents.1, parents.2)
    else some ([], next :: parent :: tokens)

/-- The end of a label line. -/
def readLabelEnd (tape : Tape) (fnName : Token) : List Token → Option (Tape × List Token)
  | [] => none
  | next :: tokens =>
    if next.type = .ENDLINE then
      (tape.startFunc fnName.text false).map fun tape => (tape, next :: tokens)
    else none

/-- A label behind its `@`. An asynchronous label is started, and then started again. -/
def readLabel (tape : Tape) : List Token → Option (Tape × List Token)
  | fnName :: next :: tokens =>
    if next.type = .COLON then
      match tokens with
      | [] => none
      | asyncKeyword :: tokens =>
        if asyncKeyword.text = "async" then
          (tape.startFunc fnName.text true).bind fun tape => readLabelEnd tape fnName tokens
        else none
    else readLabelEnd tape fnName (next :: tokens)
  | _ => none

def readClass (tape : Tape) : List Token → Option (Tape × List Token)
  | className :: next :: tokens =>
    if next.type = .ENDLINE then
      (tape.startClass className.text).map fun tape => (tape, next :: tokens)
    else
      match readParents (next :: tokens) with
      | none => none
      | some (parents, tokens) =>
        ((tape.startClass className.text).bind fun tape => parents.foldlM Tape.addSuper tape).map
          fun tape => (tape, tokens)
  | _ => none

/-- An operation and its operand; a sign before a number is a token of its own. -/
def readOp (tape : Tape) (op : Op) (first : Token) : List Token → Option (Tape × List Token)
  | [] => none
  | next :: tokens =>
    if next.type = .ENDLINE ∨ next.type = .POUND then
      some (tape.insNoArg op first, next :: tokens)
    else if next.type = .MINUS then
      match tokens with
      | [] => none
      | number :: tokens => (tape.insNeg op number).map fun tape => (tape, tokens)
    else some (tape.insToken op next, tokens)

/-- One instruction or declaration, and the tokens left. `none` is an error, a read behind the
end of the queue or a name outside the table of operations. -/
def tapeReadIns (tape : Tape) (tokens : List Token) : Option (Tape × List Token) :=
  match tokens.dropWhile (fun token => token.type = .ENDLINE) with
  | [] => some (tape, [])
  | first :: tokens =>
    if first.type = .AT then readLabel tape tokens
    else if first.text = classKeyword then readClass tape tokens
    else if first.text = classendKeyword then tape.endClass.map fun tape => (tape, tokens)
    else if first.text = fieldKeyword then
      match tokens with
      | [] => none
      | field :: tokens => (tape.field field.text).map fun tape => (tape, tokens)
    else (Op.strToOp first.text).bind fun op => readOp tape op first tokens

/-- The first token of a line with the operation `op`. -/
structure NamesOp (first : Token) (op : Op) : Prop where
  text_eq : first.text = op.opToStr
  not_endline : first.type ≠ .ENDLINE
  not_at : first.type ≠ .AT

theorem tapeReadIns_op {first : Token} {op : Op} (h : NamesOp first op) (tape : Tape)
    (tokens : List Token) : tapeReadIns tape (first :: tokens) = readOp tape op first tokens := by
  have hkeyword : op.opToStr ≠ classKeyword ∧ op.opToStr ≠ classendKeyword ∧
      op.opToStr ≠ fieldKeyword := by
    cases op <;> decide
  obtain ⟨hclass, hclassend, hfield⟩ := hkeyword
  rw [tapeReadIns, List.dropWhile_cons_of_neg (by simpa using h.not_endline)]
  simp only [if_neg h.not_at, h.text_eq, if_neg hclass, if_neg hclassend, if_neg hfield,
    Op.strToOp_opToStr, Option.bind_some]

end JeffVm
