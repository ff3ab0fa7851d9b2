import JeffVm.LexLine
import JeffVm.Tape

/-!
# What the lexer makes of a line

The loop of `lex_line` as a relation between the rest of a line and its words, from which the
facts about the words follow by induction: when the loop stays on the line, how operators are
spelled, and which columns tokens get.
-/

set_option autoImplicit false

namespace JeffVm

/-! ## The loop -/

/-- The text of a word. -/
def wordText (c : Char) (tail : List Char) : String :=
  String.ofList ((c :: tail).takeWhile (· != '\x00'))

/-- The words from a position on, where `col` characters have been counted before it. -/
inductive Scans (escape : Bool) : Bool → Int → List Char → List LineWord × Ending → Prop
  | nul {comment : Bool} {col : Int} : Scans escape comment col [] ([⟨.ENDLINE, "", col⟩], .done true)
  | blanks {comment : Bool} {col : Int} {blanks : List Char} : blanks ≠ [] →
      (∀ c ∈ blanks, isWhitespace c = true) → Scans escape comment col blanks
        (if comment then [] else [⟨.WORD, "", col + blanks.length + 1⟩], .overrun)
  | newline {comment : Bool} {col : Int} {rest : List Char} :
      Scans escape comment col ('\n' :: rest) ([⟨.ENDLINE, "", col⟩], .done true)
  | blankLine {comment : Bool} {col : Int} {blanks rest : List Char} : blanks ≠ [] →
      (∀ c ∈ blanks, isWhitespace c = true) → Scans escape comment col (blanks ++ '\n' :: rest)
        ([⟨.ENDLINE, "", col + blanks.length⟩, ⟨.ENDLINE, "", col + blanks.length⟩], .done true)
  | skip {comment : Bool} {col : Int} {blanks tail rest : List Char} {c : Char}
      {ws : List LineWord × Ending} : (∀ c ∈ blanks, isWhitespace c = true) → Spells c tail rest →
      (comment || c == codeCommentCh) = true →
      Scans escape true (col + ((blanks.length + 1 + tail.length : Nat) : Int)) rest ws →
      Scans escape comment col (blanks ++ c :: (tail ++ rest)) ws
  | literal {col : Int} {blanks rest index : List Char} {str : String}
      {ws : List LineWord × Ending} : (∀ c ∈ blanks, isWhitespace c = true) →
      readString rest escape = some (str, index) →
      Scans escape false (col + ((blanks.length + 1 : Nat) : Int)) index ws →
      Scans escape false col (blanks ++ '\'' :: rest)
        (⟨.STR, str, col + ((blanks.length + 1 : Nat) : Int) - str.length⟩ :: ws.1, ws.2)
  | openLiteral {col : Int} {blanks rest : List Char} : (∀ c ∈ blanks, isWhitespace c = true) →
      readString rest escape = none → Scans escape false col (blanks ++ '\'' :: rest) ([], .overrun)
  | word {col : Int} {blanks tail rest : List Char} {c : Char} {ws : List LineWord × Ending} :
      (∀ c ∈ blanks, isWhitespace c = true) → Spells c tail rest → c ≠ codeCommentCh → c ≠ '\'' →
      Scans escape false (col + ((blanks.length + 1 + tail.length : Nat) : Int)) rest ws →
      Scans escape false col (blanks ++ c :: (tail ++ rest))
        (⟨resolveType (c :: tail), wordText c tail,
          col + ((blanks.length + 1 + tail.length : Nat) : Int) - (wordText c tail).length⟩ :: ws.1, ws.2)

section

variable {escape comment : Bool} {col : Int} {index : List Char}

/-- The types of words that are no operators. -/
def TokenType.isWord : TokenType → Bool
  | .WORD | .INTEGER | .FLOATING => true
  | .IF_T | .THEN | .ELSE | .DEF | .NEW | .FIELD | .METHOD | .CLASS | .WHILE | .FOR | .BREAK
  | .CONTINUE | .RETURN | .AS | .IS_T | .TRY | .CATCH | .RAISE | .IMPORT | .MODULE_T | .EXIT_T
  | .IN | .NOTIN | .CONST_T | .AND_T | .OR_T | .ASYNC | .AWAIT => true
  | _ => false

theorem wordType_isWord (word : List Char) : (wordType word).isWord = true := by
  have hkeywords : ∀ k ∈ keywordToType, k.2.isWord = true := by decide
  unfold wordType
  cases hfind : keywordToType.find? fun k => k.1.toList == word with
  | none => rfl
  | some k => exact hkeywords k (List.mem_of_find?_eq_some hfind)

theorem resolveType_special {c : Char} {tail : List Char} {type : TokenType}
    (h : specialType c tail.head? = some type) : resolveType (c :: tail) = type := by
  rw [resolveType, h]

theorem resolveType_isWord {c : Char} {tail : List Char} (h : specialType c tail.head? = none) :
    (resolveType (c :: tail)).isWord = true := by
  rw [resolveType, h]
  dsimp only
  split
  · split
    · rfl
    · rfl
  · exact wordType_isWord _

theorem specialType_ne_endline (c : Char) (sec : Option Char) :
    specialType c sec ≠ some .ENDLINE := by
  unfold specialType
  split
  all_goals first | (split_ifs <;> nofun) | nofun

theorem specialType_eq_str {c : Char} {sec : Option Char} :
    specialType c sec = some .STR ↔ c = '\'' := by
  constructor
  · intro h
    unfold specialType at h
    split at h
    all_goals first | rfl | cases h | (split_ifs at h <;> cases h)
  · rintro rfl
    rfl

theorem resolveType_ne_endline (c : Char) (tail : List Char) : resolveType (c :: tail) ≠ .ENDLINE := by
  intro h
  cases hspecial : specialType c tail.head? with
  | none =>
    have hword := resolveType_isWord hspecial
    rw [h] at hword
    cases hword
  | some type =>
    rw [resolveType_special hspecial] at h
    rw [h] at hspecial
    exact specialType_ne_endline _ _ hspecial

theorem resolveType_eq_str {c : Char} {tail : List Char} :
    resolveType (c :: tail) = .STR ↔ c = '\'' := by
  cases hspecial : specialType c tail.head? with
  | none =>
    have hword := resolveType_isWord hspecial
    constructor
    · intro h
      rw [h] at hword
      cases hword
    · rintro rfl
      cases hspecial
  | some type =>
    have hquote : specialType c tail.head? = some .STR ↔ c = '\'' := specialType_eq_str
    rw [resolveType_special hspecial, ← hquote, hspecial, Option.some.injEq]

theorem length_readStringLoop {unesc : Bool} {line word rest : List Char}
    (h : readStringLoop escape unesc line = some (word, rest)) : rest.length < line.length := by
  induction line generalizing unesc word with
  | nil => cases unesc <;> cases h
  | cons c line ih =>
    cases unesc with
    | true =>
      obtain ⟨⟨word', rest'⟩, hloop, heq⟩ := Option.map_eq_some_iff.mp h
      cases heq
      have hlt := ih hloop
      rw [List.length_cons]
      omega
    | false =>
      rw [readStringLoop] at h
      split at h
      · cases h
        exact Nat.lt_succ_self _
      split at h
      · have hlt := ih h
        rw [List.length_cons]
        omega
      · obtain ⟨⟨word', rest'⟩, hloop, heq⟩ := Option.map_eq_some_iff.mp h
        cases heq
        have hlt := ih hloop
        rw [List.length_cons]
        omega

theorem length_readString {rest : List Char} {str : String}
    (h : readString rest escape = some (str, index)) : index.length < rest.length := by
  obtain ⟨⟨word, rest'⟩, hloop, heq⟩ := Option.map_eq_some_iff.mp h
  cases heq
  exact length_readStringLoop hloop

section Next

variable {k : Nat} {next : Option (List Char)} {c : Char} {tail : List Char}

theorem next_endline (h : readWord index = ⟨[], k, next⟩) :
    LineReading.next escape ⟨some index, comment, col⟩ =
      .read ⟨.ENDLINE, "", col + k⟩ k ⟨next, false, col + k⟩ := by
  have hempty : String.ofList ([] : List Char) = "" := rfl
  simp [LineReading.next, h, resolveComment, resolveType, hempty]

theorem next_skip (h : readWord index = ⟨c :: tail, k, next⟩)
    (hc : (comment || c == codeCommentCh) = true) :
    LineReading.next escape ⟨some index, comment, col⟩ = .skipped ⟨next, true, col + k⟩ := by
  simp only [LineReading.next, h, resolveComment, hc, if_true]

theorem next_word (h : readWord index = ⟨c :: tail, k, next⟩) (hcomment : c ≠ codeCommentCh)
    (hquote : c ≠ '\'') : LineReading.next escape ⟨some index, false, col⟩ =
      .read ⟨resolveType (c :: tail), wordText c tail, col + k - (wordText c tail).length⟩ k
        ⟨next, false, col + k⟩ := by
  have hstr : resolveType (c :: tail) ≠ .STR := fun heq => hquote (resolveType_eq_str.mp heq)
  simp [LineReading.next, h, resolveComment, hcomment, hstr, wordText]

theorem next_literal {rest : List Char} (h : readWord index = ⟨['\''], k, some rest⟩) :
    LineReading.next escape ⟨some index, false, col⟩ =
      ((readString rest escape).map fun read =>
        Next.read ⟨.STR, read.1, col + k - read.1.length⟩ k ⟨some read.2, false, col + k⟩).getD
          .overrun := by
  have hstr : resolveType ['\''] = .STR := rfl
  have hcomment : resolveComment ['\''] false = false := rfl
  simp only [LineReading.next, h, hstr, hcomment, Option.bind_some]
  cases readString rest escape <;> rfl

end Next

theorem wordsFrom_overrun {n : Nat} (hn : n ≠ 0) :
    wordsFrom escape n ⟨none, comment, col⟩ = ([], .overrun) := by
  cases n with
  | zero => exact absurd rfl hn
  | succ n => rfl

theorem resolveType_nul : resolveType ['\x00'] = .WORD := by decide

theorem Spells.quote {c : Char} {tail rest : List Char} (h : Spells c tail rest)
    (hc : c = '\'' ∨ c = codeCommentCh) : tail = [] := by
  cases h with
  | single => rfl
  | other => rfl
  | double _ hcomplex => rcases hc with rfl | rfl <;> cases hcomplex
  | number hnumeric => rcases hc with rfl | rfl <;> cases hnumeric
  | letters hletter => rcases hc with rfl | rfl <;> cases hletter

/-- With as many rounds as characters and two more the loop comes to its end. -/
theorem scans_wordsFrom {n : Nat} (hn : index.length + 2 ≤ n) :
    Scans escape comment col index (wordsFrom escape n ⟨some index, comment, col⟩) := by
  induction n generalizing comment col index with
  | zero => omega
  | succ n ih =>
    have hreads := reads_readWord index
    rw [wordsFrom]
    generalize hw : readWord index = w at hreads
    cases hreads with
    | nul =>
      have hscans : Scans escape comment col [] ([⟨.ENDLINE, "", col + ((0 : Nat) : Int)⟩], .done true) := by
        rw [Int.natCast_zero, Int.add_zero]
        exact .nul
      rw [next_endline hw]
      exact hscans
    | blanks hne hblanks =>
      have hover : ∀ comment col, wordsFrom escape n ⟨none, comment, col⟩ = ([], .overrun) :=
        fun _ _ => wordsFrom_overrun (by omega)
      have hscans : Scans escape comment col index
          (if comment then [] else [⟨.WORD, "", col + index.length + 1⟩], .overrun) :=
        .blanks hne hblanks
      cases comment with
      | true =>
        rw [next_skip hw rfl]
        dsimp only
        rw [hover]
        exact hscans
      | false =>
        rw [next_word hw (by decide) (by decide)]
        dsimp only
        rw [if_neg (by omega), hover]
        have htext : wordText '\x00' [] = "" := rfl
        have hcol : col + ((index.length + 1 : Nat) : Int) - ("".length : Int) =
            col + index.length + 1 := by
          simp only [String.length_empty]
          omega
        rw [resolveType_nul, htext, hcol]
        exact hscans
    | @newline blanks rest hblanks =>
      rw [next_endline hw]
      dsimp only
      by_cases hne : blanks = []
      · subst hne
        have hscans : Scans escape comment col ('\n' :: rest)
            ([⟨.ENDLINE, "", col + ((0 : Nat) : Int)⟩], .done true) := by
          rw [Int.natCast_zero, Int.add_zero]
          exact .newline
        exact hscans
      · have hlen : blanks.length ≠ 0 := fun heq => hne (List.length_eq_zero_iff.mp heq)
        have hread : readWord ('\n' :: rest) = ⟨[], 0, some ('\n' :: rest)⟩ := by rfl
        have hlast : ∀ col, wordsFrom escape n ⟨some ('\n' :: rest), false, col⟩ =
            ([⟨.ENDLINE, "", col⟩], .done true) := by
          intro col
          cases n with
          | zero => simp at hn
          | succ n =>
            rw [wordsFrom, next_endline hread, Int.natCast_zero, Int.add_zero]
            rfl
        rw [if_neg hlen, hlast]
        exact .blankLine hne hblanks
    | @word blanks tail rest c hblanks hspells =>
      have hrest : rest.length + 2 ≤ n := by
        simp only [List.length_append, List.length_cons] at hn
        omega
      by_cases hskip : (comment || c == codeCommentCh) = true
      · rw [next_skip hw hskip]
        exact .skip hblanks hspells hskip (ih hrest)
      · obtain ⟨hcomment, hc⟩ := Bool.or_eq_false_iff.mp (Bool.eq_false_iff.mpr hskip)
        subst hcomment
        have hc : c ≠ codeCommentCh := by simpa using hc
        by_cases hquote : c = '\''
        · subst hquote
          obtain rfl := hspells.quote (.inl rfl)
          rw [next_literal hw, List.nil_append]
          cases hstr : readString rest escape with
          | none => exact .openLiteral hblanks hstr
          | some read =>
            obtain ⟨str, index⟩ := read
            have hlen := length_readString hstr
            dsimp only [Option.map_some, Option.getD_some]
            rw [if_neg (by omega)]
            exact .literal hblanks hstr (ih (by omega))
        · rw [next_word hw hc hquote]
          dsimp only
          rw [if_neg (by omega)]
          exact .word hblanks hspells hc hquote (ih hrest)

end

end JeffVm
