import JeffVm.Instruction

/-!
# String literals

The lexer reads a literal behind its opening quote up to the next quote, and with escape
processing a backslash takes the character behind it along.
-/

set_option autoImplicit false

namespace JeffVm

def charUnesc (u : Char) : Char :=
  match u with
  | 'a' => '\x07'
  | 'b' => '\x08'
  | 'f' => '\x0c'
  | 'n' => '\n'
  | 'r' => '\r'
  | 't' => '\t'
  | 'v' => '\x0b'
  | u => u

/-- A backslash comes from a backslash only. -/
theorem charUnesc_eq_backslash {u : Char} : charUnesc u = '\\' ↔ u = '\\' := by
  constructor
  · intro h
    unfold charUnesc at h
    split at h
    all_goals first | exact h | cases h
  · rintro rfl
    rfl

/-- The characters the loop of `_read_string` stores, the closing quote last, and the rest of the
line; `unesc` says that a backslash was just taken. `none` is a read behind the end of the line. -/
def readStringLoop (escapeCharacters : Bool) :
    (unesc : Bool) → List Char → Option (List Char × List Char)
  | _, [] => none
  | true, u :: line =>
    (readStringLoop escapeCharacters false line).map fun word => (charUnesc u :: word.1, word.2)
  | false, c :: line =>
    if c = '\'' then some ([c], line)
    else if c = '\\' ∧ escapeCharacters then readStringLoop escapeCharacters true line
    else (readStringLoop escapeCharacters false line).map fun word => (c :: word.1, word.2)

/-- The text of the token whose opening quote stands before `index`, and the rest of the line. -/
def readString (index : List Char) (escapeCharacters : Bool) : Option (String × List Char) :=
  (readStringLoop escapeCharacters false index).map fun word =>
    (String.ofList ('\'' :: word.1), word.2)

section Escaped

variable {c u : Char} {line : List Char}

theorem readStringLoop_quote :
    readStringLoop true false ('\'' :: line) = some (['\''], line) := rfl

theorem readStringLoop_backslash : readStringLoop true false ('\\' :: u :: line) =
    (readStringLoop true false line).map fun word => (charUnesc u :: word.1, word.2) := rfl

theorem readStringLoop_plain (hquote : c ≠ '\'') (hbackslash : c ≠ '\\') :
    readStringLoop true false (c :: line) =
      (readStringLoop true false line).map fun word => (c :: word.1, word.2) := by
  rw [readStringLoop, if_neg hquote, if_neg (fun h => hbackslash h.1)]

end Escaped

end JeffVm
