import JeffVm.Entity
import JeffVm.LexLine
import Mathlib.Data.List.DropRight
import Mathlib.Data.List.Infix

/-!
# Searching, trimming and comparing strings

The native methods of `String`. `find_str` and the shrinking of a string are not part of the
repository: they are parameters. Sizes fit in an `int`.
-/

set_option autoImplicit false

namespace JeffVm

/-- A value with what the native methods see of it. Containers have an address. -/
inductive Value where
  | none
  | prim (pri : Primitive)
  | string (table : List Char)
  | array (address : Int) (table : List Value)
  | tuple (address : Int) (table : List Value)
  | object (address : Int)

namespace Value

def int (n : Int) : Value := .prim (.int n)

def ofBool (b : Bool) : Value := if b then int 1 else .none

/-- `pint` of the primitive of an entity. The primitive of `NONE_ENTITY` is a `CHAR`. -/
def pint : Value → Option Int
  | .prim (.int n) => some n
  | _ => Option.none

@[simp] theorem pint_int (n : Int) : (int n).pint = some n := rfl

end Value

/-! ## Searching -/

/-- The position of the second string in the first. -/
abbrev FindStr := List Char → List Char → Option Nat

/-- `find_str` returns the first occurrence, or NULL. -/
structure FindsFirst (findStr : FindStr) : Prop where
  found : ∀ str substr k, findStr str substr = some k →
    substr <+: str.drop k ∧ ∀ j < k, ¬ substr <+: str.drop j
  missing : ∀ str substr, findStr str substr = none → ∀ j, ¬ substr <+: str.drop j

/-- The checks of `_string_find` and `_string_find_all`. -/
def searchArgs (str : List Char) (args : Value) : Except String (List Char × Nat) :=
  match args with
  | .tuple _ [stringArg, index] =>
    match stringArg with
    | .string substr =>
      match index with
      | .prim (.int index) =>
        if index < 0 then
          .error s!"Index out of bounds. Was {index}, array length is {str.length}."
        else .ok (substr, index.toNat)
      | _ => .error "Expected a starting index."
    | _ => .error "Only a String can be in a String."
  | .tuple _ _ => .error "Expected 2 arguments."
  | _ => .error "Expected more than one arg."

def stringFind (findStr : FindStr) (str : List Char) (args : Value) : Except String Value :=
  (searchArgs str args).map fun (substr, index) =>
    if index + substr.length > str.length then .none
    else
      match findStr (str.drop index) substr with
      | none => .none
      | some k => .int k

/-- The loop of `_string_find_all` with `i_index` and `chars_remaining`. `none` is a search behind
the end of the string, or a loop that needs more rounds. -/
def findAllLoop (findStr : FindStr) (str substr : List Char) : Nat → Nat → Nat → Option (List Nat)
  | 0, _, _ => none
  | n + 1, start, remaining =>
    if remaining < substr.length then some []
    else if str.length < start + remaining then none
    else
      match findStr ((str.drop start).take remaining) substr with
      | none => some []
      | some k =>
        let index := start + k
        (findAllLoop findStr str substr n (index + 1) (str.length - index - 1)).map (index :: ·)

def stringFindAll (findStr : FindStr) (str : List Char) (args : Value) :
    Except String (Option (List Value)) :=
  (searchArgs str args).map fun (substr, index) =>
    if index + substr.length > str.length then some []
    else
      (findAllLoop findStr str substr (str.length + 1) index (str.length - index)).map fun found =>
        found.map fun q : Nat => .int q

section Searching

variable {findStr : FindStr} {str substr : List Char}

theorem add_length_le_of_prefix {q : Nat} (hsubstr : substr ≠ []) (h : substr <+: str.drop q) :
    q + substr.length ≤ str.length := by
  have hle := h.length_le
  rw [List.length_drop] at hle
  have hpos := List.length_pos_iff.mpr hsubstr
  omega

theorem findAllLoop_spec (str : List Char) (hfind : FindsFirst findStr) (hsubstr : substr ≠ []) :
    ∀ (n start remaining : Nat), start + remaining = str.length → remaining < n →
    ∃ found, findAllLoop findStr str substr n start remaining = some found ∧
      found.Pairwise (· < ·) ∧ ∀ q, q ∈ found ↔ start ≤ q ∧ substr <+: str.drop q := by
  intro n
  induction n with
  | zero =>
    intro start remaining _ hn
    omega
  | succ n ih =>
    intro start remaining hstep hn
    rw [findAllLoop]
    by_cases hshort : remaining < substr.length
    · rw [if_pos hshort]
      refine ⟨[], rfl, List.Pairwise.nil, ?_⟩
      intro q
      constructor
      · intro hq
        cases hq
      · intro hq
        have hle := add_length_le_of_prefix hsubstr hq.2
        omega
    · have hall : (str.drop start).take remaining = str.drop start := by
        apply List.take_of_length_le
        rw [List.length_drop]
        omega
      rw [if_neg hshort, if_neg (by omega), hall]
      cases hfound : findStr (str.drop start) substr with
      | none =>
        refine ⟨[], rfl, List.Pairwise.nil, ?_⟩
        intro q
        constructor
        · intro hq
          cases hq
        · intro hq
          have hmissing := hfind.missing _ _ hfound (q - start)
          rw [List.drop_drop, Nat.add_sub_cancel' hq.1] at hmissing
          exact absurd hq.2 hmissing
      | some k =>
        obtain ⟨hhere, hbefore⟩ := hfind.found _ _ _ hfound
        rw [List.drop_drop] at hhere
        have hle := add_length_le_of_prefix hsubstr hhere
        have hpos := List.length_pos_iff.mpr hsubstr
        obtain ⟨found, hloop, hsorted, hmem⟩ :=
          ih (start + k + 1) (str.length - (start + k) - 1) (by omega) (by omega)
        refine ⟨(start + k) :: found, ?_, ?_, ?_⟩
        · simp only [hloop, Option.map_some]
        · apply List.Pairwise.cons _ hsorted
          intro q hq
          have hlt := ((hmem q).mp hq).1
          omega
        · intro q
          rw [List.mem_cons, hmem]
          constructor
          · intro hq
            cases hq with
            | inl heq =>
              subst heq
              exact ⟨Nat.le_add_right _ _, hhere⟩
            | inr hq => exact ⟨by omega, hq.2⟩
          · intro hq
            by_cases heq : q = start + k
            · exact .inl heq
            · refine .inr ⟨?_, hq.2⟩
              -- The first occurrence from `start` on is at `start + k`.
              by_contra hlt
              have hfirst := hbefore (q - start) (by omega)
              rw [List.drop_drop, Nat.add_sub_cancel' hq.1] at hfirst
              exact hfirst hq.2

theorem searchArgs_string (str substr : List Char) (index : Nat) (address : Int) :
    searchArgs str (.tuple address [.string substr, .int index]) = .ok (substr, index) := by
  have hindex : ¬ (index : Int) < 0 := by omega
  simp only [searchArgs, Value.int, if_neg hindex, Int.toNat_natCast]

/-- What `find` gives: the first occurrence from the index on. -/
theorem stringFind_spec (str : List Char) (hfind : FindsFirst findStr) (hsubstr : substr ≠ [])
    (index : Nat) (address : Int) :
    (stringFind findStr str (.tuple address [.string substr, .int index]) = .ok .none ∧
      ∀ q, index ≤ q → ¬ substr <+: str.drop q) ∨
    ∃ k : Nat, stringFind findStr str (.tuple address [.string substr, .int index]) =
        .ok (.int k) ∧ substr <+: str.drop (index + k) ∧
      ∀ q, index ≤ q → q < index + k → ¬ substr <+: str.drop q := by
  rw [stringFind, searchArgs_string]
  by_cases hlong : index + substr.length > str.length
  · left
    refine ⟨by simp only [Except.map, if_pos hlong], ?_⟩
    intro q hq hoccurs
    have hle := add_length_le_of_prefix hsubstr hoccurs
    omega
  · cases hfound : findStr (str.drop index) substr with
    | none =>
      left
      refine ⟨by simp only [Except.map, if_neg hlong, hfound], ?_⟩
      intro q hq hoccurs
      have hmissing := hfind.missing _ _ hfound (q - index)
      rw [List.drop_drop, Nat.add_sub_cancel' hq] at hmissing
      exact hmissing hoccurs
    | some k =>
      right
      obtain ⟨hhere, hbefore⟩ := hfind.found _ _ _ hfound
      rw [List.drop_drop] at hhere
      refine ⟨k, by simp only [Except.map, if_neg hlong, hfound], hhere, ?_⟩
      intro q hq hlt hoccurs
      have hfirst := hbefore (q - index) (by omega)
      rw [List.drop_drop, Nat.add_sub_cancel' hq] at hfirst
      exact hfirst hoccurs

/-- What `find_all` gives: all occurrences from the index on. -/
theorem stringFindAll_spec (str : List Char) (hfind : FindsFirst findStr)
    (hsubstr : substr ≠ []) (index : Nat) (address : Int) : ∃ found : List Nat,
      stringFindAll findStr str (.tuple address [.string substr, .int index]) =
        .ok (some (found.map fun q : Nat => .int q)) ∧
      found.Pairwise (· < ·) ∧ ∀ q, q ∈ found ↔ index ≤ q ∧ substr <+: str.drop q := by
  rw [stringFindAll, searchArgs_string]
  by_cases hlong : index + substr.length > str.length
  · refine ⟨[], by simp only [Except.map, if_pos hlong, List.map_nil], List.Pairwise.nil, ?_⟩
    intro q
    constructor
    · intro hq
      cases hq
    · intro hq
      have hle := add_length_le_of_prefix hsubstr hq.2
      omega
  · obtain ⟨found, hloop, hsorted, hmem⟩ := findAllLoop_spec str hfind hsubstr (str.length + 1)
      index (str.length - index) (by omega) (by omega)
    exact ⟨found, by simp only [Except.map, if_neg hlong, hloop, Option.map_some], hsorted, hmem⟩

def firstOccurrence : FindStr := fun str substr =>
  (List.range (str.length + 1)).find? fun k => substr.isPrefixOf (str.drop k)

theorem findsFirst_firstOccurrence : FindsFirst firstOccurrence := by
  constructor
  · intro str substr k hk
    obtain ⟨hstarts, -, hbefore⟩ := List.find?_range_eq_some.mp hk
    refine ⟨List.isPrefixOf_iff_prefix.mp hstarts, ?_⟩
    intro j hj hoccurs
    have hnot := hbefore j hj
    rw [List.isPrefixOf_iff_prefix.mpr hoccurs] at hnot
    cases hnot
  · intro str substr hnone j hoccurs
    rw [firstOccurrence, List.find?_range_eq_none] at hnone
    by_cases hj : j < str.length + 1
    · have hnot := hnone j hj
      rw [List.isPrefixOf_iff_prefix.mpr hoccurs] at hnot
      cases hnot
    · have hend : str.drop j = str.drop str.length := by
        rw [List.drop_length, List.drop_of_length_le (by omega)]
      have hnot := hnone str.length (Nat.lt_succ_self _)
      rw [hend] at hoccurs
      rw [List.isPrefixOf_iff_prefix.mpr hoccurs] at hnot
      cases hnot

end Searching

/-! ## Trimming -/

/-- The character at an index of the table; `none` is a read outside of the string. -/
def readChar (str : List Char) (index : Int) : Option Char :=
  if index < 0 then none else str[index.toNat]?

/-- The scan of the trimming loops: the count of blanks, where round `i` looks at `index i`. -/
def scanSpaces (str : List Char) (index : Nat → Int) : Nat → Nat → Option Nat
  | 0, _ => none
  | n + 1, i =>
    match readChar str (index i) with
    | none => none
    | some c => if isAnySpace c then scanSpaces str index n (i + 1) else some i

def leadingSpaces (str : List Char) : Option Nat :=
  scanSpaces str (fun i => i) (str.length + 1) 0

def trailingSpaces (str : List Char) : Option Nat :=
  scanSpaces str (fun i => (str.length : Int) - 1 - i) (str.length + 1) 0

/-- `String_lshrink` and `String_rshrink`, which take characters away. -/
structure Shrinks (lshrink rshrink : List Char → Nat → List Char) : Prop where
  left : ∀ str n, n ≤ str.length → lshrink str n = str.drop n
  right : ∀ str n, n ≤ str.length → rshrink str n = str.take (str.length - n)

section Trimming

variable (lshrink rshrink : List Char → Nat → List Char)

def stringLtrim (str : List Char) : Option (List Char) := (leadingSpaces str).map (lshrink str)

def stringRtrim (str : List Char) : Option (List Char) := (trailingSpaces str).map (rshrink str)

def stringTrim (str : List Char) : Option (List Char) :=
  (leadingSpaces str).bind fun i =>
    (trailingSpaces (lshrink str i)).map (rshrink (lshrink str i))

/-- The loops stay inside the string, and take away its blanks on one side or on both. -/
structure TrimsInside (str : List Char) : Prop where
  leading : ∃ i ≤ str.length, leadingSpaces str = some i
  trailing : ∃ i ≤ str.length, trailingSpaces str = some i
  ltrim : stringLtrim lshrink str = some (str.dropWhile isAnySpace)
  rtrim : stringRtrim rshrink str = some (str.rdropWhile isAnySpace)
  trim : stringTrim lshrink rshrink str =
    some ((str.dropWhile isAnySpace).rdropWhile isAnySpace)
  both : stringTrim lshrink rshrink str =
    (stringLtrim lshrink str).bind (stringRtrim rshrink)
  idempotent : (stringTrim lshrink rshrink str).bind (stringTrim lshrink rshrink) =
    stringTrim lshrink rshrink str

variable {lshrink rshrink} {str : List Char}

/-- A scan that reads the characters of a list in order stops at the first that is no blank. -/
theorem scanSpaces_eq {index : Nat → Int} {seen : List Char}
    (hread : ∀ i, readChar str (index i) = seen[i]?) : ∀ (n i : Nat), seen.length < i + n →
    scanSpaces str index n i = if (seen.drop i).all isAnySpace then none
      else some (i + ((seen.drop i).takeWhile isAnySpace).length) := by
  intro n
  induction n with
  | zero =>
    intro i hn
    rw [List.drop_of_length_le (by omega)]
    rfl
  | succ n ih =>
    intro i hn
    rw [scanSpaces, hread]
    by_cases hi : i < seen.length
    · rw [List.getElem?_eq_getElem hi, List.drop_eq_getElem_cons hi]
      cases hspace : isAnySpace seen[i] with
      | true =>
        rw [ih (i + 1) (by omega)]
        simp only [if_true, List.all_cons, hspace, Bool.true_and, List.takeWhile_cons,
          List.length_cons, Nat.add_assoc, Nat.add_comm 1]
      | false => simp only [Bool.false_eq_true, if_false, List.all_cons, hspace, Bool.false_and,
          List.takeWhile_cons, List.length_nil, Nat.add_zero]
    · rw [List.getElem?_eq_none (by omega), List.drop_of_length_le (by omega)]
      rfl

theorem readChar_natCast (str : List Char) (i : Nat) : readChar str i = str[i]? := by
  have hi : ¬ (i : Int) < 0 := by omega
  rw [readChar, if_neg hi, Int.toNat_natCast]

theorem readChar_reverse (str : List Char) (i : Nat) :
    readChar str ((str.length : Int) - 1 - i) = str.reverse[i]? := by
  by_cases hi : i < str.length
  · have hindex : ¬ (str.length : Int) - 1 - i < 0 := by omega
    have hnat : ((str.length : Int) - 1 - i).toNat = str.length - 1 - i := by omega
    rw [readChar, if_neg hindex, hnat, List.getElem?_reverse hi]
  · have hindex : (str.length : Int) - 1 - i < 0 := by omega
    rw [readChar, if_pos hindex, List.getElem?_eq_none]
    rw [List.length_reverse]
    omega

theorem leadingSpaces_eq (str : List Char) : leadingSpaces str =
    if str.all isAnySpace then none else some (str.takeWhile isAnySpace).length := by
  rw [leadingSpaces, scanSpaces_eq (readChar_natCast str) _ _ (by omega)]
  simp only [List.drop_zero, Nat.zero_add]

theorem trailingSpaces_eq (str : List Char) : trailingSpaces str =
    if str.all isAnySpace then none else some (str.reverse.takeWhile isAnySpace).length := by
  rw [trailingSpaces, scanSpaces_eq (readChar_reverse str) _ _ (by rw [List.length_reverse]; omega)]
  simp only [List.drop_zero, Nat.zero_add, List.all_reverse]

theorem length_takeWhile_le (str : List Char) :
    (str.takeWhile isAnySpace).length ≤ str.length :=
  (List.takeWhile_prefix isAnySpace).length_le

theorem drop_length_takeWhile (str : List Char) :
    str.drop (str.takeWhile isAnySpace).length = str.dropWhile isAnySpace := by
  have hdrop : ((str.takeWhile isAnySpace) ++ (str.dropWhile isAnySpace)).drop
      (str.takeWhile isAnySpace).length = str.dropWhile isAnySpace := List.drop_left
  rw [List.takeWhile_append_dropWhile] at hdrop
  exact hdrop

theorem stringLtrim_eq (hshrinks : Shrinks lshrink rshrink) (hblank : str.all isAnySpace = false) :
    stringLtrim lshrink str = some (str.dropWhile isAnySpace) := by
  rw [stringLtrim, leadingSpaces_eq, hblank, if_neg Bool.false_ne_true, Option.map_some,
    hshrinks.left _ _ (length_takeWhile_le str), drop_length_takeWhile]

theorem stringRtrim_eq (hshrinks : Shrinks lshrink rshrink) (hblank : str.all isAnySpace = false) :
    stringRtrim rshrink str = some (str.rdropWhile isAnySpace) := by
  have hle := length_takeWhile_le str.reverse
  rw [List.length_reverse] at hle
  rw [stringRtrim, trailingSpaces_eq, hblank, if_neg Bool.false_ne_true, Option.map_some,
    hshrinks.right _ _ hle]
  change some (str.rdrop _) = _
  rw [List.rdrop_eq_reverse_drop_reverse, drop_length_takeWhile]
  rfl

theorem stringTrim_eq (hblank : str.all isAnySpace = false) :
    stringTrim lshrink rshrink str = (stringLtrim lshrink str).bind (stringRtrim rshrink) := by
  rw [stringTrim, stringLtrim, leadingSpaces_eq, hblank, if_neg Bool.false_ne_true]
  rfl

theorem all_dropWhile : (str.dropWhile isAnySpace).all isAnySpace = str.all isAnySpace := by
  have hall : (str.takeWhile isAnySpace).all isAnySpace = true := by
    rw [List.all_eq_true]
    intro c hc
    exact List.mem_takeWhile_imp hc
  have hsplit : (str.takeWhile isAnySpace ++ str.dropWhile isAnySpace).all isAnySpace =
      (str.dropWhile isAnySpace).all isAnySpace := by
    rw [List.all_append, hall, Bool.true_and]
  rw [List.takeWhile_append_dropWhile] at hsplit
  exact hsplit.symm

theorem all_rdropWhile : (str.rdropWhile isAnySpace).all isAnySpace = str.all isAnySpace := by
  rw [List.rdropWhile, List.all_reverse, all_dropWhile, List.all_reverse]

theorem dropWhile_trimmed (hblank : str.all isAnySpace = false) :
    ((str.dropWhile isAnySpace).rdropWhile isAnySpace).dropWhile isAnySpace =
      (str.dropWhile isAnySpace).rdropWhile isAnySpace := by
  have hright : ((str.dropWhile isAnySpace).rdropWhile isAnySpace).all isAnySpace = false := by
    rw [all_rdropWhile, all_dropWhile, hblank]
  have hstarts := List.rdropWhile_prefix isAnySpace (str.dropWhile isAnySpace)
  cases hv : (str.dropWhile isAnySpace).rdropWhile isAnySpace with
  | nil =>
    rw [hv] at hright
    cases hright
  | cons c rest =>
    rw [hv] at hstarts
    obtain ⟨tail, htail⟩ := hstarts
    -- The first character that is left is the first of `str` that is no blank.
    have hhead := List.dropWhile_get_zero_not isAnySpace str (by simp [← htail])
    have hc : ¬ isAnySpace c = true := by simpa [← htail] using hhead
    exact List.dropWhile_cons_of_neg hc

theorem trimsInside (hshrinks : Shrinks lshrink rshrink) (hblank : str.all isAnySpace = false) :
    TrimsInside lshrink rshrink str := by
  have hleft := stringLtrim_eq hshrinks hblank
  have hdrop : (str.dropWhile isAnySpace).all isAnySpace = false := by rw [all_dropWhile, hblank]
  have hright : ((str.dropWhile isAnySpace).rdropWhile isAnySpace).all isAnySpace = false := by
    rw [all_rdropWhile, hdrop]
  have htrim : stringTrim lshrink rshrink str =
      some ((str.dropWhile isAnySpace).rdropWhile isAnySpace) := by
    rw [stringTrim_eq hblank, hleft, Option.bind_some, stringRtrim_eq hshrinks hdrop]
  have hreverse := length_takeWhile_le str.reverse
  rw [List.length_reverse] at hreverse
  constructor
  · refine ⟨_, length_takeWhile_le str, ?_⟩
    rw [leadingSpaces_eq, hblank, if_neg Bool.false_ne_true]
  · refine ⟨_, hreverse, ?_⟩
    rw [trailingSpaces_eq, hblank, if_neg Bool.false_ne_true]
  · exact hleft
  · exact stringRtrim_eq hshrinks hblank
  · exact htrim
  · exact stringTrim_eq hblank
  · rw [htrim, Option.bind_some, stringTrim_eq hright, stringLtrim_eq hshrinks hright,
      Option.bind_some, dropWhile_trimmed hblank, stringRtrim_eq hshrinks hright,
      List.rdropWhile_idempotent]

/-- Trimming stays inside the strings with a character that is no blank. -/
theorem trimsInside_iff (lshrink rshrink : List Char → Nat → List Char)
    (hshrinks : Shrinks lshrink rshrink) (str : List Char) :
    TrimsInside lshrink rshrink str ↔ ∃ c ∈ str, isAnySpace c = false := by
  have hall : (∃ c ∈ str, isAnySpace c = false) ↔ str.all isAnySpace = false := by
    simp only [List.all_eq_false, Bool.not_eq_true]
  rw [hall]
  constructor
  · intro h
    obtain ⟨i, -, hleading⟩ := h.leading
    rw [leadingSpaces_eq] at hleading
    cases hblank : str.all isAnySpace with
    | true =>
      rw [hblank] at hleading
      cases hleading
    | false => rfl
  · exact trimsInside hshrinks

theorem shrinks_drop : Shrinks (fun str n => str.drop n) fun str n => str.take (str.length - n) :=
  ⟨fun _ _ _ => rfl, fun _ _ _ => rfl⟩

/-- `' a '` -/
theorem trimsInside_word : TrimsInside (fun str n => str.drop n)
    (fun str n => str.take (str.length - n)) [' ', 'a', ' '] :=
  (trimsInside_iff _ _ shrinks_drop _).mpr ⟨'a', by decide, by decide⟩

/-- The scan of a string of blanks reads behind its end. -/
theorem not_trimsInside : ¬ ∀ (lshrink rshrink : List Char → Nat → List Char),
    Shrinks lshrink rshrink → ∀ str, TrimsInside lshrink rshrink str := by
  intro h
  obtain ⟨i, -, hleading⟩ := (h _ _ shrinks_drop [' ']).leading
  cases hleading

end Trimming

/-! ## Comparing -/

/-- What `strncmp` gives for two characters that differ: its sign is their order. -/
def OrdersChars (diff : Char → Char → Int) : Prop :=
  ∀ c d : Char, (diff c d).sign = ((c.toNat : Int) - d.toNat).sign

section Comparing

variable (diff : Char → Char → Int)

/-- `strncmp` on as many characters as both strings have. A NUL ends the comparison. -/
def strncmpMin : List Char → List Char → Int
  | c :: self, d :: other =>
    if c ≠ d then diff c d
    else if c = '\x00' then 0
    else strncmpMin self other
  | _, _ => 0

/-- The number that `_string_cmp` gives for two strings. -/
def stringOrder (self other : List Char) : Int :=
  let minLenCmp := strncmpMin diff self other
  if minLenCmp ≠ 0 then minLenCmp else (self.length : Int) - other.length

def stringCmp (self : List Char) (args : Value) : Value :=
  match args with
  | .string other => .int (stringOrder diff self other)
  | _ => .none

/-- `_string_eq`; `none` is a failed `ASSERT`. -/
def stringEq (self : List Char) (args : Value) : Option Value :=
  (stringCmp diff self args).pint.map fun n => .ofBool (n == 0)

def stringNeq (self : List Char) (args : Value) : Option Value :=
  (stringCmp diff self args).pint.map fun n => .ofBool (n != 0)

/-- The comparison of a string with a value that is equal to it when it is the same string. -/
structure EqualityTotal (str : List Char) (e : Value) : Prop where
  cmp : ∀ other, e = .string other → (stringCmp diff str e = .int 0 ↔ str = other)
  eq : ∃ b, stringEq diff str e = some (.ofBool b) ∧ (b = true ↔ e = .string str)
  neq : ∃ b, stringNeq diff str e = some (.ofBool b) ∧ (b = true ↔ e ≠ .string str)

/-- Two strings of the same length that differ behind a NUL only. -/
def DifferBehindNul (self other : List Char) : Prop :=
  ∃ common rest rest', rest ≠ rest' ∧ rest.length = rest'.length ∧
    self = common ++ '\x00' :: rest ∧ other = common ++ '\x00' :: rest'

variable {diff} {c d : Char} {self other third : List Char}

theorem char_ext_toNat (h : c.toNat = d.toNat) : c = d := by
  have heq := congrArg Char.ofNat h
  rwa [Char.ofNat_toNat, Char.ofNat_toNat] at heq

theorem OrdersChars.lt (hdiff : OrdersChars diff) (hne : c ≠ d) :
    diff c d < 0 ∧ c.toNat < d.toNat ∨ 0 < diff c d ∧ d.toNat < c.toNat := by
  have hsign := hdiff c d
  have hcode : c.toNat ≠ d.toNat := fun heq => hne (char_ext_toNat heq)
  rcases Nat.lt_or_gt_of_ne hcode with hlt | hlt
  · left
    have hneg : ((c.toNat : Int) - d.toNat).sign = -1 := Int.sign_eq_neg_one_of_neg (by omega)
    rw [hneg, Int.sign_eq_neg_one_iff_neg] at hsign
    exact ⟨hsign, hlt⟩
  · right
    have hpos : ((c.toNat : Int) - d.toNat).sign = 1 := Int.sign_eq_one_of_pos (by omega)
    rw [hpos, Int.sign_eq_one_iff_pos] at hsign
    exact ⟨hsign, hlt⟩

theorem stringOrder_nil_left : stringOrder diff [] other = -(other.length : Int) := by
  simp [stringOrder, strncmpMin]

theorem stringOrder_nil_right : stringOrder diff self [] = self.length := by
  cases self <;> simp [stringOrder, strncmpMin]

theorem stringOrder_ne (hdiff : OrdersChars diff) (hne : c ≠ d) :
    stringOrder diff (c :: self) (d :: other) = diff c d := by
  have hnonzero : diff c d ≠ 0 := by
    have hlt := hdiff.lt hne
    omega
  simp [stringOrder, strncmpMin, hne, hnonzero]

theorem stringOrder_nul :
    stringOrder diff ('\x00' :: self) ('\x00' :: other) = (self.length : Int) - other.length := by
  simp [stringOrder, strncmpMin]

theorem stringOrder_cons (hc : c ≠ '\x00') :
    stringOrder diff (c :: self) (c :: other) = stringOrder diff self other := by
  have hmin : strncmpMin diff (c :: self) (c :: other) = strncmpMin diff self other := by
    rw [strncmpMin, if_neg (not_not.mpr rfl), if_neg hc]
  have hlength : ((c :: self).length : Int) - (c :: other).length =
      (self.length : Int) - other.length := by
    simp only [List.length_cons]
    omega
  simp only [stringOrder, hmin, hlength]

theorem stringOrder_sign_swap (hdiff : OrdersChars diff) :
    ∀ self other : List Char, (stringOrder diff other self).sign = -(stringOrder diff self other).sign
  | [], other => by
    rw [stringOrder_nil_left, stringOrder_nil_right, Int.sign_neg, Int.neg_neg]
  | c :: self, [] => by
    rw [stringOrder_nil_left, stringOrder_nil_right, Int.sign_neg]
  | c :: self, d :: other => by
    by_cases hne : c = d
    · subst hne
      by_cases hc : c = '\x00'
      · subst hc
        rw [stringOrder_nul, stringOrder_nul, ← Int.sign_neg, Int.neg_sub]
      · rw [stringOrder_cons hc, stringOrder_cons hc]
        exact stringOrder_sign_swap hdiff self other
    · rw [stringOrder_ne hdiff hne, stringOrder_ne hdiff (Ne.symm hne), hdiff, hdiff,
        ← Int.sign_neg, Int.neg_sub]

theorem stringOrder_trans (hdiff : OrdersChars diff) : ∀ self other third : List Char,
    stringOrder diff self other ≤ 0 → stringOrder diff other third ≤ 0 →
      stringOrder diff self third ≤ 0
  | [], _, third, _, _ => by
    rw [stringOrder_nil_left]
    omega
  | c :: self, [], _, h, _ => by
    rw [stringOrder_nil_right, List.length_cons] at h
    omega
  | c :: self, d :: other, [], _, h => by
    rw [stringOrder_nil_right, List.length_cons] at h
    omega
  | c :: self, d :: other, e :: third, h, h' => by
    by_cases hcd : c = d
    · subst hcd
      by_cases hce : c = e
      · subst hce
        by_cases hc : c = '\x00'
        · subst hc
          rw [stringOrder_nul] at h h' ⊢
          omega
        · rw [stringOrder_cons hc] at h h' ⊢
          exact stringOrder_trans hdiff self other third h h'
      · rw [stringOrder_ne hdiff hce] at h' ⊢
        exact h'
    · have hlt := hdiff.lt hcd
      rw [stringOrder_ne hdiff hcd] at h
      by_cases hde : d = e
      · subst hde
        rw [stringOrder_ne hdiff hcd]
        exact h
      · have hlt' := hdiff.lt hde
        rw [stringOrder_ne hdiff hde] at h'
        have hce : c ≠ e := by
          intro heq
          subst heq
          omega
        have hlt'' := hdiff.lt hce
        rw [stringOrder_ne hdiff hce]
        omega

theorem DifferBehindNul.ne (h : DifferBehindNul self other) : self ≠ other := by
  obtain ⟨common, rest, rest', hne, -, rfl, rfl⟩ := h
  intro heq
  exact hne (List.cons.inj (List.append_cancel_left heq)).2

theorem not_differBehindNul_nil : ¬ DifferBehindNul self [] := by
  rintro ⟨common, rest, rest', -, -, -, hother⟩
  exact List.append_ne_nil_of_right_ne_nil common (List.cons_ne_nil _ _) hother.symm

theorem DifferBehindNul.swap (h : DifferBehindNul self other) : DifferBehindNul other self := by
  obtain ⟨common, rest, rest', hne, hlength, hself, hother⟩ := h
  exact ⟨common, rest', rest, hne.symm, hlength.symm, hother, hself⟩

theorem differBehindNul_nul : DifferBehindNul ('\x00' :: self) ('\x00' :: other) ↔
    self ≠ other ∧ self.length = other.length := by
  constructor
  · intro h
    refine ⟨fun heq => h.ne (congrArg _ heq), ?_⟩
    obtain ⟨common, rest, rest', -, hlength, hself, hother⟩ := h
    have hlong := congrArg List.length hself
    have hlong' := congrArg List.length hother
    simp only [List.length_cons, List.length_append] at hlong hlong'
    omega
  · rintro ⟨hne, hlength⟩
    exact ⟨[], self, other, hne, hlength, rfl, rfl⟩

theorem differBehindNul_cons (hc : c ≠ '\x00') :
    DifferBehindNul (c :: self) (d :: other) ↔ c = d ∧ DifferBehindNul self other := by
  constructor
  · rintro ⟨common, rest, rest', hne, hlength, hself, hother⟩
    cases common with
    | nil => exact absurd (List.cons.inj hself).1 hc
    | cons b common =>
      obtain ⟨hb, hself'⟩ := List.cons.inj hself
      obtain ⟨hb', hother'⟩ := List.cons.inj hother
      exact ⟨hb.trans hb'.symm, common, rest, rest', hne, hlength, hself', hother'⟩
  · rintro ⟨rfl, common, rest, rest', hne, hlength, hself, hother⟩
    exact ⟨c :: common, rest, rest', hne, hlength, congrArg (c :: ·) hself,
      congrArg (c :: ·) hother⟩

theorem stringOrder_eq_zero_iff (hdiff : OrdersChars diff) : ∀ self other : List Char,
    stringOrder diff self other = 0 ↔ self = other ∨ DifferBehindNul self other
  | [], other => by
    rw [stringOrder_nil_left, or_iff_left (fun h => not_differBehindNul_nil h.swap), eq_comm,
      zero_eq_neg, Int.natCast_eq_zero, List.length_eq_zero_iff, eq_comm]
  | c :: self, [] => by
    rw [stringOrder_nil_right, or_iff_left not_differBehindNul_nil, Int.natCast_eq_zero,
      List.length_eq_zero_iff]
  | c :: self, d :: other => by
    by_cases hcd : c = d
    · subst hcd
      by_cases hc : c = '\x00'
      · subst hc
        rw [stringOrder_nul, differBehindNul_nul, List.cons_inj_right]
        constructor
        · intro hlength
          by_cases heq : self = other
          · exact .inl heq
          · exact .inr ⟨heq, by omega⟩
        · intro h
          cases h with
          | inl heq =>
            rw [heq]
            omega
          | inr h =>
            have hlength := h.2
            omega
      · rw [stringOrder_cons hc, differBehindNul_cons hc, List.cons_inj_right,
          stringOrder_eq_zero_iff hdiff self other, and_iff_right rfl]
    · have hlt := hdiff.lt hcd
      rw [stringOrder_ne hdiff hcd]
      constructor
      · intro hzero
        omega
      · intro h
        cases h with
        | inl heq => exact absurd (List.cons.inj heq).1 hcd
        | inr h =>
          by_cases hc : c = '\x00'
          · subst hc
            obtain ⟨common, rest, rest', -, -, hself, hother⟩ := h
            cases common with
            | nil => exact absurd (List.cons.inj hother).1.symm hcd
            | cons b common =>
              exact absurd ((List.cons.inj hself).1.trans (List.cons.inj hother).1.symm) hcd
          · exact absurd ((differBehindNul_cons hc).mp h).1 hcd

theorem equalityTotal_string (hdiff : OrdersChars diff) :
    EqualityTotal diff self (.string other) ↔ ¬ DifferBehindNul self other := by
  have hzero := stringOrder_eq_zero_iff hdiff self other
  have hstring : Value.string other = .string self ↔ self = other := by
    constructor
    · intro heq
      exact (Value.string.inj heq).symm
    · intro heq
      rw [heq]
  constructor
  · intro h hbehind
    have hcmp := (h.cmp other rfl).mp (congrArg Value.int (hzero.mpr (.inr hbehind)))
    exact hbehind.ne hcmp
  · intro hnot
    rw [or_iff_left hnot] at hzero
    constructor
    · intro other' heq
      cases heq
      rw [← hzero, stringCmp, Value.int, Value.int, Value.prim.injEq, Primitive.int.injEq]
    · refine ⟨stringOrder diff self other == 0, rfl, ?_⟩
      rw [beq_iff_eq, hzero, hstring]
    · refine ⟨stringOrder diff self other != 0, rfl, ?_⟩
      rw [bne_iff_ne, ne_eq, hzero, ne_eq, hstring]

theorem ordersChars_codes : OrdersChars fun c d => (c.toNat : Int) - d.toNat := fun _ _ => rfl

end Comparing

end JeffVm
