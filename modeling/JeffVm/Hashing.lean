import JeffVm.StringMethods

/-!
# Equality and hashes of values

`==` and `!=` are answered by the VM for primitives, by native methods for strings and by the
library for containers. `hash` of a container is that of `Object`: its address.
-/

set_option autoImplicit false

namespace JeffVm

/-! ## The operators -/

namespace Value

/-- The test of `if`. -/
def isTrue : Value → Bool
  | .none => false
  | _ => true

/-- A character of a string, as `[]` gives it. -/
def ofChar (c : Char) : Value := .prim (.char (wrap8 c.toNat))

/-- What `len` and `[]` see of a value; `none` is an error. -/
def elements : Value → Option (List Value)
  | .array _ table => some table
  | .tuple _ table => some table
  | .string table => some (table.map ofChar)
  | _ => Option.none

end Value

section Operators

variable (diff : Char → Char → Int)

mutual

/-- `!=`; `none` is an error. -/
def valueNeq : Value → Value → Option Bool
  | .prim p, .prim q => some (!p.equals q)
  | .string str, other => (stringNeq diff str other).map Value.isTrue
  | .array _ table, other =>
    match other.elements with
    | none => none
    | some table' => if table.length ≠ table'.length then some true else anyDiffer table table'
  | .tuple _ table, other =>
    match other.elements with
    | none => none
    | some table' => if table.length ≠ table'.length then some true else anyDiffer table table'
  | _, _ => none

/-- The loop over `self[i] != other[i]`. -/
def anyDiffer : List Value → List Value → Option Bool
  | [], _ => some false
  | _ :: _, [] => none
  | e :: table, e' :: table' =>
    match valueNeq e e' with
    | none => none
    | some true => some true
    | some false => anyDiffer table table'

end

/-- `==`; `none` is an error. -/
def valueEq : Value → Value → Option Bool
  | .prim p, .prim q => some (p.equals q)
  | .string str, other => (stringEq diff str other).map Value.isTrue
  | .array _ table, other =>
    match other.elements with
    | none => none
    | some table' =>
      if table.length ≠ table'.length then some false
      else (anyDiffer diff table table').map fun differ => !differ
  | .tuple _ table, other =>
    match other.elements with
    | none => none
    | some table' =>
      if table.length ≠ table'.length then some false
      else (anyDiffer diff table table').map fun differ => !differ
  | _, _ => none

end Operators

/-- `hash`, where `string_hasher_len` is `hasher`. -/
def valueHash (hasher : List Char → Int) : Value → Int
  | .none => 0
  | .prim p => p.intOf
  | .string table => wrap32 (hasher table)
  | .array address _ => wrap32 address
  | .tuple address _ => wrap32 address
  | .object address => wrap32 address

/-! ## Keys -/

/-- Ints, chars, strings, and arrays and tuples of such values. -/
inductive Value.IsKey : Value → Prop where
  | int (n : Int) : IsKey (.prim (.int n))
  | char (c : Int) : IsKey (.prim (.char c))
  | string (table : List Char) : IsKey (.string table)
  | array (address : Int) {table : List Value} (h : ∀ e ∈ table, IsKey e) :
      IsKey (.array address table)
  | tuple (address : Int) {table : List Value} (h : ∀ e ∈ table, IsKey e) :
      IsKey (.tuple address table)

/-- The address of an array or a tuple. -/
def Value.address? : Value → Option Int
  | .array address _ => some address
  | .tuple address _ => some address
  | _ => Option.none

/-- Both are primitives, or the same characters, or arrays or tuples whose addresses have the same
lower half, as those of one object have. -/
inductive SameIdentity : Value → Value → Prop where
  | prim (p q : Primitive) : SameIdentity (.prim p) (.prim q)
  | string (table : List Char) : SameIdentity (.string table) (.string table)
  | container {k k' : Value} {address address' : Int} (h : k.address? = some address)
      (h' : k'.address? = some address') (hsame : wrap32 address = wrap32 address') :
      SameIdentity k k'

/-- The hashes agree, whatever the hash of a string is. -/
def HashesAgree (k k' : Value) : Prop := ∀ hasher, valueHash hasher k = valueHash hasher k'

section Keys

variable {diff : Char → Char → Int} {k k' : Value} {hasher : List Char → Int}

theorem valueHash_of_address {address : Int} (h : k.address? = some address) :
    valueHash hasher k = wrap32 address := by
  cases k with
  | array a table => cases h; rfl
  | tuple a table => cases h; rfl
  | _ => cases h

/-- Numbers that are equal have the same value as an int. -/
theorem intOf_of_equals {p q : Primitive} (hp : (Value.prim p).IsKey) (hq : (Value.prim q).IsKey)
    (h : p.equals q = true) : p.intOf = q.intOf := by
  cases hp <;> cases hq <;> exact of_decide_eq_true h

theorem eq_prim {p : Primitive} (h : valueEq diff (.prim p) k' = some true) :
    ∃ q, k' = .prim q ∧ p.equals q = true := by
  cases k' with
  | prim q =>
    rw [valueEq] at h
    exact ⟨q, rfl, Option.some.inj h⟩
  | _ => simp [valueEq] at h

/-- A string is compared with strings only. -/
theorem eq_string {table : List Char} (h : valueEq diff (.string table) k' = some true) :
    ∃ table', k' = .string table' := by
  rw [valueEq, Option.map_eq_some_iff] at h
  obtain ⟨v, hv, -⟩ := h
  cases k' with
  | string table' => exact ⟨table', rfl⟩
  | _ => cases hv

/-- The right side of a comparison with a container has elements. -/
theorem eq_container {address : Int} (haddress : k.address? = some address)
    (h : valueEq diff k k' = some true) :
    (∃ address', k'.address? = some address') ∨ ∃ table, k' = .string table := by
  have helements : k'.elements ≠ none := by
    intro hnone
    cases k with
    | array a table =>
      rw [valueEq, hnone] at h
      cases h
    | tuple a table =>
      rw [valueEq, hnone] at h
      cases h
    | _ => cases haddress
  obtain ⟨table, htable⟩ := Option.ne_none_iff_exists'.mp helements
  cases k' with
  | array a table => exact .inl ⟨a, rfl⟩
  | tuple a table => exact .inl ⟨a, rfl⟩
  | string table => exact .inr ⟨table, rfl⟩
  | _ => cases htable

theorem hashesAgree_string {table table' : List Char} :
    HashesAgree (.string table) (.string table') ↔ table = table' := by
  constructor
  · intro h
    by_contra hne
    have hhash := h fun str => if str = table then 1 else 0
    simp only [valueHash, if_true, if_neg (Ne.symm hne)] at hhash
    exact absurd hhash (by decide)
  · rintro rfl hasher
    rfl

/-- No hash of the strings is the address of a container. -/
theorem not_hashesAgree_container {address : Int} {table : List Char}
    (haddress : k.address? = some address) : ¬ HashesAgree k (.string table) := by
  intro h
  have hhash := h fun _ => if wrap32 address = 0 then 1 else 0
  rw [valueHash_of_address haddress, valueHash] at hhash
  by_cases hzero : wrap32 address = 0
  · rw [if_pos hzero, hzero] at hhash
    exact absurd hhash (by decide)
  · rw [if_neg hzero] at hhash
    exact hzero (hhash.trans (by decide))

theorem hashesAgree_container {address : Int} (haddress : k.address? = some address)
    (h : valueEq diff k k' = some true) : HashesAgree k k' ↔ SameIdentity k k' := by
  obtain ⟨address', haddress'⟩ | ⟨table, rfl⟩ := eq_container haddress h
  · constructor
    · intro hagree
      have hhash := hagree fun _ => 0
      rw [valueHash_of_address haddress, valueHash_of_address haddress'] at hhash
      exact .container haddress haddress' hhash
    · intro hsame hasher
      rw [valueHash_of_address haddress, valueHash_of_address haddress']
      cases hsame with
      | prim p q => cases haddress
      | string table => cases haddress
      | container h h' hsame =>
        cases haddress.symm.trans h
        cases haddress'.symm.trans h'
        exact hsame
  · constructor
    · intro hagree
      exact absurd hagree (not_hashesAgree_container haddress)
    · intro hsame
      cases hsame with
      | string table => cases haddress
      | container h h' _ => cases h'

end Keys

/-- Keys that are equal have the same hash when they are numbers, the same string or the same
container. -/
theorem hashesAgree_iff (diff : Char → Char → Int) (k k' : Value) (hk : k.IsKey) (hk' : k'.IsKey)
    (heq : valueEq diff k k' = some true) : HashesAgree k k' ↔ SameIdentity k k' := by
  have hprim : ∀ p : Primitive, k = .prim p → (HashesAgree k k' ↔ SameIdentity k k') := by
    rintro p rfl
    obtain ⟨q, rfl, hequals⟩ := eq_prim heq
    have hint : p.intOf = q.intOf := intOf_of_equals hk hk' hequals
    exact ⟨fun _ => .prim p q, fun _ _ => hint⟩
  cases hk with
  | int n => exact hprim _ rfl
  | char c => exact hprim _ rfl
  | string table =>
    obtain ⟨table', rfl⟩ := eq_string heq
    rw [hashesAgree_string]
    constructor
    · rintro rfl
      exact .string table
    · intro hsame
      cases hsame with
      | string => rfl
      | container h _ _ => cases h
  | array address => exact hashesAgree_container rfl heq
  | tuple address => exact hashesAgree_container rfl heq

/-- `97 == 'a'[0]` -/
theorem hashesAgree_int_char :
    HashesAgree (.int 97) (.prim (.char 97)) ↔ SameIdentity (.int 97) (.prim (.char 97)) :=
  hashesAgree_iff (fun c d => c.toNat - d.toNat) _ _ (.int 97) (.char 97) (by decide)

/-- Two arrays `[1]` are equal, and their hashes are their addresses. -/
theorem not_hashesAgree : ¬ ∀ (diff : Char → Char → Int) (k k' : Value), k.IsKey → k'.IsKey →
    valueEq diff k k' = some true → HashesAgree k k' := by
  intro h
  have hkey : ∀ e ∈ [Value.int 1], e.IsKey := by
    intro e he
    rw [List.mem_singleton.mp he]
    exact .int 1
  have hagree := h (fun c d => c.toNat - d.toNat) (.array 16 [.int 1]) (.array 32 [.int 1])
    (.array 16 hkey) (.array 32 hkey) (by decide)
  exact absurd (hagree fun _ => 0) (by decide)

end JeffVm
