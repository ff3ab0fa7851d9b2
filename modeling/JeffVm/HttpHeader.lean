import JeffVm.StringMethods

/-!
# Headers of HTTP

`Header.to_s` and `parse_header` of the module `net`. The parser keeps the positions behind the
separators, and gives the position behind a field to `substr`, which asks for the number of its
characters.
-/

set_option autoImplicit false

namespace JeffVm

/-! ## Cutting strings -/

/-- `_string_substr`; `none` is an error. -/
def stringSubstr (str : List Char) (start stop : Int) : Option (List Char) :=
  if start < 0 ∨ str.length < start then none
  else if stop < 0 ∨ str.length < stop then none
  else if stop < start then none
  else some ((str.drop start.toNat).take (stop - start).toNat)

/-- `String.substr` -/
def substr (str : List Char) (startIndex : Int) (numChars : Option Int) : Option (List Char) :=
  let endIndex := startIndex + numChars.getD (str.length - startIndex)
  if startIndex ≤ endIndex then stringSubstr str startIndex endIndex
  else stringSubstr str endIndex startIndex

/-- `find` where an int is needed; `none` is an error, also one of the sum with None. -/
def findIndex (findStr : FindStr) (str sub : List Char) (index : Int) : Option Int :=
  match stringFind findStr str (.tuple 0 [.string sub, .int index]) with
  | .ok v => v.pint
  | .error _ => none

namespace HttpHeader

/-- `Header` -/
structure Header where
  protocol : List Char
  version : List Char
  statusCode : List Char
  status : List Char
  contentType : List Char
  charset : List Char

def newline : List Char := ['\r', '\n']

/-- `to_s` -/
def Header.toS (h : Header) : List Char :=
  h.protocol ++ ['/'] ++ h.version ++ [' '] ++ h.statusCode ++ [' '] ++ h.status ++
    "\r\nContent-Type: ".toList ++ h.contentType ++ "; charset=".toList ++ h.charset ++
    "\r\n\r\n".toList

/-- `parse_header`; `none` is an error. -/
def parseHeader (findStr : FindStr) (text : List Char) : Option Header := do
  let i ← findIndex findStr text ['/'] 0
  let protocol ← substr text 0 (some i)
  let i2 := i + 1 + (← findIndex findStr text [' '] (i + 1))
  let version ← substr text (i + 1) (some i2)
  let i3 := i2 + 1 + (← findIndex findStr text [' '] (i2 + 1))
  let statusCode ← substr text (i2 + 1) (some i3)
  let i4 := i3 + 1 + (← findIndex findStr text newline (i3 + 1))
  let status ← substr text (i3 + 1) (some i4)
  let i5 := i4 + 1 + (← findIndex findStr text [' '] (i4 + 1))
  let i6 := i5 + 1 + (← findIndex findStr text [';'] (i5 + 1))
  let contentType ← substr text (i5 + 1) (some i6)
  let i7 := i6 + 1 + (← findIndex findStr text ['='] (i6 + 1))
  let i8 := i7 + 1 + (← findIndex findStr text newline (i7 + 1))
  let charset ← substr text (i7 + 1) (some i8)
  return ⟨protocol, version, statusCode, status, contentType, charset⟩

/-- The separators of the format, without the one that a content type may have. -/
def separators : List Char := [' ', ';', '=', '\r', '\n']

/-- No field has a separator. -/
structure Header.Plain (h : Header) : Prop where
  slash : ∀ field ∈ [h.protocol, h.version, h.statusCode, h.status, h.charset], '/' ∉ field
  others : ∀ field ∈ [h.protocol, h.version, h.statusCode, h.status, h.contentType, h.charset],
    ∀ c ∈ separators, c ∉ field

section

variable {findStr : FindStr} {str sub text : List Char} {index k start num : Int}

/-- A position is relative to the index that the search starts from. -/
theorem findIndex_found (hfirst : FindsFirst findStr)
    (h : findIndex findStr str sub index = some k) :
    0 ≤ index ∧ 0 ≤ k ∧ sub <+: str.drop (index.toNat + k.toNat) := by
  by_cases hneg : index < 0
  · have hargs : searchArgs str (.tuple 0 [.string sub, .int index]) = .error _ := if_pos hneg
    rw [findIndex, stringFind, hargs] at h
    cases h
  · obtain ⟨n, rfl⟩ := Int.eq_ofNat_of_zero_le (Int.not_lt.mp hneg)
    rw [findIndex, stringFind, searchArgs_string] at h
    simp only [Except.map] at h
    by_cases hlong : n + sub.length > str.length
    · rw [if_pos hlong] at h
      cases h
    · rw [if_neg hlong] at h
      cases hfound : findStr (str.drop n) sub with
      | none =>
        rw [hfound] at h
        cases h
      | some j =>
        rw [hfound] at h
        cases h
        have hstarts := (hfirst.found _ _ _ hfound).1
        rw [List.drop_drop] at hstarts
        exact ⟨by omega, by omega, hstarts⟩

/-- The characters of a field that is cut with a number of characters. -/
theorem getElem_substr {field : List Char} (h : substr str start (some num) = some field)
    {j : Nat} (hj : j < num) :
    field[j]? = str[start.toNat + j]? := by
  have hle : start ≤ start + num := by omega
  rw [substr, Option.getD_some] at h
  simp only [if_pos hle, stringSubstr] at h
  split at h
  · cases h
  · split at h
    · cases h
    · split at h
      · cases h
      · cases h
        have hlt : j < (start + num - start).toNat := by omega
        rw [List.getElem?_take_of_lt hlt, List.getElem?_drop]

/-- The version goes on behind the blank that ends it. -/
theorem blank_in_version (hfirst : FindsFirst findStr) {r : Header}
    (h : parseHeader findStr text = some r) : ' ' ∈ r.version := by
  unfold parseHeader at h
  obtain ⟨i, hi, h⟩ := Option.bind_eq_some_iff.mp h
  obtain ⟨protocol, -, h⟩ := Option.bind_eq_some_iff.mp h
  obtain ⟨k, hk, h⟩ := Option.bind_eq_some_iff.mp h
  obtain ⟨version, hversion, h⟩ := Option.bind_eq_some_iff.mp h
  obtain ⟨-, hi, -⟩ := findIndex_found hfirst hi
  obtain ⟨-, hk, hblank⟩ := findIndex_found hfirst hk
  have hlast : (k.toNat : Int) < i + 1 + k := by omega
  have hchar := getElem_substr hversion hlast
  obtain ⟨rest, hrest⟩ := hblank
  have htext : text[(i + 1).toNat + k.toNat]? = some ' ' := by
    rw [← List.head?_drop, ← hrest]
    rfl
  rw [htext] at hchar
  have hr : r.version = version := by
    simp only [Option.bind_eq_bind, Option.bind_eq_some_iff] at h
    obtain ⟨_, -, _, -, _, -, _, -, _, -, _, -, _, -, _, -, _, -, _, -, h⟩ := h
    rw [← Option.some.inj h]
  rw [hr]
  exact List.mem_of_getElem? hchar

end

/-- No header of plain fields is read back. -/
theorem parseHeader_toS_never (findStr : FindStr) (h : Header) (hfirst : FindsFirst findStr)
    (hplain : h.Plain) : parseHeader findStr h.toS ≠ some h := by
  intro hparse
  have hmem : h.version ∈ [h.protocol, h.version, h.statusCode, h.status, h.contentType,
      h.charset] := List.mem_cons_of_mem _ List.mem_cons_self
  exact hplain.others _ hmem ' ' List.mem_cons_self (blank_in_version hfirst hparse)

/-- `HTTP/1.1 200 OK` with a page of `text/html` -/
def okHeader : Header :=
  ⟨"HTTP".toList, "1.1".toList, "200".toList, "OK".toList, "text/html".toList, "UTF-8".toList⟩

theorem plain_okHeader : okHeader.Plain := by
  constructor
  · simp [okHeader]
  · simp [okHeader, separators]

theorem parseHeader_toS_never_ok :
    parseHeader firstOccurrence okHeader.toS ≠ some okHeader :=
  parseHeader_toS_never firstOccurrence okHeader findsFirst_firstOccurrence plain_okHeader

theorem not_parseHeader_toS : ¬ ∀ (findStr : FindStr) (h : Header), FindsFirst findStr →
    h.Plain → parseHeader findStr h.toS = some h := by
  intro hall
  have hparse := hall firstOccurrence okHeader findsFirst_firstOccurrence plain_okHeader
  exact absurd (blank_in_version findsFirst_firstOccurrence hparse) (by decide)

end HttpHeader

end JeffVm
