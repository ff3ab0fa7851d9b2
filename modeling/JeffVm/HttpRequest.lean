import JeffVm.HttpHeader
import JeffVm.StringSplit
import JeffVm.StructMap

/-!
# Requests of HTTP

`parse_params` and `parse_request` of the module `net`, over `_string_split` and `_string_trim`. The
empty line at the end of a request is no part, since `_string_split` leaves a last part away that is
no longer than the delimiter; so it does with the version of `HTTP/2` and with an empty value. A
value is read up to its first colon.
-/

set_option autoImplicit false

namespace JeffVm

namespace Http

open StructMap (MapState)

/-! ## The parser -/

/-- `HttpRequest` -/
structure HttpRequest where
  type : List Char
  path : List Char
  params : MapState
  protocol : List Char
  version : List Char
  headers : MapState

/-- `Array.collect` from a value that is no function. -/
def collect {σ : Type} (f : σ → List Char → Option σ) (table : List (List Char)) (s : σ) :
    Option σ :=
  if table.length = 0 then some s else table.foldlM f s

section Parser

variable (diff : Char → Char → Int) (hasher : List Char → Int) (findStr : FindStr)
variable (lshrink rshrink : List Char → Nat → List Char)

/-- `map[key] = value` on strings; `none` is an error. -/
def setString (map : MapState) (key value : List Char) : Option MapState :=
  (StructMap.set diff hasher map (.string key) (.string value)).map Prod.fst

/-- `find`; the outer `none` is an error. -/
def findOrNone (str sub : List Char) : Option (Option Int) :=
  match stringFind findStr str (.tuple 0 [.string sub, .int 0]) with
  | .ok .none => some none
  | .ok v => v.pint.map some
  | .error _ => none

/-- The function that `parse_params` collects with. -/
def addParam (a : MapState) (part : List Char) : Option MapState :=
  match findOrNone findStr part ['='] with
  | none => none
  | some none => setString diff hasher a part ['1']
  | some (some eqIndex) =>
    match substr part 0 (some eqIndex), substr part (eqIndex + 1) none with
    | some key, some value => setString diff hasher a key value
    | _, _ => none

/-- `parse_params`; `none` is an error. -/
def parseParams (path : List Char) : Option (List Char × MapState) := do
  match ← findOrNone findStr path ['?'] with
  | none => return (path, ← StructMap.new 31)
  | some qIndex =>
    let front ← substr path 0 (some qIndex)
    let query ← substr path (qIndex + 1) none
    let parts ← stringSplit query ['&']
    let params ← collect (addParam diff hasher findStr) parts (← StructMap.new 31)
    return (front, params)

/-- A round of the loop over the lines. The first `trim` of the key changes it in place. -/
def addHeader (map : MapState) (part : List Char) : Option MapState := do
  let kv ← stringSplit part [':']
  let key ← stringTrim lshrink rshrink (← kv[0]?)
  let value ← stringTrim lshrink rshrink (← kv[1]?)
  setString diff hasher map (← stringTrim lshrink rshrink key) value

/-- `parse_request`; `none` is None, which is also what it gives for an error, or a read outside of
a string. -/
def parseRequest (req : List Char) : Option HttpRequest := do
  let parts ← stringSplit req HttpHeader.newline
  let request ← stringTrim lshrink rshrink (← parts[0]?)
  let reqHead ← stringSplit request [' ']
  let type ← reqHead[0]?
  let path ← reqHead[1]?
  let (path, params) ← parseParams diff hasher findStr path
  let protocol ← stringSplit (← reqHead[2]?) ['/']
  let map ← StructMap.new 31
  let headers ← (parts.drop 1).foldlM (addHeader diff hasher lshrink rshrink) map
  return ⟨type, path, params, ← protocol[0]?, ← protocol[1]?, headers⟩

end Parser

/-! ## Requests -/

/-- A request, with its pairs in order. -/
structure Request where
  type : List Char
  path : List Char
  params : List (List Char × List Char)
  protocol : List Char
  version : List Char
  headers : List (List Char × List Char)

/-- Without outer blanks. -/
def Trimmed (str : List Char) : Prop :=
  str.dropWhile isAnySpace = str ∧ str.rdropWhile isAnySpace = str

namespace Request

/-- `?k1=v1&...&kn=vn` -/
def query (req : Request) : List Char :=
  if req.params = [] then []
  else '?' :: stringJoin ['&'] (req.params.map fun kv => kv.1 ++ '=' :: kv.2)

/-- `TYPE PATH PROTOCOL/VERSION` -/
def line (req : Request) : List Char :=
  req.type ++ [' '] ++ req.path ++ req.query ++ [' '] ++ req.protocol ++ ['/'] ++ req.version

/-- The lines `NAME: VALUE`. -/
def lines (req : Request) : List (List Char) :=
  req.headers.map fun kv => kv.1 ++ [':', ' '] ++ kv.2

/-- The text, with the empty line at its end. -/
def text (req : Request) : List Char :=
  ((req.line :: req.lines).flatMap fun line => line ++ HttpHeader.newline) ++ HttpHeader.newline

/-- No separator is in a part that it ends, nor a blank at an end that is trimmed. Only values may
be empty. -/
structure Plain (req : Request) : Prop where
  words : ∀ part ∈ [req.type, req.path, req.protocol, req.version],
    part ≠ [] ∧ ' ' ∉ part ∧ ¬ HttpHeader.newline <:+: part
  ends : req.type.dropWhile isAnySpace = req.type ∧ req.version.rdropWhile isAnySpace = req.version
  path : '?' ∉ req.path
  protocol : '/' ∉ req.protocol ∧ '/' ∉ req.version
  params : ∀ kv ∈ req.params, kv.1 ≠ [] ∧ '=' ∉ kv.1 ∧
    ∀ part ∈ [kv.1, kv.2], ' ' ∉ part ∧ '&' ∉ part ∧ ¬ HttpHeader.newline <:+: part
  headers : ∀ kv ∈ req.headers, kv.1 ≠ [] ∧ ':' ∉ kv.1 ∧
    ∀ part ∈ [kv.1, kv.2], Trimmed part ∧ ¬ HttpHeader.newline <:+: part
  names : (req.headers.map Prod.fst).Nodup ∧ (req.params.map Prod.fst).Nodup

/-- The map has these pairs and no other keys. -/
def Lists (diff : Char → Char → Int) (hasher : List Char → Int) (map : MapState)
    (pairs : List (List Char × List Char)) : Prop :=
  map.keys = pairs.map (fun kv => .string kv.1) ∧
    ∀ kv ∈ pairs, StructMap.get diff hasher map (.string kv.1) = some (.string kv.2)

/-- What was read is the request. -/
structure Describes (diff : Char → Char → Int) (hasher : List Char → Int) (req : Request)
    (r : HttpRequest) : Prop where
  type : r.type = req.type
  path : r.path = req.path
  params : Lists diff hasher r.params req.params
  protocol : r.protocol = req.protocol
  version : r.version = req.version
  headers : Lists diff hasher r.headers req.headers

/-- The version is longer than a character, every value of a header has a character and no colon,
and no two names, and no two keys, differ behind a NUL only. -/
structure Readable (req : Request) : Prop where
  version : 1 < req.version.length
  values : ∀ kv ∈ req.headers, kv.2 ≠ [] ∧ ':' ∉ kv.2
  names : (req.headers.map Prod.fst).Pairwise fun name name' => ¬ DifferBehindNul name name'
  keys : (req.params.map Prod.fst).Pairwise fun key key' => ¬ DifferBehindNul key key'

end Request

/-! ## Splitting what was joined -/

section Splitting

variable {delim skipped str text last part part' : List Char} {parts : List (List Char)} {c d : Char}

/-- The loop gives these parts, and this text behind the last delimiter. -/
def Splits (delim skipped str : List Char) (parts : List (List Char)) (last : List Char) : Prop :=
  ∀ n, str.length ≤ n → splitLoop delim n skipped str = some (parts, last)

theorem splits_last (h : Searched delim str []) : Splits delim skipped str [] (skipped ++ str) := by
  intro n hn
  obtain ⟨m, rfl⟩ := Nat.exists_eq_add_of_le' hn
  have hloop : splitLoop delim (m + str.length) skipped (str ++ []) =
      splitLoop delim m (skipped ++ str) [] := splitLoop_searched h
  rw [List.append_nil] at hloop
  rw [hloop]
  cases m <;> rfl

theorem Splits.next (h : Searched delim str (delim ++ text)) (hdelim : delim ≠ [])
    (hrest : Splits delim (text.take 1) (text.drop 1) parts last) :
    Splits delim skipped (str ++ (delim ++ text)) ((skipped ++ str) :: parts) last := by
  intro n hn
  have hpos : 1 ≤ delim.length := List.length_pos_iff.mpr hdelim
  rw [List.length_append, List.length_append] at hn
  obtain ⟨m, rfl⟩ : ∃ m, n = m + 1 + str.length := ⟨n - 1 - str.length, by omega⟩
  have hm : (text.drop 1).length ≤ m := by
    rw [List.length_drop]
    omega
  rw [splitLoop_searched h, splitLoop_first (List.append_ne_nil_of_left_ne_nil hdelim text),
    strncmp_append, Option.bind_some, if_pos rfl, List.drop_left, hrest m hm]
  rfl

/-- A first character that the delimiter does not start with may as well have been skipped. -/
theorem Splits.unskip (hc : strncmp (c :: str) delim = some false)
    (h : Splits delim [c] str parts last) : Splits delim [] (c :: str) parts last := by
  intro n hn
  rw [List.length_cons] at hn
  obtain ⟨m, rfl⟩ : ∃ m, n = m + 1 := ⟨n - 1, by omega⟩
  rw [splitLoop, hc]
  exact h m (by omega)

theorem Splits.stringSplit (h : Splits delim [] str parts last) :
    stringSplit str delim =
      some (if delim.length < last.length then parts ++ [last] else parts) := by
  rw [JeffVm.stringSplit, h str.length (Nat.le_refl _), Option.map_some]

theorem strncmp_char (h : c ≠ d) : strncmp (c :: str) [d] = some false := by
  rw [strncmp, if_pos h]

theorem searched_char (h : d ∉ str) (text : List Char) : Searched [d] str text := by
  induction str with
  | nil => exact searched_nil
  | cons c str ih =>
    rw [List.mem_cons, not_or] at h
    exact searched_cons (strncmp_char (Ne.symm h.1)) (ih h.2)

/-- A split at a character comes to an end. -/
theorem exists_splits (d : Char) (skipped str : List Char) :
    ∃ parts last, Splits [d] skipped str parts last := by
  generalize hk : str.length = k
  induction k using Nat.strong_induction_on generalizing skipped str with
  | _ k ih =>
    by_cases hmem : d ∈ str
    · obtain ⟨before, text, rfl, hbefore⟩ := List.eq_append_cons_of_mem hmem
      have hlt : (text.drop 1).length < k := by
        rw [← hk, List.length_drop, List.length_append, List.length_cons]
        omega
      obtain ⟨parts, last, hrest⟩ := ih _ hlt (text.take 1) (text.drop 1) rfl
      exact ⟨_, _, Splits.next (searched_char hbefore _) (List.cons_ne_nil _ _) hrest⟩
    · exact ⟨_, _, splits_last (searched_char hmem [])⟩

/-- The parts that were joined with a character. -/
theorem splits_intercalate (hpart : part ≠ [] ∧ d ∉ part)
    (hparts : ∀ p ∈ parts, p ≠ [] ∧ d ∉ p) :
    Splits [d] (([d].intercalate (part :: parts)).take 1) (([d].intercalate (part :: parts)).drop 1)
      (part :: parts).dropLast ((part :: parts).getLast (List.cons_ne_nil _ _)) := by
  induction parts generalizing part with
  | nil =>
    obtain ⟨c, rest, rfl⟩ := List.exists_cons_of_ne_nil hpart.1
    rw [List.intercalate_singleton]
    exact splits_last (searched_char (fun h => hpart.2 (List.mem_cons_of_mem c h)) [])
  | cons next parts ih =>
    obtain ⟨hnext, hparts⟩ := List.forall_mem_cons.mp hparts
    obtain ⟨c, rest, rfl⟩ := List.exists_cons_of_ne_nil hpart.1
    have hrest : d ∉ rest := fun h => hpart.2 (List.mem_cons_of_mem c h)
    have hjoin : [d].intercalate ((c :: rest) :: next :: parts) =
        c :: (rest ++ ([d] ++ [d].intercalate (next :: parts))) := by
      rw [List.intercalate_cons_of_ne_nil (List.cons_ne_nil _ _), List.cons_append, List.cons_append,
        List.append_assoc]
    rw [hjoin, List.dropLast_cons_of_ne_nil (List.cons_ne_nil _ _),
      List.getLast_cons (List.cons_ne_nil _ _)]
    exact Splits.next (searched_char hrest _) (List.cons_ne_nil _ _) (ih hnext hparts)

/-- Splitting gives back the parts that were joined with a character, but not a last one that is no
longer than a character. -/
theorem stringSplit_intercalate (hpart : part ≠ [] ∧ d ∉ part)
    (hparts : ∀ p ∈ parts, p ≠ [] ∧ d ∉ p) :
    stringSplit ([d].intercalate (part :: parts)) [d] =
      some (if 1 < ((part :: parts).getLast (List.cons_ne_nil _ _)).length then part :: parts
        else (part :: parts).dropLast) := by
  have hsplits := splits_intercalate hpart hparts
  obtain ⟨c, rest, rfl⟩ := List.exists_cons_of_ne_nil hpart.1
  have hc : c ≠ d := fun h => hpart.2 (h ▸ List.mem_cons_self)
  obtain ⟨tail, htail⟩ : ∃ tail, [d].intercalate ((c :: rest) :: parts) = c :: tail := by
    cases parts with
    | nil => exact ⟨rest, List.intercalate_singleton⟩
    | cons next parts =>
      refine ⟨rest ++ ([d] ++ [d].intercalate (next :: parts)), ?_⟩
      rw [List.intercalate_cons_of_ne_nil (List.cons_ne_nil _ _), List.cons_append, List.cons_append,
        List.append_assoc]
  rw [htail] at hsplits ⊢
  have hsplit := (Splits.unskip (strncmp_char hc) hsplits).stringSplit
  rw [List.dropLast_append_getLast] at hsplit
  exact hsplit

/-! ## Lines -/

/-- Texts without a newline make up one, when what stands between them is not in a newline. -/
theorem no_newline_append (hc : c ∉ HttpHeader.newline) (hpart : ¬ HttpHeader.newline <:+: part)
    (hpart' : ¬ HttpHeader.newline <:+: part') :
    ¬ HttpHeader.newline <:+: part ++ c :: part' := by
  rintro ⟨before, behind, heq⟩
  rw [List.append_assoc] at heq
  rcases List.append_eq_append_iff.mp heq with ⟨w, rfl, hw⟩ | ⟨w, rfl, hw⟩
  · rcases w with _ | ⟨x, _ | ⟨y, w⟩⟩
    · exact hc ((List.cons.inj hw).1 ▸ List.mem_cons_self)
    · obtain ⟨-, hw⟩ := List.cons.inj hw
      exact hc ((List.cons.inj hw).1 ▸ List.mem_cons_of_mem _ List.mem_cons_self)
    · obtain ⟨hx, hw⟩ := List.cons.inj hw
      obtain ⟨hy, -⟩ := List.cons.inj hw
      rw [← hx, ← hy] at hpart
      exact hpart ⟨before, w, List.append_assoc _ _ _⟩
  · rcases w with _ | ⟨x, w⟩
    · exact hc ((List.cons.inj hw).1 ▸ List.mem_cons_self)
    · obtain ⟨-, rfl⟩ := List.cons.inj hw
      exact hpart' ⟨w, behind, List.append_assoc _ _ _⟩

/-- In front of a newline none is found before it. -/
theorem searched_newline (h : ¬ HttpHeader.newline <:+: str) (text : List Char) :
    Searched HttpHeader.newline str (HttpHeader.newline ++ text) := by
  induction str with
  | nil => exact searched_nil
  | cons c str ih =>
    refine searched_cons ?_ (ih fun hwithin => h (hwithin.trans (List.suffix_cons c str).isInfix))
    by_cases hc : c = '\r'
    · subst hc
      cases str with
      | nil => rfl
      | cons d str =>
        have hd : d ≠ '\n' := by
          rintro rfl
          exact h ⟨[], str, rfl⟩
        rw [HttpHeader.newline, List.cons_append, List.cons_append, strncmp, if_neg (not_not.mpr rfl),
          if_neg (by decide), strncmp, if_pos hd]
    · rw [HttpHeader.newline, List.cons_append, strncmp, if_pos hc]

/-- The empty line at the end is no part. -/
theorem splits_lines (hparts : ∀ p ∈ parts, p ≠ [] ∧ ¬ HttpHeader.newline <:+: p) :
    Splits HttpHeader.newline
      ((parts.flatMap (fun p => p ++ HttpHeader.newline) ++ HttpHeader.newline).take 1)
      ((parts.flatMap (fun p => p ++ HttpHeader.newline) ++ HttpHeader.newline).drop 1)
      parts HttpHeader.newline := by
  induction parts with
  | nil => exact splits_last (searched_cons (by decide) searched_nil)
  | cons part parts ih =>
    obtain ⟨⟨hne, hnewline⟩, hrest⟩ := List.forall_mem_cons.mp hparts
    have hsplits := ih hrest
    obtain ⟨c, rest, rfl⟩ := List.exists_cons_of_ne_nil hne
    have htail : ¬ HttpHeader.newline <:+: rest := fun h =>
      hnewline (h.trans (List.suffix_cons c rest).isInfix)
    rw [List.flatMap_cons, List.append_assoc, List.append_assoc, List.cons_append]
    exact Splits.next (searched_newline htail _) (List.cons_ne_nil _ _) hsplits

theorem stringSplit_lines (hpart : part ≠ [] ∧ ¬ HttpHeader.newline <:+: part)
    (hparts : ∀ p ∈ parts, p ≠ [] ∧ ¬ HttpHeader.newline <:+: p) :
    stringSplit ((part :: parts).flatMap (fun p => p ++ HttpHeader.newline) ++ HttpHeader.newline)
      HttpHeader.newline = some (part :: parts) := by
  have hsplits := splits_lines (List.forall_mem_cons.mpr ⟨hpart, hparts⟩)
  obtain ⟨c, rest, rfl⟩ := List.exists_cons_of_ne_nil hpart.1
  have hsearched := searched_newline hpart.2
    (parts.flatMap (fun p => p ++ HttpHeader.newline) ++ HttpHeader.newline)
  have hc := hsearched _ (List.cons_ne_nil c rest) (List.suffix_refl _)
  rw [List.flatMap_cons, List.append_assoc, List.append_assoc, List.cons_append] at hsplits ⊢
  exact (Splits.unskip hc hsplits).stringSplit

end Splitting

/-! ## Trimming -/

section Trimming

variable {lshrink rshrink : List Char → Nat → List Char} {str name value : List Char}

theorem stringTrim_trimmed (hshrinks : Shrinks lshrink rshrink) (h : Trimmed str)
    (hne : str ≠ []) : stringTrim lshrink rshrink str = some str := by
  have hblank : str.all isAnySpace = false := by
    rw [Bool.eq_false_iff]
    intro hall
    exact hne (h.1.symm.trans (List.dropWhile_eq_nil_iff.mpr (List.all_eq_true.mp hall)))
  rw [(trimsInside hshrinks hblank).trim, h.1, h.2]

/-- What is kept of a value. -/
def keptValue (value : List Char) : List Char :=
  (value.takeWhile fun c => c ≠ ':').rdropWhile isAnySpace

theorem ne_colon_of_mem (h : ':' ∉ value) : ∀ c ∈ value, decide (c ≠ ':') = true := by
  intro c hc
  rw [decide_eq_true_eq]
  rintro rfl
  exact h hc

theorem takeWhile_colon (h : ':' ∉ value) (behind : List Char) :
    (value ++ ':' :: behind).takeWhile (fun c => c ≠ ':') = value := by
  rw [List.takeWhile_append_of_pos (ne_colon_of_mem h), List.takeWhile_cons_of_neg (by decide),
    List.append_nil]

theorem takeWhile_no_colon (h : ':' ∉ value) : value.takeWhile (fun c => c ≠ ':') = value :=
  List.takeWhile_eq_self_iff.mpr (ne_colon_of_mem h)

/-- All of a value is kept exactly when it has no colon. -/
theorem keptValue_eq_iff (h : Trimmed value) : keptValue value = value ↔ ':' ∉ value := by
  constructor
  · intro heq hmem
    have hle := (List.rdropWhile_prefix isAnySpace (value.takeWhile fun c => c ≠ ':')).subset
    change keptValue value ⊆ _ at hle
    rw [heq] at hle
    have hne : decide (':' ≠ ':') = true := List.mem_takeWhile_imp (p := fun c => c ≠ ':') (hle hmem)
    cases hne
  · intro hcolon
    rw [keptValue, takeWhile_no_colon hcolon, h.2]

theorem stringTrim_behind_colon (hshrinks : Shrinks lshrink rshrink) (h : Trimmed value) :
    stringTrim lshrink rshrink (' ' :: value.takeWhile fun c => c ≠ ':') =
      if keptValue value = [] then none else some (keptValue value) := by
  cases htake : value.takeWhile fun c => c ≠ ':' with
  | nil =>
    rw [keptValue, htake, stringTrim, leadingSpaces_eq]
    rfl
  | cons c rest =>
    have hc : isAnySpace c = false := by
      obtain ⟨tail, rfl⟩ : ∃ tail, value = c :: tail := by
        obtain ⟨tail, htail⟩ := List.takeWhile_prefix (fun c => c ≠ ':') (l := value)
        rw [htake] at htail
        exact ⟨rest ++ tail, htail.symm⟩
      have hhead := List.dropWhile_eq_self_iff.mp h.1 (Nat.succ_pos _)
      exact Bool.eq_false_iff.mpr hhead
    have hblank : (' ' :: c :: rest).all isAnySpace = false := by
      rw [List.all_cons, List.all_cons, hc, Bool.false_and, Bool.and_false]
    have hkept : keptValue value ≠ [] := by
      rw [keptValue, htake, ne_eq, List.rdropWhile_eq_nil_iff]
      intro hall
      rw [hall c List.mem_cons_self] at hc
      cases hc
    have hdrop : (' ' :: c :: rest).dropWhile isAnySpace = c :: rest := by
      rw [List.dropWhile_cons_of_pos rfl, List.dropWhile_cons_of_neg (Bool.eq_false_iff.mp hc)]
    rw [(trimsInside hshrinks hblank).trim, hdrop, if_neg hkept, keptValue, htake]

/-- The part behind the first colon goes up to the next one; it is no part when it is a blank. -/
theorem stringSplit_header (hname : ':' ∉ name) (value : List Char) :
    ∃ kv, stringSplit (name ++ [':', ' '] ++ value) [':'] = some kv ∧ kv[0]? = some name ∧
      (kv[1]? = some (' ' :: value.takeWhile fun c => c ≠ ':') ∨ value = [] ∧ kv[1]? = none) := by
  have hline : name ++ [':', ' '] ++ value = name ++ ([':'] ++ (' ' :: value)) :=
    List.append_assoc _ _ _
  rw [hline]
  by_cases hmem : ':' ∈ value
  · obtain ⟨before, text, rfl, hbefore⟩ := List.eq_append_cons_of_mem hmem
    obtain ⟨parts, last, hrest⟩ := exists_splits ':' (text.take 1) (text.drop 1)
    have hvalue : Splits [':'] [' '] (before ++ ([':'] ++ text)) (([' '] ++ before) :: parts) last :=
      Splits.next (searched_char hbefore _) (List.cons_ne_nil _ _) hrest
    have hsplits : Splits [':'] [] (name ++ ([':'] ++ (' ' :: (before ++ ([':'] ++ text)))))
        (([] ++ name) :: ([' '] ++ before) :: parts) last :=
      Splits.next (searched_char hname _) (List.cons_ne_nil _ _) hvalue
    refine ⟨_, hsplits.stringSplit, ?_, .inl ?_⟩
    · split
      · rfl
      · rfl
    · rw [takeWhile_colon hbefore]
      split
      · rfl
      · rfl
  · have hlast : Splits [':'] [' '] value [] ([' '] ++ value) :=
      splits_last (searched_char hmem [])
    have hsplits : Splits [':'] [] (name ++ ([':'] ++ (' ' :: value))) [[] ++ name]
        ([' '] ++ value) :=
      Splits.next (searched_char hname _) (List.cons_ne_nil _ _) hlast
    rw [takeWhile_no_colon hmem]
    cases value with
    | nil => exact ⟨_, hsplits.stringSplit, rfl, .inr ⟨rfl, rfl⟩⟩
    | cons c value =>
      have hlong : [':'].length < ([' '] ++ c :: value).length := by
        simp only [List.length_cons, List.length_append, List.length_nil]
        omega
      refine ⟨_, hsplits.stringSplit, ?_, .inl ?_⟩
      · rw [if_pos hlong]
        rfl
      · rw [if_pos hlong]
        rfl

theorem addHeader_line {diff : Char → Char → Int} {hasher : List Char → Int}
    (hshrinks : Shrinks lshrink rshrink) (hne : name ≠ []) (hcolon : ':' ∉ name)
    (hname : Trimmed name) (hvalue : Trimmed value) (map : MapState) :
    addHeader diff hasher lshrink rshrink map (name ++ [':', ' '] ++ value) =
      if keptValue value = [] then none else setString diff hasher map name (keptValue value) := by
  obtain ⟨kv, hsplit, hfirst, hsecond⟩ := stringSplit_header hcolon value
  have hkey := stringTrim_trimmed hshrinks hname hne
  have htrim := stringTrim_behind_colon hshrinks hvalue
  simp only [addHeader, hsplit, hfirst, hkey, Option.bind_eq_bind, Option.bind_some]
  rcases hsecond with hsecond | ⟨rfl, hsecond⟩
  · simp only [hsecond, Option.bind_some, htrim]
    split
    · rfl
    · rfl
  · rw [hsecond]
    rfl

end Trimming

/-! ## Searching -/

section Searching

variable {findStr : FindStr} {before behind : List Char} {c : Char}

theorem findOrNone_present (hfind : FindsFirst findStr) (hbefore : c ∉ before) :
    findOrNone findStr (before ++ c :: behind) [c] = some (some (before.length : Int)) := by
  have hhere : [c] <+: (before ++ c :: behind).drop before.length := by
    rw [List.drop_left]
    exact List.prefix_append [c] behind
  rcases stringFind_spec (before ++ c :: behind) hfind (List.cons_ne_nil c []) 0 0 with
    ⟨-, hmissing⟩ | ⟨k, hfound, hstarts, hfirst⟩
  · exact absurd hhere (hmissing before.length (Nat.zero_le _))
  · rw [Nat.zero_add] at hstarts hfirst
    have hk : k = before.length := by
      rcases Nat.lt_trichotomy k before.length with hlt | heq | hgt
      · obtain ⟨rest, hrest⟩ := hstarts
        have hchar : (before ++ c :: behind)[k]? = some c := by
          rw [← List.head?_drop, ← hrest]
          rfl
        rw [List.getElem?_append_left hlt] at hchar
        exact absurd (List.mem_of_getElem? hchar) hbefore
      · exact heq
      · exact absurd hhere (hfirst before.length (Nat.zero_le _) hgt)
    rw [findOrNone]
    change (match stringFind findStr (before ++ c :: behind) (.tuple 0 [.string [c], .int (0 : Nat)])
      with
      | .ok .none => some none
      | .ok v => v.pint.map some
      | .error _ => none) = _
    rw [hfound, hk]
    rfl

theorem findOrNone_absent (hfind : FindsFirst findStr) (hbefore : c ∉ before) :
    findOrNone findStr before [c] = some none := by
  rcases stringFind_spec before hfind (List.cons_ne_nil c []) 0 0 with
    ⟨hnone, -⟩ | ⟨k, -, ⟨rest, hrest⟩, -⟩
  · rw [findOrNone]
    change (match stringFind findStr before (.tuple 0 [.string [c], .int (0 : Nat)]) with
      | .ok .none => some none
      | .ok v => v.pint.map some
      | .error _ => none) = _
    rw [hnone]
  · have hmem : c ∈ before.drop (0 + k) := by
      rw [← hrest]
      exact List.mem_cons_self
    exact absurd (List.mem_of_mem_drop hmem) hbefore

theorem substr_front : substr (before ++ c :: behind) 0 (some before.length) = some before := by
  have hle : (0 : Int) ≤ 0 + before.length := by omega
  have hlong : ¬ ((0 : Int) + before.length < 0 ∨
      ((before ++ c :: behind).length : Int) < 0 + before.length) := by
    rw [List.length_append]
    omega
  have hnonneg : ¬ ((0 : Int) < 0 ∨ ((before ++ c :: behind).length : Int) < 0) := by omega
  have hnot : ¬ (0 : Int) + before.length < 0 := by omega
  have hnat : ((0 : Int) + before.length - 0).toNat = before.length := by omega
  rw [substr, Option.getD_some]
  simp only [if_pos hle, stringSubstr, if_neg hnonneg, if_neg hlong, if_neg hnot, hnat]
  rw [Int.toNat_zero, List.drop_zero, List.take_left]

theorem substr_behind :
    substr (before ++ c :: behind) (before.length + 1) none = some behind := by
  have hlength : (before ++ c :: behind).length = before.length + 1 + behind.length := by
    rw [List.length_append, List.length_cons]
    omega
  have hend : (before.length + 1 : Int) + (((before ++ c :: behind).length : Int) -
      (before.length + 1)) = (before ++ c :: behind).length := by omega
  have hle : (before.length + 1 : Int) ≤ (before ++ c :: behind).length := by omega
  have hstart : ¬ ((before.length + 1 : Int) < 0 ∨
      ((before ++ c :: behind).length : Int) < before.length + 1) := by omega
  have hstop : ¬ (((before ++ c :: behind).length : Int) < 0 ∨
      ((before ++ c :: behind).length : Int) < (before ++ c :: behind).length) := by omega
  have hnot : ¬ ((before ++ c :: behind).length : Int) < before.length + 1 := by omega
  have hnat : (before.length + 1 : Int).toNat = before.length + 1 := by omega
  have hcount : (((before ++ c :: behind).length : Int) - (before.length + 1)).toNat =
      behind.length := by omega
  rw [substr, Option.getD_none]
  simp only [hend, if_pos hle, stringSubstr, if_neg hstart, if_neg hstop, if_neg hnot, hnat, hcount]
  rw [← List.drop_drop, List.drop_left, List.drop_one, List.tail_cons, List.take_length]

theorem addParam_pair {diff : Char → Char → Int} {hasher : List Char → Int}
    (hfind : FindsFirst findStr) {key : List Char} (hkey : '=' ∉ key) (value : List Char)
    (map : MapState) : addParam diff hasher findStr map (key ++ '=' :: value) =
      setString diff hasher map key value := by
  rw [addParam, findOrNone_present hfind hkey]
  simp only [substr_front, substr_behind]

end Searching

/-! ## Maps of strings -/

section Maps

variable {diff : Char → Char → Int} {hasher : List Char → Int} {map : MapState}
variable {pairs : List (List Char × List Char)} {f : List Char → List Char}
variable {entry : List Char × List Char → List Char} {stores : List StructMap.Entry}
variable {step : MapState → List Char → Option MapState}

/-- The stores of pairs with these values. -/
def pairStores (f : List Char → List Char) (pairs : List (List Char × List Char)) :
    List StructMap.Entry :=
  pairs.map fun kv => (.string kv.1, .string (f kv.2))

theorem foldlM_pairs (hdiff : OrdersChars diff) (hhash : StructMap.HashesStrings diff hasher)
    (hstep : ∀ kv ∈ pairs, ∀ m, step m (entry kv) = setString diff hasher m kv.1 (f kv.2))
    (hmap : StructMap.Holds diff hasher .string 31 stores map) :
    ∃ map', (pairs.map entry).foldlM step map = some map' ∧
      StructMap.Holds diff hasher .string 31 (stores ++ pairStores f pairs) map' := by
  induction pairs generalizing map stores with
  | nil =>
    refine ⟨map, rfl, ?_⟩
    rw [pairStores, List.map_nil, List.append_nil]
    exact hmap
  | cons kv pairs ih =>
    obtain ⟨hkv, hpairs⟩ := List.forall_mem_cons.mp hstep
    obtain ⟨map₁, hset, h₁⟩ := hmap.set (StructMap.equivalenceOn_same hdiff .string) hhash
      (by decide) (by decide) ⟨kv.1, rfl⟩ (.string (f kv.2))
    obtain ⟨map', hfold, h'⟩ := ih hpairs h₁
    refine ⟨map', ?_, ?_⟩
    · rw [List.map_cons, List.foldlM_cons, hkv, setString, hset]
      exact hfold
    · rw [List.append_assoc] at h'
      exact h'

/-- A fold that has ended has not been stopped by an entry. -/
theorem step_isSome_of_foldlM {entries : List (List Char)} {map' : MapState}
    (h : entries.foldlM step map = some map') :
    ∀ part ∈ entries, ∃ m, (step m part).isSome := by
  induction entries generalizing map with
  | nil => exact fun part hpart => absurd hpart List.not_mem_nil
  | cons part entries ih =>
    rw [List.foldlM_cons] at h
    obtain ⟨map₁, hstep, hrest⟩ := Option.bind_eq_some_iff.mp h
    exact List.forall_mem_cons.mpr ⟨⟨map, by rw [hstep]; rfl⟩, ih hrest⟩

theorem same_string_eq_false (hdiff : OrdersChars diff) (key key' : List Char) :
    StructMap.same diff (.string key) (.string key') = false ↔
      key ≠ key' ∧ ¬ DifferBehindNul key key' := by
  rw [Bool.eq_false_iff, ne_eq, StructMap.same_string, stringOrder_eq_zero_iff hdiff, not_or]

theorem Request.lists_iff (hdiff : OrdersChars diff)
    (hmap : StructMap.Holds diff hasher .string 31 (pairStores f pairs) map)
    (hnodup : (pairs.map Prod.fst).Nodup) : Lists diff hasher map pairs ↔
      (pairs.map Prod.fst).Pairwise (fun key key' => ¬ DifferBehindNul key key') ∧
        ∀ kv ∈ pairs, f kv.2 = kv.2 := by
  have heq := StructMap.equivalenceOn_same hdiff .string
  have hkeys : (pairStores f pairs).map Prod.fst = pairs.map fun kv => .string kv.1 := by
    rw [pairStores, List.map_map]
    rfl
  have hdistinct : ((pairStores f pairs).map Prod.fst).Pairwise
      (fun k k' => StructMap.same diff k k' = false) ↔
        (pairs.map Prod.fst).Pairwise fun key key' => ¬ DifferBehindNul key key' := by
    rw [hkeys, List.pairwise_map, List.pairwise_map]
    constructor
    · exact fun h => h.imp fun hne => ((same_string_eq_false hdiff _ _).mp hne).2
    · intro h
      have hboth := (List.pairwise_map.mp hnodup).and h
      exact hboth.imp fun hne => (same_string_eq_false hdiff _ _).mpr hne
  have hlisted : map.keys = pairs.map (fun kv => .string kv.1) ↔
      ((pairStores f pairs).map Prod.fst).Pairwise
        (fun k k' => StructMap.same diff k k' = false) := by
    rw [hmap.listed, ← hkeys]
    exact Association.insertionKeys_eq_iff heq hmap.stored
  rw [Lists, hlisted, ← hdistinct]
  refine and_congr_right fun hpairwise => forall₂_congr fun kv hkv => ?_
  have hmem : ((.string kv.1, .string (f kv.2)) : StructMap.Entry) ∈ pairStores f pairs :=
    List.mem_map.mpr ⟨kv, hkv, rfl⟩
  rw [hmap.get (by decide) (by decide) ⟨kv.1, rfl⟩,
    Association.lastStored_of_mem heq hmap.stored hpairwise hmem, Option.getD_some,
    Option.some.injEq, Value.string.injEq]

end Maps

/-! ## The text -/

section Text

variable {parts : List (List Char)} {c d : Char} {req : Request}

theorem not_mem_intercalate (hne : c ≠ d) (h : ∀ p ∈ parts, c ∉ p) :
    c ∉ [d].intercalate parts := by
  induction parts with
  | nil => exact List.not_mem_nil
  | cons part parts ih =>
    obtain ⟨hpart, hparts⟩ := List.forall_mem_cons.mp h
    cases parts with
    | nil =>
      rw [List.intercalate_singleton]
      exact hpart
    | cons next parts =>
      rw [List.intercalate_cons_of_ne_nil (List.cons_ne_nil _ _), List.mem_append, List.mem_append,
        List.mem_singleton, not_or, not_or]
      exact ⟨⟨hpart, hne⟩, ih hparts⟩

theorem no_newline_intercalate (hd : d ∉ HttpHeader.newline)
    (h : ∀ p ∈ parts, ¬ HttpHeader.newline <:+: p) :
    ¬ HttpHeader.newline <:+: [d].intercalate parts := by
  induction parts with
  | nil => exact fun hinfix => List.cons_ne_nil _ _ (List.infix_nil.mp hinfix)
  | cons part parts ih =>
    obtain ⟨hpart, hparts⟩ := List.forall_mem_cons.mp h
    cases parts with
    | nil =>
      rw [List.intercalate_singleton]
      exact hpart
    | cons next parts =>
      rw [List.intercalate_cons_of_ne_nil (List.cons_ne_nil _ _), List.append_assoc]
      exact no_newline_append hd hpart (ih hparts)

namespace Request

/-- The parts of a query. -/
def queryParts (req : Request) : List (List Char) := req.params.map fun kv => kv.1 ++ '=' :: kv.2

theorem query_of_params (hparams : req.params ≠ []) :
    req.query = '?' :: ['&'].intercalate req.queryParts := by
  rw [query, if_neg hparams, stringJoin_eq, queryParts]

theorem Plain.queryPart (hplain : req.Plain) : ∀ part ∈ req.queryParts,
    1 < part.length ∧ '&' ∉ part ∧ ' ' ∉ part ∧ ¬ HttpHeader.newline <:+: part := by
  intro part hpart
  obtain ⟨kv, hkv, rfl⟩ := List.mem_map.mp hpart
  obtain ⟨hne, -, hparts⟩ := hplain.params kv hkv
  obtain ⟨hblank, hamper, hnewline⟩ := hparts kv.1 List.mem_cons_self
  obtain ⟨hblank', hamper', hnewline'⟩ := hparts kv.2 (List.mem_cons_of_mem _ List.mem_cons_self)
  have hpos : 1 ≤ kv.1.length := List.length_pos_iff.mpr hne
  refine ⟨?_, ?_, ?_, no_newline_append (by decide) hnewline hnewline'⟩
  · rw [List.length_append, List.length_cons]
    omega
  · rw [List.mem_append, List.mem_cons, not_or, not_or]
    exact ⟨hamper, by decide, hamper'⟩
  · rw [List.mem_append, List.mem_cons, not_or, not_or]
    exact ⟨hblank, by decide, hblank'⟩

theorem Plain.target (hplain : req.Plain) :
    ' ' ∉ req.path ++ req.query ∧ ¬ HttpHeader.newline <:+: req.path ++ req.query := by
  obtain ⟨-, hblank, hnewline⟩ := hplain.words req.path
    (List.mem_cons_of_mem _ List.mem_cons_self)
  by_cases hparams : req.params = []
  · rw [query, if_pos hparams, List.append_nil]
    exact ⟨hblank, hnewline⟩
  · rw [query_of_params hparams]
    constructor
    · rw [List.mem_append, List.mem_cons, not_or, not_or]
      exact ⟨hblank, by decide, not_mem_intercalate (by decide) fun part hpart =>
        (hplain.queryPart part hpart).2.2.1⟩
    · exact no_newline_append (by decide) hnewline (no_newline_intercalate (by decide)
        fun part hpart => (hplain.queryPart part hpart).2.2.2)

theorem line_eq_intercalate (req : Request) : req.line =
    [' '].intercalate [req.type, req.path ++ req.query, req.protocol ++ '/' :: req.version] := by
  simp only [line, List.intercalate_cons_cons, List.intercalate_singleton, List.append_assoc,
    List.cons_append, List.nil_append]

theorem Plain.line (hplain : req.Plain) : req.line ≠ [] ∧ Trimmed req.line ∧
    ¬ HttpHeader.newline <:+: req.line := by
  obtain ⟨hne, -, hnewline⟩ := hplain.words req.type List.mem_cons_self
  obtain ⟨-, -, hnewline'⟩ := hplain.words req.protocol (by simp)
  obtain ⟨hne', -, hnewline''⟩ := hplain.words req.version (by simp)
  obtain ⟨hstart, hend⟩ := hplain.ends
  obtain ⟨c, rest, hcons⟩ := List.exists_cons_of_ne_nil hne
  obtain ⟨before, last, hconcat⟩ : ∃ before last, req.version = before ++ [last] :=
    ⟨_, _, (List.dropLast_append_getLast hne').symm⟩
  have hfirst : ¬ isAnySpace c = true := by
    rw [hcons] at hstart
    exact List.dropWhile_eq_self_iff.mp hstart (Nat.succ_pos _)
  have hlast : ¬ isAnySpace last = true := by
    intro hlast
    rw [hconcat, List.rdropWhile_concat_pos _ _ _ hlast] at hend
    have hle := (List.rdropWhile_prefix isAnySpace before).length_le
    rw [hend, List.length_append] at hle
    exact absurd hle (Nat.not_succ_le_self _)
  refine ⟨?_, ⟨?_, ?_⟩, ?_⟩
  · simp [Request.line]
  · simp only [Request.line, hcons, List.cons_append]
    exact List.dropWhile_cons_of_neg hfirst
  · simp only [Request.line, hconcat, ← List.append_assoc]
    exact List.rdropWhile_concat_neg _ _ _ hlast
  · have hthird : ¬ HttpHeader.newline <:+: req.protocol ++ '/' :: req.version :=
      no_newline_append (by decide) hnewline' hnewline''
    rw [line_eq_intercalate]
    apply no_newline_intercalate (by decide)
    intro part hpart
    simp only [List.mem_cons, List.not_mem_nil, or_false] at hpart
    rcases hpart with rfl | rfl | rfl
    · exact hnewline
    · exact hplain.target.2
    · exact hthird

theorem Plain.header (hplain : req.Plain) :
    ∀ part ∈ req.lines, part ≠ [] ∧ ¬ HttpHeader.newline <:+: part := by
  intro part hpart
  obtain ⟨kv, hkv, rfl⟩ := List.mem_map.mp hpart
  obtain ⟨hne, -, hparts⟩ := hplain.headers kv hkv
  obtain ⟨-, hnewline⟩ := hparts kv.1 List.mem_cons_self
  obtain ⟨-, hnewline'⟩ := hparts kv.2 (List.mem_cons_of_mem _ List.mem_cons_self)
  have hempty : ¬ HttpHeader.newline <:+: [] := fun hinfix =>
    List.cons_ne_nil _ _ (List.infix_nil.mp hinfix)
  have hbehind : ¬ HttpHeader.newline <:+: [] ++ ' ' :: kv.2 :=
    no_newline_append (by decide) hempty hnewline'
  refine ⟨by simp, ?_⟩
  rw [List.append_assoc]
  exact no_newline_append (by decide) hnewline hbehind

end Request

/-! ## The request that is read -/

variable {diff : Char → Char → Int} {hasher : List Char → Int} {findStr : FindStr}
variable {lshrink rshrink : List Char → Nat → List Char} {r : HttpRequest}

theorem parseParams_target (hdiff : OrdersChars diff)
    (hhash : StructMap.HashesStrings diff hasher) (hfind : FindsFirst findStr)
    (hplain : req.Plain) :
    ∃ map, parseParams diff hasher findStr (req.path ++ req.query) = some (req.path, map) ∧
      StructMap.Holds diff hasher .string 31 (pairStores id req.params) map := by
  obtain ⟨map, hnew, hmap⟩ : ∃ map, StructMap.new 31 = some map ∧
      StructMap.Holds diff hasher .string 31 [] map := StructMap.holds_new (by decide)
  by_cases hparams : req.params = []
  · have hnone := findOrNone_absent hfind hplain.path
    rw [Request.query, if_pos hparams, List.append_nil, hparams]
    refine ⟨map, ?_, hmap⟩
    simp only [parseParams, hnone, hnew, Option.bind_eq_bind, Option.bind_some, Option.pure_def]
  · obtain ⟨part, parts, hparts⟩ : ∃ part parts, req.queryParts = part :: parts :=
      List.exists_cons_of_ne_nil fun hnil => hparams (List.map_eq_nil_iff.mp hnil)
    have hpart := hplain.queryPart
    rw [hparts] at hpart
    have hword : ∀ p ∈ part :: parts, p ≠ [] ∧ '&' ∉ p := by
      intro p hp
      have hlong := (hpart p hp).1
      exact ⟨List.ne_nil_of_length_pos (by omega), (hpart p hp).2.1⟩
    obtain ⟨hfirst, hrest⟩ := List.forall_mem_cons.mp hword
    have hsplit := stringSplit_intercalate hfirst hrest
    rw [if_pos (hpart _ (List.getLast_mem _)).1, ← hparts] at hsplit
    have hstep : ∀ kv ∈ req.params, ∀ m, addParam diff hasher findStr m (kv.1 ++ '=' :: kv.2) =
        setString diff hasher m kv.1 (id kv.2) := fun kv hkv m =>
      addParam_pair hfind (hplain.params kv hkv).2.1 kv.2 m
    obtain ⟨map', hfold, h'⟩ := foldlM_pairs hdiff hhash hstep hmap
    have hlength : ¬ (part :: parts).length = 0 := Nat.succ_ne_zero _
    have hcollect : collect (addParam diff hasher findStr) req.queryParts map = some map' := by
      rw [collect, hparts, if_neg hlength, ← hparts]
      exact hfold
    refine ⟨map', ?_, h'⟩
    rw [Request.query_of_params hparams]
    simp only [parseParams, findOrNone_present hfind hplain.path, substr_front, substr_behind,
      hsplit, hnew, hcollect, Option.bind_eq_bind, Option.bind_some, Option.pure_def]

/-- The request is read when its headers are and its version is longer than a character. -/
theorem parseRequest_text (hdiff : OrdersChars diff)
    (hhash : StructMap.HashesStrings diff hasher) (hfind : FindsFirst findStr)
    (hshrinks : Shrinks lshrink rshrink) (hplain : req.Plain) :
    ∃ params map, StructMap.Holds diff hasher .string 31 (pairStores id req.params) params ∧
      StructMap.Holds diff hasher .string 31 [] map ∧
      parseRequest diff hasher findStr lshrink rshrink req.text =
        (req.lines.foldlM (addHeader diff hasher lshrink rshrink) map).bind fun headers =>
          if 1 < req.version.length then
            some ⟨req.type, req.path, params, req.protocol, req.version, headers⟩
          else none := by
  obtain ⟨map, hnew, hmap⟩ : ∃ map, StructMap.new 31 = some map ∧
      StructMap.Holds diff hasher .string 31 [] map := StructMap.holds_new (by decide)
  obtain ⟨params, hparams, hholds⟩ := parseParams_target hdiff hhash hfind hplain
  obtain ⟨hne, htrimmed, hnewline⟩ := hplain.line
  obtain ⟨hprotocol, hversion⟩ := hplain.protocol
  obtain ⟨hpne, hpblank, -⟩ := hplain.words req.protocol (by simp)
  obtain ⟨hvne, hvblank, -⟩ := hplain.words req.version (by simp)
  obtain ⟨htne, htblank, -⟩ := hplain.words req.type List.mem_cons_self
  obtain ⟨hpathne, -, -⟩ := hplain.words req.path (by simp)
  have hlines : stringSplit req.text HttpHeader.newline = some (req.line :: req.lines) :=
    stringSplit_lines ⟨hne, hnewline⟩ hplain.header
  have htrim := stringTrim_trimmed hshrinks htrimmed hne
  have hthird : ' ' ∉ req.protocol ++ '/' :: req.version := by
    rw [List.mem_append, List.mem_cons, not_or, not_or]
    exact ⟨hpblank, by decide, hvblank⟩
  have hlong : 1 < (req.protocol ++ '/' :: req.version).length := by
    have hpos : 1 ≤ req.protocol.length := List.length_pos_iff.mpr hpne
    rw [List.length_append, List.length_cons]
    omega
  have hwords : ∀ p ∈ [req.path ++ req.query, req.protocol ++ '/' :: req.version],
      p ≠ [] ∧ ' ' ∉ p := by
    intro p hp
    rcases List.mem_cons.mp hp with rfl | hp
    · exact ⟨List.append_ne_nil_of_left_ne_nil hpathne _, hplain.target.1⟩
    · rw [List.mem_singleton.mp hp]
      exact ⟨List.append_ne_nil_of_left_ne_nil hpne _, hthird⟩
  have hhead := stringSplit_intercalate ⟨htne, htblank⟩ hwords
  rw [← Request.line_eq_intercalate] at hhead
  have hreqHead : stringSplit req.line [' '] =
      some [req.type, req.path ++ req.query, req.protocol ++ '/' :: req.version] :=
    hhead.trans (congrArg some (if_pos hlong))
  have hversions : ∀ p ∈ [req.version], p ≠ [] ∧ '/' ∉ p :=
    List.forall_mem_singleton.mpr ⟨hvne, hversion⟩
  have hslash := stringSplit_intercalate ⟨hpne, hprotocol⟩ hversions
  have hthirdParts : stringSplit (req.protocol ++ '/' :: req.version) ['/'] =
      some (if 1 < req.version.length then [req.protocol, req.version] else [req.protocol]) := by
    rw [List.intercalate_cons_cons, List.intercalate_singleton, List.append_assoc] at hslash
    exact hslash
  refine ⟨params, map, hholds, hmap, ?_⟩
  simp only [parseRequest, hlines, htrim, hreqHead, hparams, hthirdParts, hnew, List.drop_one,
    List.tail_cons, List.getElem?_cons_zero, List.getElem?_cons_succ, Option.bind_eq_bind,
    Option.bind_some, Option.pure_def]
  congr 1
  funext headers
  split
  · rfl
  · rfl

/-- A round over the line of a header. -/
theorem addHeader_of_plain (hshrinks : Shrinks lshrink rshrink) (hplain : req.Plain) :
    ∀ kv ∈ req.headers, ∀ map,
      addHeader diff hasher lshrink rshrink map (kv.1 ++ [':', ' '] ++ kv.2) =
        if keptValue kv.2 = [] then none else setString diff hasher map kv.1 (keptValue kv.2) := by
  intro kv hkv map
  obtain ⟨hne, hcolon, hparts⟩ := hplain.headers kv hkv
  obtain ⟨hname, -⟩ := hparts kv.1 List.mem_cons_self
  obtain ⟨hvalue, -⟩ := hparts kv.2 (List.mem_cons_of_mem _ List.mem_cons_self)
  exact addHeader_line hshrinks hne hcolon hname hvalue map

/-- When something is kept of every value, the headers are read as what is kept of them. -/
theorem foldlM_lines (hdiff : OrdersChars diff) (hhash : StructMap.HashesStrings diff hasher)
    (hshrinks : Shrinks lshrink rshrink) (hplain : req.Plain)
    (hkept : ∀ kv ∈ req.headers, keptValue kv.2 ≠ []) {map : MapState}
    (hmap : StructMap.Holds diff hasher .string 31 [] map) :
    ∃ headers, req.lines.foldlM (addHeader diff hasher lshrink rshrink) map = some headers ∧
      StructMap.Holds diff hasher .string 31 (pairStores keptValue req.headers) headers := by
  refine foldlM_pairs hdiff hhash (fun kv hkv m => ?_) hmap
  rw [addHeader_of_plain hshrinks hplain kv hkv, if_neg (hkept kv hkv)]

theorem readable_of_describes (hdiff : OrdersChars diff)
    (hhash : StructMap.HashesStrings diff hasher) (hfind : FindsFirst findStr)
    (hshrinks : Shrinks lshrink rshrink) (hplain : req.Plain)
    (hparse : parseRequest diff hasher findStr lshrink rshrink req.text = some r)
    (hdescribes : req.Describes diff hasher r) : req.Readable := by
  obtain ⟨params, map, hparams, hmap, htext⟩ :=
    parseRequest_text hdiff hhash hfind hshrinks hplain
  rw [htext] at hparse
  obtain ⟨headers, hfold, hr⟩ := Option.bind_eq_some_iff.mp hparse
  by_cases hlong : 1 < req.version.length
  · rw [if_pos hlong] at hr
    cases hr
    have hkept : ∀ kv ∈ req.headers, keptValue kv.2 ≠ [] := by
      intro kv hkv hnil
      obtain ⟨m, hm⟩ := step_isSome_of_foldlM hfold _ (List.mem_map.mpr ⟨kv, hkv, rfl⟩)
      rw [addHeader_of_plain hshrinks hplain kv hkv, if_pos hnil] at hm
      cases hm
    obtain ⟨headers', hfold', hheaders⟩ := foldlM_lines hdiff hhash hshrinks hplain hkept hmap
    cases hfold.symm.trans hfold'
    obtain ⟨hnames, hvalues⟩ :=
      (Request.lists_iff hdiff hheaders hplain.names.1).mp hdescribes.headers
    obtain ⟨hkeys, -⟩ := (Request.lists_iff hdiff hparams hplain.names.2).mp hdescribes.params
    refine ⟨hlong, ?_, hnames, hkeys⟩
    intro kv hkv
    obtain ⟨hvalue, -⟩ := (hplain.headers kv hkv).2.2 kv.2
      (List.mem_cons_of_mem _ List.mem_cons_self)
    have hall := hvalues kv hkv
    refine ⟨?_, (keptValue_eq_iff hvalue).mp hall⟩
    rw [← hall]
    exact hkept kv hkv
  · rw [if_neg hlong] at hr
    cases hr

theorem describes_of_readable (hdiff : OrdersChars diff)
    (hhash : StructMap.HashesStrings diff hasher) (hfind : FindsFirst findStr)
    (hshrinks : Shrinks lshrink rshrink) (hplain : req.Plain) (hreadable : req.Readable) :
    ∃ r, parseRequest diff hasher findStr lshrink rshrink req.text = some r ∧
      req.Describes diff hasher r := by
  obtain ⟨params, map, hparams, hmap, htext⟩ :=
    parseRequest_text hdiff hhash hfind hshrinks hplain
  have hall : ∀ kv ∈ req.headers, keptValue kv.2 = kv.2 := by
    intro kv hkv
    obtain ⟨hvalue, -⟩ := (hplain.headers kv hkv).2.2 kv.2
      (List.mem_cons_of_mem _ List.mem_cons_self)
    exact (keptValue_eq_iff hvalue).mpr (hreadable.values kv hkv).2
  have hkept : ∀ kv ∈ req.headers, keptValue kv.2 ≠ [] := by
    intro kv hkv
    rw [hall kv hkv]
    exact (hreadable.values kv hkv).1
  obtain ⟨headers, hfold, hheaders⟩ := foldlM_lines hdiff hhash hshrinks hplain hkept hmap
  rw [hfold, Option.bind_some, if_pos hreadable.version] at htext
  refine ⟨_, htext, rfl, rfl, ?_, rfl, rfl, ?_⟩
  · exact (Request.lists_iff hdiff hparams hplain.names.2).mpr ⟨hreadable.keys, fun _ _ => rfl⟩
  · exact (Request.lists_iff hdiff hheaders hplain.names.1).mpr ⟨hreadable.names, hall⟩

end Text

/-- `GET /p?a=1&b= HTTP/1.1` with two headers -/
def pageRequest : Request :=
  ⟨['G', 'E', 'T'], ['/', 'p'], [(['a'], ['1']), (['b'], [])], ['H', 'T', 'T', 'P'],
    ['1', '.', '1'], [(['H', 'o', 's', 't'], ['a', '.', 'b']), (['A'], ['x', ',', ' ', '*'])]⟩

theorem plain_pageRequest : pageRequest.Plain := by
  constructor
  · decide
  · exact ⟨rfl, rfl⟩
  · decide
  · decide
  · decide
  · unfold Trimmed
    decide
  · decide

/-- `GET / HTTP/1.1` with `Host: localhost:80` -/
def portRequest : Request :=
  ⟨['G', 'E', 'T'], ['/'], [], ['H', 'T', 'T', 'P'], ['1', '.', '1'],
    [(['H', 'o', 's', 't'], ['l', 'o', 'c', 'a', 'l', 'h', 'o', 's', 't', ':', '8', '0'])]⟩

end Http

end JeffVm
