import Mathlib.Data.List.Infix

/-!
# Splitting and joining strings

`String.split` takes the text between the places where `strncmp` finds the delimiter, and goes one
character too far behind each of them; the text behind the last delimiter is a part when it is
longer than the delimiter. Sizes are far below those where an `int` overflows.
-/

set_option autoImplicit false

namespace JeffVm

/-- Whether `strncmp(str, delim, delim_len)` is 0, where the text of `str` ends without a NUL;
`none` is a read behind its end. A NUL in both ends the comparison. -/
def strncmp : (str delim : List Char) → Option Bool
  | _, [] => some true
  | [], _ :: _ => none
  | c :: str, d :: delim =>
    if c ≠ d then some false
    else if c = '\x00' then some true
    else strncmp str delim

/-- The loop of `_string_split` from a position on, with the text from `last_delim_end` up to it:
the parts, and the text behind the last delimiter. Behind a delimiter `++i` passes over a
character. `none` is a read behind the end, or a loop that needs more rounds. -/
def splitLoop (delim : List Char) :
    Nat → (part str : List Char) → Option (List (List Char) × List Char)
  | _, part, [] => some ([], part)
  | 0, _, _ :: _ => none
  | n + 1, part, c :: str =>
    match strncmp (c :: str) delim with
    | none => none
    | some false => splitLoop delim n (part ++ [c]) str
    | some true =>
      let text := (c :: str).drop delim.length
      (splitLoop delim n (text.take 1) (text.drop 1)).map fun parts => (part :: parts.1, parts.2)

/-- `_string_split`; `none` is a read behind the end. -/
def stringSplit (str delim : List Char) : Option (List (List Char)) :=
  (splitLoop delim str.length [] str).map fun parts =>
    if delim.length < parts.2.length then parts.1 ++ [parts.2] else parts.1

/-- `String.join` -/
def stringJoin (delim : List Char) (strs : List (List Char)) : List Char :=
  match strs with
  | [] => []
  | str :: strs => strs.foldl (fun result str => result ++ delim ++ str) str

/-- Splitting reads no character behind the string, joining the parts gives the string back, and no
part has the delimiter in it. -/
def SplitsBack (str delim : List Char) : Prop :=
  ∃ parts, stringSplit str delim = some parts ∧ stringJoin delim parts = str ∧
    ∀ part ∈ parts, ¬ delim <:+: part

/-- `strncmp` finds the delimiter at no position of `str`, in front of `behind`. -/
def Searched (delim str behind : List Char) : Prop :=
  ∀ rest, rest ≠ [] → rest <:+ str → strncmp (rest ++ behind) delim = some false

/-- A string read from the left, where `skipped` was not looked at: a delimiter is found where the
whole of it stands, none stands directly behind another one (unless a found one overlaps it), and
more characters than it has follow the last one. -/
inductive Separable (delim : List Char) : (skipped str : List Char) → Prop where
  | last {skipped str : List Char} : Searched delim str [] → ¬ delim <+: skipped ++ str →
      delim.length < (skipped ++ str).length → Separable delim skipped str
  | next {skipped str text : List Char} : Searched delim str (delim ++ text) →
      ¬ delim <+: skipped ++ str → Separable delim (text.take 1) (text.drop 1) →
      Separable delim skipped (str ++ (delim ++ text))

/-! ## Comparing -/

section

variable {delim str behind text : List Char} {c : Char}

theorem strncmp_append : strncmp (delim ++ text) delim = some true := by
  induction delim with
  | nil => cases text <;> rfl
  | cons d delim ih =>
    rw [List.cons_append, strncmp, if_neg (not_not.mpr rfl)]
    split
    · rfl
    · exact ih

theorem Searched.tail (h : Searched delim (c :: str) behind) : Searched delim str behind :=
  fun rest hne hrest => h rest hne (hrest.trans (List.suffix_cons c str))

theorem searched_cons (h : strncmp (c :: str ++ behind) delim = some false)
    (hstr : Searched delim str behind) : Searched delim (c :: str) behind := by
  intro rest hne hrest
  rcases List.suffix_cons_iff.mp hrest with rfl | hrest
  · exact h
  · exact hstr rest hne hrest

theorem searched_nil : Searched delim [] behind :=
  fun _ hne hrest => absurd (List.suffix_nil.mp hrest) hne

/-- From a position on, `strncmp` finds nothing, or there is the first place where it does not say
no. -/
theorem searched_or_first (delim str : List Char) : Searched delim str [] ∨
    ∃ before behind, str = before ++ behind ∧ behind ≠ [] ∧ Searched delim before behind ∧
      strncmp behind delim ≠ some false := by
  induction str with
  | nil => exact .inl searched_nil
  | cons c str ih =>
    by_cases hhead : strncmp (c :: str) delim = some false
    · rcases ih with hsearched | ⟨before, behind, rfl, hne, hsearched, hfirst⟩
      · exact .inl (searched_cons (by rwa [List.append_nil]) hsearched)
      · exact .inr ⟨c :: before, behind, rfl, hne, searched_cons hhead hsearched, hfirst⟩
    · exact .inr ⟨[], c :: str, rfl, List.cons_ne_nil c str, searched_nil, hhead⟩

/-- There is only one such place. -/
theorem Searched.unique {before before' behind behind' : List Char}
    (h : Searched delim before behind) (h' : Searched delim before' behind')
    (heq : before ++ behind = before' ++ behind') (hbehind : strncmp behind delim ≠ some false)
    (hbehind' : strncmp behind' delim ≠ some false) : before = before' ∧ behind = behind' := by
  induction before generalizing before' with
  | nil =>
    cases before' with
    | nil => exact ⟨rfl, heq⟩
    | cons c before' =>
      rw [List.nil_append] at heq
      rw [heq] at hbehind
      exact absurd (h' _ (List.cons_ne_nil c before') (List.suffix_refl _)) hbehind
  | cons c before ih =>
    cases before' with
    | nil =>
      rw [List.nil_append] at heq
      rw [← heq] at hbehind'
      exact absurd (h _ (List.cons_ne_nil c before) (List.suffix_refl _)) hbehind'
    | cons c' before' =>
      obtain ⟨rfl, htail⟩ := List.cons.inj heq
      obtain ⟨rfl, rfl⟩ := ih h.tail h'.tail htail
      exact ⟨rfl, rfl⟩

/-! ## The loop -/

variable {skipped part last : List Char} {parts : List (List Char)} {n : Nat}

/-- In a part the delimiter can only stand at the character that was not looked at. -/
theorem isInfix_iff_isPrefix (hdelim : delim ≠ []) (hskipped : skipped.length ≤ 1)
    (hsearched : Searched delim str behind) :
    delim <:+: skipped ++ str ↔ delim <+: skipped ++ str := by
  constructor
  · rintro ⟨before, after, heq⟩
    rcases before with _ | ⟨c, before⟩
    · exact ⟨after, heq⟩
    · have hlong : (delim ++ after).length ≤ str.length := by
        have hlength := congrArg List.length heq
        simp only [List.length_append, List.length_cons] at hlength ⊢
        omega
      have hsuffix : delim ++ after <:+ skipped ++ str := by
        rw [← heq, List.append_assoc]
        exact List.suffix_append _ _
      have hrest := List.suffix_of_suffix_length_le hsuffix (List.suffix_append skipped str) hlong
      have hfound := hsearched _ (List.append_ne_nil_of_left_ne_nil hdelim after) hrest
      rw [List.append_assoc, strncmp_append] at hfound
      cases hfound
  · exact List.IsPrefix.isInfix

theorem splitLoop_searched (hsearched : Searched delim str behind) :
    splitLoop delim (n + str.length) part (str ++ behind) =
      splitLoop delim n (part ++ str) behind := by
  induction str generalizing part with
  | nil => rw [List.append_nil]; rfl
  | cons c str ih =>
    have hhead := hsearched _ (List.cons_ne_nil c str) (List.suffix_refl _)
    rw [List.cons_append] at hhead
    rw [List.length_cons, ← Nat.add_assoc, List.cons_append, splitLoop, hhead]
    dsimp only
    rw [ih hsearched.tail, List.append_assoc, List.singleton_append]

theorem splitLoop_first (hbehind : behind ≠ []) : splitLoop delim (n + 1) part behind =
    (strncmp behind delim).bind fun found =>
      if found then (splitLoop delim n ((behind.drop delim.length).take 1)
        ((behind.drop delim.length).drop 1)).map fun parts => (part :: parts.1, parts.2)
      else splitLoop delim n (part ++ behind.take 1) (behind.drop 1) := by
  obtain ⟨c, behind, rfl⟩ := List.exists_cons_of_ne_nil hbehind
  rw [splitLoop]
  rcases strncmp (c :: behind) delim with _ | _ | _
  · rfl
  · rfl
  · rfl

/-- What the loop leaves is as it should be. -/
structure Leaves (delim part : List Char) (parts : List (List Char)) (last str : List Char) :
    Prop where
  long : delim.length < last.length
  joined : delim.intercalate (parts ++ [last]) = part ++ str
  clean : ∀ part ∈ parts ++ [last], ¬ delim <:+: part

theorem separable_searched (hdelim : delim ≠ []) (hsearched : Searched delim str []) :
    Separable delim skipped str ↔
      ¬ delim <+: skipped ++ str ∧ delim.length < (skipped ++ str).length := by
  constructor
  · intro h
    cases h with
    | last _ hstarts hlong => exact ⟨hstarts, hlong⟩
    | next =>
      have hfound := hsearched _ (List.append_ne_nil_of_left_ne_nil hdelim _)
        (List.suffix_append _ _)
      rw [List.append_assoc, strncmp_append] at hfound
      cases hfound
  · rintro ⟨hstarts, hlong⟩
    exact .last hsearched hstarts hlong

theorem separable_first (hsearched : Searched delim str behind) (hbehind : behind ≠ [])
    (hfirst : strncmp behind delim ≠ some false) : Separable delim skipped (str ++ behind) ↔
      ∃ text, behind = delim ++ text ∧ ¬ delim <+: skipped ++ str ∧
        Separable delim (text.take 1) (text.drop 1) := by
  constructor
  · intro h
    generalize hall : str ++ behind = all at h
    cases h with
    | last hall_searched =>
      rw [← hall] at hall_searched
      have hnot := hall_searched behind hbehind (List.suffix_append str behind)
      rw [List.append_nil] at hnot
      exact absurd hnot hfirst
    | @next _ str' text hsearched' hstarts hrest =>
      have hfound : strncmp (delim ++ text) delim ≠ some false := by
        rw [strncmp_append]
        exact fun heq => Bool.noConfusion (Option.some.inj heq)
      obtain ⟨rfl, rfl⟩ := hsearched.unique hsearched' hall hfirst hfound
      exact ⟨text, rfl, hstarts, hrest⟩
  · rintro ⟨text, rfl, hstarts, hrest⟩
    exact .next hsearched hstarts hrest

theorem leaves_cons (hdelim : delim ≠ []) (hskipped : skipped.length ≤ 1)
    (hsearched : Searched delim str behind) :
    Leaves delim skipped ((skipped ++ str) :: parts) last (str ++ behind) ↔
      ∃ text, behind = delim ++ text ∧ ¬ delim <+: skipped ++ str ∧
        Leaves delim (text.take 1) parts last (text.drop 1) := by
  have hjoin : delim.intercalate ((skipped ++ str) :: parts ++ [last]) =
      skipped ++ (str ++ (delim ++ delim.intercalate (parts ++ [last]))) := by
    rw [List.cons_append, List.intercalate_cons_of_ne_nil (by simp)]
    simp only [List.append_assoc]
  constructor
  · rintro ⟨hlong, hjoined, hclean⟩
    rw [hjoin] at hjoined
    have hbehind := List.append_cancel_left (List.append_cancel_left hjoined)
    obtain ⟨hpart, hclean⟩ := List.forall_mem_cons.mp hclean
    refine ⟨delim.intercalate (parts ++ [last]), hbehind.symm, ?_, hlong, ?_, hclean⟩
    · rw [← isInfix_iff_isPrefix hdelim hskipped hsearched]
      exact hpart
    · rw [List.take_append_drop]
  · rintro ⟨text, rfl, hstarts, hlong, hjoined, hclean⟩
    rw [List.take_append_drop] at hjoined
    refine ⟨hlong, ?_, List.forall_mem_cons.mpr ⟨?_, hclean⟩⟩
    · rw [hjoin, hjoined]
    · rw [isInfix_iff_isPrefix hdelim hskipped hsearched]
      exact hstarts

theorem leaves_iff_separable (hdelim : delim ≠ []) (hn : str.length ≤ n)
    (hskipped : skipped.length ≤ 1) : (∃ parts last,
      splitLoop delim n skipped str = some (parts, last) ∧ Leaves delim skipped parts last str) ↔
        Separable delim skipped str := by
  generalize hk : str.length = k
  induction k using Nat.strong_induction_on generalizing str skipped n with
  | _ k ih =>
    rcases searched_or_first delim str with hsearched |
      ⟨before, behind, rfl, hne, hsearched, hfirst⟩
    · obtain ⟨m, rfl⟩ := Nat.exists_eq_add_of_le' hn
      have hloop : splitLoop delim (m + str.length) skipped str = some ([], skipped ++ str) := by
        have hrest : splitLoop delim (m + str.length) skipped (str ++ []) =
            splitLoop delim m (skipped ++ str) [] := splitLoop_searched hsearched
        rw [List.append_nil] at hrest
        rw [hrest]
        cases m <;> rfl
      rw [hloop, separable_searched hdelim hsearched]
      constructor
      · rintro ⟨parts, last, heq, hlong, -, hclean⟩
        cases heq
        refine ⟨?_, hlong⟩
        rw [← isInfix_iff_isPrefix hdelim hskipped hsearched]
        exact hclean _ List.mem_cons_self
      · rintro ⟨hstarts, hlong⟩
        refine ⟨[], skipped ++ str, rfl, hlong, List.intercalate_singleton, ?_⟩
        rw [← isInfix_iff_isPrefix hdelim hskipped hsearched] at hstarts
        exact List.forall_mem_singleton.mpr hstarts
    · rw [List.length_append] at hn hk
      have hpos : 1 ≤ behind.length := List.length_pos_iff.mpr hne
      obtain ⟨m, rfl⟩ : ∃ m, n = m + 1 + before.length := ⟨n - 1 - before.length, by omega⟩
      rw [splitLoop_searched hsearched, splitLoop_first hne, separable_first hsearched hne hfirst]
      have hrest : ((behind.drop delim.length).drop 1).length < k := by
        simp only [List.length_drop]
        omega
      have hrounds : ((behind.drop delim.length).drop 1).length ≤ m := by
        simp only [List.length_drop]
        omega
      have hih := ih _ hrest hrounds (List.length_take_le 1 (behind.drop delim.length)) rfl
      constructor
      · rintro ⟨parts, last, hloop, hleaves⟩
        rcases hcmp : strncmp behind delim with _ | found
        · rw [hcmp] at hloop
          cases hloop
        obtain rfl : found = true := by
          cases found with
          | true => rfl
          | false => exact absurd hcmp hfirst
        rw [hcmp, Option.bind_some, if_pos rfl] at hloop
        obtain ⟨⟨parts', last'⟩, hrun, heq⟩ := Option.map_eq_some_iff.mp hloop
        cases heq
        obtain ⟨text, rfl, hstarts, hleaves⟩ := (leaves_cons hdelim hskipped hsearched).mp hleaves
        rw [List.drop_left] at hrun hih
        exact ⟨text, rfl, hstarts, hih.mp ⟨parts', last', hrun, hleaves⟩⟩
      · rintro ⟨text, rfl, hstarts, hseparable⟩
        rw [List.drop_left] at hih ⊢
        obtain ⟨parts, last, hloop, hleaves⟩ := hih.mpr hseparable
        refine ⟨(skipped ++ before) :: parts, last, ?_, ?_⟩
        · rw [strncmp_append, Option.bind_some, if_pos rfl, hloop]
          rfl
        · exact (leaves_cons hdelim hskipped hsearched).mpr ⟨text, rfl, hstarts, hleaves⟩

/-- Without the last text the parts do not make up the string. -/
theorem length_parts_lt (hn : str.length ≤ n)
    (hloop : splitLoop delim n skipped str = some (parts, last)) (hparts : parts ≠ []) :
    (delim.intercalate parts).length < (skipped ++ str).length := by
  generalize hk : str.length = k
  induction k using Nat.strong_induction_on generalizing str skipped n parts last with
  | _ k ih =>
    rcases searched_or_first delim str with hsearched |
      ⟨before, behind, rfl, hne, hsearched, hfirst⟩
    · obtain ⟨m, rfl⟩ := Nat.exists_eq_add_of_le' hn
      have hrest : splitLoop delim (m + str.length) skipped (str ++ []) =
          splitLoop delim m (skipped ++ str) [] := splitLoop_searched hsearched
      rw [List.append_nil, hloop] at hrest
      cases m with
      | zero =>
        cases hrest
        exact absurd rfl hparts
      | succ m =>
        cases hrest
        exact absurd rfl hparts
    · rw [List.length_append] at hn hk
      have hpos : 1 ≤ behind.length := List.length_pos_iff.mpr hne
      obtain ⟨m, rfl⟩ : ∃ m, n = m + 1 + before.length := ⟨n - 1 - before.length, by omega⟩
      rw [splitLoop_searched hsearched, splitLoop_first hne] at hloop
      have hrest : ((behind.drop delim.length).drop 1).length < k := by
        simp only [List.length_drop]
        omega
      have hrounds : ((behind.drop delim.length).drop 1).length ≤ m := by
        simp only [List.length_drop]
        omega
      rcases hcmp : strncmp behind delim with _ | found
      · rw [hcmp] at hloop
        cases hloop
      obtain rfl : found = true := by
        cases found with
        | true => rfl
        | false => exact absurd hcmp hfirst
      rw [hcmp, Option.bind_some, if_pos rfl] at hloop
      obtain ⟨⟨parts', last'⟩, hrun, heq⟩ := Option.map_eq_some_iff.mp hloop
      cases heq
      by_cases hparts' : parts' = []
      · subst hparts'
        rw [List.intercalate_singleton]
        simp only [List.length_append]
        omega
      · have hlt := ih _ hrest hrounds hrun hparts' rfl
        rw [List.take_append_drop, List.length_drop] at hlt
        rw [List.intercalate_cons_of_ne_nil hparts']
        simp only [List.length_append]
        omega

theorem stringJoin_eq (delim : List Char) (strs : List (List Char)) :
    stringJoin delim strs = delim.intercalate strs := by
  cases strs with
  | nil => rfl
  | cons str strs =>
    rw [stringJoin]
    induction strs generalizing str with
    | nil => exact List.intercalate_singleton.symm
    | cons str' strs ih =>
      have hfirst : delim.intercalate ((str ++ delim ++ str') :: strs) =
          str ++ delim ++ delim.intercalate (str' :: strs) := by
        cases strs with
        | nil => simp
        | cons str'' strs => simp
      rw [List.foldl_cons, ih, hfirst, List.intercalate_cons_cons]

end

end JeffVm
