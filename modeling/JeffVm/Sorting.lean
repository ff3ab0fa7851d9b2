import Mathlib.Data.List.Perm.Basic

/-!
# The sort of the library

`sort` is a quicksort in place. `_partition` returns one less than the final position of the
pivot, so the pivot stays in the right part, and a part shrinks when an element is smaller than
its last one. Elements and indices are ints; an index stays between `-1` and the length.
-/

set_option autoImplicit false

namespace JeffVm

namespace Sorting

/-! ## The array -/

/-- `seq[i]`; `none` is an index out of bounds. -/
def get (seq : List Int) (i : Int) : Option Int :=
  if i < 0 then none else seq[i.toNat]?

/-- `seq[i] = v` -/
def set (seq : List Int) (i v : Int) : Option (List Int) :=
  if i < 0 ∨ seq.length ≤ i.toNat then none else some (seq.set i.toNat v)

/-- The three assignments with `tmp`. -/
def swap (seq : List Int) (i j : Int) : Option (List Int) :=
  match get seq i, get seq j with
  | some tmp, some v =>
    match set seq i v with
    | some seq => set seq j tmp
    | none => none
  | _, _ => none

/-- The loop of `_partition`; `none` is an index out of bounds, or a loop that needs more
rounds. -/
def partitionLoop (x h : Int) : Nat → List Int → Int → Int → Option (List Int × Int)
  | 0, _, _, _ => none
  | n + 1, seq, i, j =>
    if j < h then
      match get seq j with
      | none => none
      | some y =>
        if y < x then
          match swap seq (i + 1) j with
          | none => none
          | some seq => partitionLoop x h n seq (i + 1) (j + 1)
        else partitionLoop x h n seq i (j + 1)
    else some (seq, i)

/-- `_partition` -/
def partition (seq : List Int) (l h : Int) : Option (List Int × Int) :=
  match get seq h with
  | none => none
  | some x =>
    match partitionLoop x h ((h - l).toNat + 1) seq (l - 1) l with
    | none => none
    | some (seq, i) => (swap seq (i + 1) h).map fun seq => (seq, i + 1 - 1)

/-- `_quick_sort`, with the array as it leaves it; `none` is an index out of bounds, or calls that
are nested deeper. -/
def quickSort : Nat → List Int → Int → Int → Option (List Int)
  | 0, _, _, _ => none
  | n + 1, seq, l, h =>
    if l < h then
      match partition seq l h with
      | none => none
      | some (seq, p) =>
        match quickSort n seq l p with
        | none => none
        | some seq => quickSort n seq (p + 1) h
    else some seq

/-- `sort` -/
def sort (n : Nat) (seq : List Int) : Option (List Int) := quickSort n seq 0 (seq.length - 1)

/-- The call ends, with no index out of bounds, and the array is sorted. -/
def Sorts (seq : List Int) : Prop :=
  ∃ n sorted, sort n seq = some sorted ∧ sorted.Pairwise (· ≤ ·) ∧ sorted.Perm seq

variable {seq a b c pre post small big rest : List Int} {x y u v w : Int}

theorem get_append (a b : List Int) (u : Int) : get (a ++ u :: b) a.length = some u := by
  have hnat : ¬ (a.length : Int) < 0 := by omega
  rw [get, if_neg hnat, Int.toNat_natCast, List.getElem?_append_right (Nat.le_refl _),
    Nat.sub_self, List.getElem?_cons_zero]

theorem set_append (a b : List Int) (u v : Int) :
    set (a ++ u :: b) a.length v = some (a ++ v :: b) := by
  have hin : ¬ ((a.length : Int) < 0 ∨ (a ++ u :: b).length ≤ (a.length : Int).toNat) := by
    simp only [List.length_append, List.length_cons, Int.toNat_natCast]
    omega
  rw [set, if_neg hin, Int.toNat_natCast, List.set_append_right _ _ (Nat.le_refl _), Nat.sub_self,
    List.set_cons_zero]

theorem swap_self (a b : List Int) (u : Int) :
    swap (a ++ u :: b) a.length a.length = some (a ++ u :: b) := by
  simp only [swap, get_append, set_append]

theorem swap_append (a b c : List Int) (u v : Int) :
    swap (a ++ u :: (b ++ v :: c)) a.length ((a ++ u :: b).length : Nat) =
      some (a ++ v :: (b ++ u :: c)) := by
  have hsplit : ∀ w : Int, a ++ w :: (b ++ v :: c) = (a ++ w :: b) ++ v :: c := by
    intro w
    simp only [List.append_assoc, List.cons_append]
  have hlength : ∀ w : Int, (a ++ w :: b).length = (a ++ u :: b).length := by
    intro w
    simp only [List.length_append, List.length_cons]
  have hget : get (a ++ u :: (b ++ v :: c)) ((a ++ u :: b).length : Nat) = some v := by
    rw [hsplit]
    exact get_append _ _ _
  have hset : set (a ++ v :: (b ++ v :: c)) ((a ++ u :: b).length : Nat) u =
      some (a ++ v :: (b ++ u :: c)) := by
    rw [hsplit, ← hlength v, set_append]
    simp only [List.append_assoc, List.cons_append]
  simp only [swap, get_append, hget, set_append, hset]

/-! ## Partition -/

/-- The places of the loop variables, and the elements: those that are smaller than the pivot, then
the others, then those that are still to be looked at. -/
structure LoopAt (pre post small big rest seq : List Int) (x h i j : Int) : Prop where
  array : seq = pre ++ small ++ (big ++ (rest ++ x :: post))
  front : i + 1 = (pre ++ small).length
  place : j = (pre ++ small).length + big.length
  last : h = j + rest.length
  smaller : ∀ s ∈ small, s < x
  others : ∀ b ∈ big, x ≤ b

theorem LoopAt.get (h : LoopAt pre post small big (y :: rest) seq x u v w) :
    get seq w = some y := by
  rw [h.array, h.place, List.cons_append, ← List.append_assoc, ← Int.natCast_add,
    ← List.length_append]
  exact get_append _ _ _

theorem LoopAt.next (h : LoopAt pre post small big (y :: rest) seq x u v w) (hy : x ≤ y) :
    LoopAt pre post small (big ++ [y]) rest seq x u v (w + 1) := by
  obtain ⟨hseq, hi, hj, hh, hsmall, hbig⟩ := h
  constructor
  · rw [hseq]
    simp only [List.append_assoc, List.cons_append, List.nil_append]
  · exact hi
  · have hlength : (big ++ [y]).length = big.length + 1 := List.length_append
    omega
  · rw [List.length_cons] at hh
    omega
  · exact hsmall
  · intro b hb
    cases List.mem_append.mp hb with
    | inl hb => exact hbig b hb
    | inr hb =>
      rw [List.mem_singleton.mp hb]
      exact hy

/-- The first of the others makes room for an element that is smaller. -/
theorem LoopAt.swap (h : LoopAt pre post small big (y :: rest) seq x u v w) (hy : y < x) :
    ∃ seq' big', swap seq (v + 1) w = some seq' ∧ big'.Perm big ∧
      LoopAt pre post (small ++ [y]) big' rest seq' x u (v + 1) (w + 1) := by
  obtain ⟨hseq, hi, hj, hh, hsmall, hbig⟩ := h
  have hsmall' : ∀ s ∈ small ++ [y], s < x := by
    intro s hs
    cases List.mem_append.mp hs with
    | inl hs => exact hsmall s hs
    | inr hs =>
      rw [List.mem_singleton.mp hs]
      exact hy
  have hlength : (pre ++ (small ++ [y])).length = (pre ++ small).length + 1 := by
    simp only [List.length_append, List.length_singleton, Nat.add_assoc]
  rw [List.length_cons] at hh
  cases big with
  | nil =>
    refine ⟨seq, [], ?_, List.Perm.refl _, ?_, ?_, ?_, ?_, hsmall', hbig⟩
    · have hplace : w = ((pre ++ small).length : Nat) := by
        rw [hj, List.length_nil]
        omega
      rw [hseq, hi, hplace]
      exact swap_self _ _ _
    · rw [hseq]
      simp only [List.append_assoc, List.cons_append, List.nil_append]
    · omega
    · rw [hj, hlength, List.length_nil]
      omega
    · omega
  | cons b big =>
    refine ⟨pre ++ small ++ y :: (big ++ b :: (rest ++ x :: post)), big ++ [b], ?_,
      List.perm_append_singleton b big, ?_, ?_, ?_, ?_, hsmall', ?_⟩
    · have hplace : w = ((pre ++ small ++ b :: big).length : Nat) := by
        rw [hj, ← Int.natCast_add, ← List.length_append]
      rw [hseq, hi, hplace]
      exact swap_append _ _ _ _ _
    · simp only [List.append_assoc, List.cons_append, List.nil_append]
    · omega
    · have hcons : (b :: big).length = big.length + 1 := List.length_cons
      have hback : (big ++ [b]).length = big.length + 1 := List.length_append
      omega
    · omega
    · intro e he
      exact hbig e ((List.perm_append_singleton b big).mem_iff.mp he)

theorem partitionLoop_spec : ∀ {rest small big seq : List Int} {i j h : Int} (n : Nat),
    LoopAt pre post small big rest seq x h i j → rest.length < n →
    ∃ seq' small' big' i' j', partitionLoop x h n seq i j = some (seq', i') ∧
      LoopAt pre post small' big' [] seq' x h i' j' ∧
      (small' ++ big').Perm (small ++ big ++ rest) := by
  intro rest
  induction rest with
  | nil =>
    intro small big seq i j h n hat hn
    obtain ⟨n, rfl⟩ := Nat.exists_eq_succ_of_ne_zero (Nat.ne_of_gt hn)
    refine ⟨seq, small, big, i, j, ?_, hat, by rw [List.append_nil]⟩
    have hend : ¬ j < h := by
      rw [hat.last, List.length_nil]
      omega
    rw [partitionLoop, if_neg hend]
  | cons y rest ih =>
    intro small big seq i j h n hat hn
    obtain ⟨n, rfl⟩ := Nat.exists_eq_succ_of_ne_zero (Nat.ne_of_gt (Nat.zero_lt_of_lt hn))
    have hlt : j < h := by
      rw [hat.last, List.length_cons]
      omega
    rw [List.length_cons] at hn
    rw [partitionLoop, if_pos hlt, hat.get]
    by_cases hy : y < x
    · obtain ⟨seq₁, big₁, hswap, hperm₁, hat₁⟩ := hat.swap hy
      obtain ⟨seq', small', big', i', j', hloop, hat', hperm⟩ := ih n hat₁ (by omega)
      refine ⟨seq', small', big', i', j', ?_, hat', ?_⟩
      · simp only [if_pos hy, hswap, hloop]
      · refine hperm.trans ?_
        have hmove : (small ++ [y] ++ big₁ ++ rest).Perm (small ++ ([y] ++ big) ++ rest) := by
          rw [List.append_assoc small]
          exact ((hperm₁.append_left [y]).append_left small).append_right rest
        refine hmove.trans ?_
        rw [List.append_assoc, List.append_assoc, List.append_assoc]
        exact (@List.perm_middle _ y big rest).symm.append_left small
    · obtain ⟨seq', small', big', i', j', hloop, hat', hperm⟩ :=
        ih n (hat.next (Int.not_lt.mp hy)) (by omega)
      refine ⟨seq', small', big', i', j', ?_, hat', ?_⟩
      · simp only [if_neg hy, hloop]
      · refine hperm.trans (List.Perm.of_eq ?_)
        simp only [List.append_assoc, List.cons_append, List.nil_append]

/-- `_partition` gives one less than the place of the pivot. -/
theorem partition_spec (pre body post : List Int) (x : Int) :
    ∃ small big,
      partition (pre ++ (body ++ x :: post)) pre.length (pre.length + body.length) =
        some (pre ++ (small ++ (x :: big ++ post)), (pre.length + small.length - 1 : Int)) ∧
      (small ++ big).Perm body ∧ (∀ s ∈ small, s < x) ∧ ∀ b ∈ big, x ≤ b := by
  have hpivot : get (pre ++ (body ++ x :: post)) (pre.length + body.length) = some x := by
    rw [← List.append_assoc, ← Int.natCast_add, ← List.length_append]
    exact get_append _ _ _
  have hstart : LoopAt pre post [] [] body (pre ++ (body ++ x :: post)) x
      (pre.length + body.length) (pre.length - 1) pre.length := by
    constructor
    · rw [List.append_nil, List.nil_append]
    · rw [List.append_nil]
      omega
    · simp only [List.append_nil, List.length_nil]
      omega
    · rfl
    · exact fun _ hs => absurd hs List.not_mem_nil
    · exact fun _ hb => absurd hb List.not_mem_nil
  have hrounds : body.length < ((pre.length + body.length : Int) - pre.length).toNat + 1 := by
    omega
  obtain ⟨seq, small, big, i, j, hloop, ⟨hseq, hi, hj, hh, hsmall, hbig⟩, hperm⟩ :=
    partitionLoop_spec _ hstart hrounds
  rw [List.nil_append, List.nil_append] at hperm
  have hlast : (i + 1 - 1 : Int) = pre.length + small.length - 1 := by
    rw [hi, List.length_append, Int.natCast_add]
  rw [List.nil_append] at hseq
  cases big with
  | nil =>
    have hplace : (pre.length + body.length : Int) = ((pre ++ small).length : Nat) := by
      rw [hh, hj, List.length_nil]
      omega
    have hswap : swap seq (i + 1) (pre.length + body.length) =
        some (pre ++ (small ++ ([x] ++ post))) := by
      rw [hseq, hi, hplace, List.nil_append]
      exact (swap_self _ _ _).trans (by rw [List.append_assoc]; rfl)
    refine ⟨small, [], ?_, hperm, hsmall, hbig⟩
    simp only [partition, hpivot, hloop, hswap, Option.map_some, hlast]
  | cons b big =>
    have hplace : (pre.length + body.length : Int) = ((pre ++ small ++ b :: big).length : Nat) := by
      rw [hh, hj, List.length_nil, Int.natCast_zero, Int.add_zero, ← Int.natCast_add,
        ← List.length_append]
    have hswap : swap seq (i + 1) (pre.length + body.length) =
        some (pre ++ (small ++ (x :: (big ++ [b]) ++ post))) := by
      rw [hseq, hi, hplace]
      refine (swap_append _ _ _ _ _).trans ?_
      simp only [List.append_assoc, List.cons_append, List.nil_append]
    have hrotate := List.perm_append_singleton b big
    refine ⟨small, big ++ [b], ?_, (hrotate.append_left small).trans hperm, hsmall, ?_⟩
    · simp only [partition, hpivot, hloop, hswap, Option.map_some, hlast]
    · exact fun e he => hbig e (hrotate.mem_iff.mp he)

/-! ## The recursion -/

/-- The call that sorts `mid` where it stands. -/
def sortRange (n : Nat) (pre mid post : List Int) : Option (List Int) :=
  quickSort n (pre ++ (mid ++ post)) pre.length (pre.length + mid.length - 1)

/-- The elements that a call has on the left of the pivot and, with the pivot, on its right. -/
structure Parted (body : List Int) (x : Int) (small big : List Int) : Prop where
  elements : (small ++ big).Perm body
  smaller : ∀ s ∈ small, s < x
  others : ∀ b ∈ big, x ≤ b

theorem Parted.perm (h : Parted pre x small big) : (small ++ x :: big).Perm (pre ++ [x]) :=
  (List.perm_middle.trans (h.elements.cons x)).trans (List.perm_append_singleton x pre).symm

theorem exists_pivot {mid : List Int} (h : ¬ mid.length ≤ 1) :
    ∃ body x, body ≠ [] ∧ mid = body ++ [x] := by
  have hmid : mid ≠ [] := by
    rintro rfl
    exact h (Nat.zero_le _)
  refine ⟨mid.dropLast, mid.getLast hmid, ?_, (List.dropLast_append_getLast hmid).symm⟩
  intro hnil
  have hlength : mid.dropLast.length = mid.length - 1 := List.length_dropLast
  rw [hnil, List.length_nil] at hlength
  omega

/-- An array of at most one element stays as it is. -/
theorem sortRange_short {mid : List Int} (n : Nat) (hmid : mid.length ≤ 1) :
    sortRange (n + 1) pre mid post = some (pre ++ (mid ++ post)) := by
  have hshort : ¬ (pre.length : Int) < pre.length + mid.length - 1 := by omega
  rw [sortRange, quickSort, if_neg hshort]

/-- A longer one is parted, and then the elements before the pivot are sorted, and the others with
the pivot. -/
theorem sortRange_step {body : List Int} (hbody : body ≠ []) (pre post : List Int) (x : Int) :
    ∃ small big, Parted body x small big ∧ ∀ n,
      sortRange (n + 1) pre (body ++ [x]) post =
        match sortRange n pre small (x :: big ++ post) with
        | none => none
        | some seq => quickSort n seq (pre.length + small.length)
            (pre.length + small.length + (x :: big).length - 1) := by
  obtain ⟨small, big, hpartition, helements, hsmall, hbig⟩ := partition_spec pre body post x
  have hlong : 0 < body.length := List.length_pos_iff.mpr hbody
  have hsize : small.length + big.length = body.length := by
    rw [← List.length_append, helements.length_eq]
  have hh : (pre.length + (body ++ [x]).length - 1 : Int) = pre.length + body.length := by
    rw [List.length_append, List.length_singleton]
    omega
  have hlast : (pre.length + small.length + (x :: big).length - 1 : Int) =
      pre.length + body.length := by
    rw [List.length_cons]
    omega
  have hlt : (pre.length : Int) < pre.length + body.length := by omega
  refine ⟨small, big, ⟨helements, hsmall, hbig⟩, ?_⟩
  intro n
  have hmiddle : (pre.length + small.length - 1 + 1 : Int) = pre.length + small.length := by omega
  rw [sortRange, hh, hlast, quickSort, if_pos hlt, List.append_assoc, List.singleton_append]
  simp only [hpartition, hmiddle, sortRange]

/-- The second of the calls, after the first has left `sorted` in the place of the smaller ones. -/
theorem quickSort_second {sorted : List Int} (n : Nat) (hlength : sorted.length = small.length) :
    quickSort n (pre ++ (sorted ++ (x :: big ++ post))) (pre.length + small.length)
      (pre.length + small.length + (x :: big).length - 1) =
        sortRange n (pre ++ sorted) (x :: big) post := by
  rw [sortRange, List.length_append, hlength, Int.natCast_add, List.append_assoc]

/-- What a call leaves: the range has its elements in ascending order, and the array is otherwise
as it was. -/
theorem sortRange_sorts : ∀ (n : Nat) {pre mid post seq : List Int},
    sortRange n pre mid post = some seq →
    ∃ sorted, seq = pre ++ (sorted ++ post) ∧ sorted.Perm mid ∧ sorted.Pairwise (· ≤ ·) := by
  intro n
  induction n with
  | zero =>
    intro pre mid post seq h
    cases h
  | succ n ih =>
    intro pre mid post seq h
    by_cases hshort : mid.length ≤ 1
    · rw [sortRange_short n hshort] at h
      cases h
      refine ⟨mid, rfl, List.Perm.refl _, ?_⟩
      match mid, hshort with
      | [], _ => exact List.Pairwise.nil
      | [x], _ => exact List.pairwise_singleton _ _
    · obtain ⟨body, x, hbody, rfl⟩ := exists_pivot hshort
      obtain ⟨small, big, hparted, hstep⟩ := sortRange_step hbody pre post x
      rw [hstep] at h
      cases hleft : sortRange n pre small (x :: big ++ post) with
      | none =>
        simp only [hleft] at h
        cases h
      | some seq₁ =>
        simp only [hleft] at h
        obtain ⟨lower, rfl, hlower, hascending⟩ := ih hleft
        rw [quickSort_second n hlower.length_eq] at h
        obtain ⟨upper, rfl, hupper, hascending'⟩ := ih h
        refine ⟨lower ++ upper, by simp only [List.append_assoc],
          (hlower.append hupper).trans hparted.perm, ?_⟩
        refine List.pairwise_append.mpr ⟨hascending, hascending', ?_⟩
        intro a ha b hb
        have hax : a < x := hparted.smaller a (hlower.mem_iff.mp ha)
        have hxb : x ≤ b := by
          cases List.mem_cons.mp (hupper.mem_iff.mp hb) with
          | inl hb => exact Int.le_of_eq hb.symm
          | inr hb => exact hparted.others b hb
        omega

/-! ## When the calls end -/

theorem quickSort_succ : ∀ (n : Nat) {seq sorted : List Int} {l h : Int},
    quickSort n seq l h = some sorted → quickSort (n + 1) seq l h = some sorted := by
  intro n
  induction n with
  | zero =>
    intro seq sorted l h hsort
    cases hsort
  | succ n ih =>
    intro seq sorted l h hsort
    rw [quickSort] at hsort ⊢
    by_cases hlt : l < h
    · rw [if_pos hlt] at hsort ⊢
      cases hpartition : partition seq l h with
      | none =>
        simp only [hpartition] at hsort
        cases hsort
      | some parted =>
        obtain ⟨seq₁, p⟩ := parted
        simp only [hpartition] at hsort ⊢
        cases hleft : quickSort n seq₁ l p with
        | none =>
          simp only [hleft] at hsort
          cases hsort
        | some seq₂ =>
          simp only [hleft] at hsort
          simp only [ih hleft]
          exact ih hsort
    · rw [if_neg hlt] at hsort ⊢
      exact hsort

theorem quickSort_mono {n m : Nat} {seq sorted : List Int} {l h : Int} (hle : n ≤ m)
    (hsort : quickSort n seq l h = some sorted) : quickSort m seq l h = some sorted := by
  induction hle with
  | refl => exact hsort
  | step _ ih => exact quickSort_succ _ ih

/-- The call that sorts `mid` ends, whatever stands around it. -/
def Ends (mid : List Int) : Prop :=
  ∀ pre post, ∃ n seq, sortRange n pre mid post = some seq

theorem ends_short {mid : List Int} (hmid : mid.length ≤ 1) : Ends mid :=
  fun _ _ => ⟨1, _, sortRange_short 0 hmid⟩

/-- A call ends when the calls that it makes do. -/
theorem ends_parted {body : List Int} (hbody : body ≠ [])
    (h : ∀ small big, Parted body x small big → Ends small ∧ Ends (x :: big)) :
    Ends (body ++ [x]) := by
  intro pre post
  obtain ⟨small, big, hparted, hstep⟩ := sortRange_step hbody pre post x
  obtain ⟨hsmall, hbig⟩ := h small big hparted
  obtain ⟨n, seq, hleft⟩ := hsmall pre (x :: big ++ post)
  obtain ⟨lower, rfl, hlower, -⟩ := sortRange_sorts n hleft
  obtain ⟨m, seq, hright⟩ := hbig (pre ++ lower) post
  have hleft' : sortRange (n + m) pre small (x :: big ++ post) = _ :=
    quickSort_mono (Nat.le_add_right n m) hleft
  have hright' : sortRange (n + m) (pre ++ lower) (x :: big) post = _ :=
    quickSort_mono (Nat.le_add_left m n) hright
  refine ⟨n + m + 1, seq, ?_⟩
  rw [hstep]
  simp only [hleft']
  rw [quickSort_second _ hlower.length_eq, hright']

/-- A range whose last element is not its least is cut into two shorter ones. -/
theorem ends_of_shorter {body : List Int} (hless : ∃ y ∈ body, y < x)
    (ih : ∀ mid : List Int, mid.length ≤ body.length → mid.Nodup → Ends mid)
    (hnodup : (body ++ [x]).Nodup) : Ends (body ++ [x]) := by
  obtain ⟨y, hy, hyx⟩ := hless
  refine ends_parted (List.ne_nil_of_mem hy) fun small big hparted => ?_
  have hsize : small.length + big.length = body.length := by
    rw [← List.length_append, hparted.elements.length_eq]
  have hparts : (small ++ x :: big).Nodup := hparted.perm.nodup_iff.mpr hnodup
  have hsmall : small ≠ [] := by
    rintro rfl
    have hxy : x ≤ y := hparted.others y (hparted.elements.mem_iff.mpr hy)
    omega
  have hpos : 0 < small.length := List.length_pos_iff.mpr hsmall
  constructor
  · exact ih small (by omega) (List.nodup_append.mp hparts).1
  · refine ih (x :: big) ?_ (List.nodup_append.mp hparts).2.1
    rw [List.length_cons]
    omega

/-- Where no element is smaller than the last one, the range is sorted again with that element in
front, and then its last element is greater than its first. -/
theorem ends_of_nodup : ∀ (k : Nat) {mid : List Int}, mid.length ≤ k → mid.Nodup → Ends mid := by
  intro k
  induction k with
  | zero =>
    intro mid hlength _
    exact ends_short (by omega)
  | succ k ih =>
    intro mid hlength hnodup
    by_cases hshort : mid.length ≤ 1
    · exact ends_short hshort
    · obtain ⟨body, x, hbody, rfl⟩ := exists_pivot hshort
      rw [List.length_append, List.length_singleton] at hlength
      have hshorter : ∀ mid : List Int, mid.length ≤ body.length → mid.Nodup → Ends mid :=
        fun mid hmid => ih (by omega)
      by_cases hless : ∃ y ∈ body, y < x
      · exact ends_of_shorter hless hshorter hnodup
      · refine ends_parted hbody fun small big hparted => ?_
        have hsmall : small = [] := List.eq_nil_iff_forall_not_mem.mpr fun s hs =>
          hless ⟨s, hparted.elements.mem_iff.mp (List.mem_append_left _ hs), hparted.smaller s hs⟩
        have hparts : (small ++ x :: big).Nodup := hparted.perm.nodup_iff.mpr hnodup
        have hsize : big.length = body.length := by
          rw [← hparted.elements.length_eq, hsmall, List.nil_append]
        rw [hsmall, List.nil_append] at hparts
        refine ⟨ends_short (by rw [hsmall]; exact Nat.zero_le _), ?_⟩
        have hbig : big ≠ [] := by
          rintro rfl
          exact hbody (List.length_eq_zero_iff.mp hsize.symm)
        obtain ⟨first, y, rfl⟩ : ∃ first y, big = first ++ [y] :=
          ⟨_, _, (List.dropLast_append_getLast hbig).symm⟩
        have hne : x ≠ y := by
          rintro rfl
          exact (List.nodup_cons.mp hparts).1 (List.mem_append_right _ (List.mem_singleton_self _))
        have hxy : x ≤ y := hparted.others y (List.mem_append_right _ (List.mem_singleton_self _))
        have hlast : (x :: first).length = body.length := by
          rw [← hsize, List.length_cons, List.length_append, List.length_singleton]
        refine ends_of_shorter ⟨x, List.mem_cons_self, by omega⟩ ?_ hparts
        rw [hlast]
        exact hshorter

/-- Of two elements that are equal, the pivot has none or both of them in its part. -/
theorem sortRange_duplicate : ∀ (n : Nat) {pre mid post : List Int},
    ¬ mid.Nodup → sortRange n pre mid post = none := by
  intro n
  induction n with
  | zero => exact fun _ => rfl
  | succ n ih =>
    intro pre mid post hdup
    have hshort : ¬ mid.length ≤ 1 := by
      intro hshort
      match mid, hshort with
      | [], _ => exact hdup List.nodup_nil
      | [x], _ => exact hdup (List.nodup_cons.mpr ⟨List.not_mem_nil, List.nodup_nil⟩)
    obtain ⟨body, x, hbody, rfl⟩ := exists_pivot hshort
    obtain ⟨small, big, hparted, hstep⟩ := sortRange_step hbody pre post x
    rw [hstep]
    cases hleft : sortRange n pre small (x :: big ++ post) with
    | none => rfl
    | some seq =>
      have hsmall : small.Nodup := by
        by_contra hnot
        rw [ih hnot] at hleft
        cases hleft
      obtain ⟨lower, rfl, hlower, -⟩ := sortRange_sorts n hleft
      have hbig : ¬ (x :: big).Nodup := by
        intro hbig
        refine hdup (hparted.perm.nodup_iff.mp (List.nodup_append.mpr ⟨hsmall, hbig, ?_⟩))
        intro a ha b hb
        have hax : a < x := hparted.smaller a ha
        cases List.mem_cons.mp hb with
        | inl hb => omega
        | inr hb =>
          have hxb : x ≤ b := hparted.others b hb
          omega
      simp only
      rw [quickSort_second n hlower.length_eq]
      exact ih hbig

theorem sort_eq (n : Nat) (seq : List Int) : sort n seq = sortRange n [] seq [] := by
  rw [sort, sortRange, List.nil_append, List.append_nil, List.length_nil, Int.natCast_zero,
    Int.zero_add]

end Sorting

end JeffVm
