import JeffVm.Fusing
import JeffVm.Lib.NullMap
import JeffVm.Produce

/-!
# The jump targets of a tape

`_populate_gotos`, over the map of `struct/map.h`. The position of a jump is stored as a pointer,
and a pass asks whether there is a jump to an instruction by comparing a pointer with `NULL`. The
jump at position 0 is stored as `NULL` itself.
-/

set_option autoImplicit false

universe w

namespace JeffVm

/-- A pointer, as the `intptr_t` it is cast from. -/
abbrev Ptr := Int

def NULL : Ptr := 0

def asPtr (i : Int) : Ptr := i

/-- The sum of two `int`s, where an overflow is undefined. -/
def intSum (x y : Int) : Option Int :=
  if -2 ^ 31 ≤ x + y ∧ x + y < 2 ^ 31 then some (x + y) else none

section Populate

variable (M : NullMap.{0, 0, w} Ptr Ptr)

/-- One round of `_populate_gotos`. -/
def populateGoto (gotos : M.Map) (i : Nat) (ins : Instruction) : Option M.Map :=
  if !ins.op.isGoto then some gotos
  else
    match ins.pint with
    | none => none
    | some n => (intSum i n).map fun index => M.insert gotos (asPtr index) (asPtr i)

/-- The rounds of `_populate_gotos` from position `i` on. -/
def populateGotosFrom : M.Map → Nat → List Instruction → Option M.Map
  | gotos, _, [] => some gotos
  | gotos, i, ins :: rest =>
    match populateGoto M gotos i ins with
    | none => none
    | some gotos => populateGotosFrom gotos (i + 1) rest

def populateGotos (tape : List Instruction) : Option M.Map := populateGotosFrom M M.empty 0 tape

end Populate

/-- The instruction at `i` is a jump to position `t`. -/
def GoesTo (tape : List Instruction) (i : Nat) (t : Int) : Prop :=
  ∃ ins n, tape[i]? = some ins ∧ ins.op.isGoto = true ∧ ins.pint = some n ∧ i + n + 1 = t

/-- The operand of a jump at `i` is an `int`, and its target does not overflow. -/
def Instruction.Populates (i : Nat) (ins : Instruction) : Prop :=
  ins.op.isGoto = true → ∃ n, ins.pint = some n ∧ -2 ^ 31 ≤ i + n ∧ i + n < 2 ^ 31

/-! ## What the loop stores -/

/-- The stores of `_populate_gotos` from position `i` on. -/
def gotoStores (i : Nat) (tape : List Instruction) : List (Ptr × Ptr) :=
  (tape.zipIdx i).filterMap fun p => (gotoKey p.2 p.1).map fun index => (asPtr index, asPtr p.2)

variable {M : NullMap.{0, 0, w} Ptr Ptr} {tape rest : List Instruction} {ins : Instruction}
  {gotos gotos' : M.Map} {i : Nat}

theorem intSum_eq {x y z : Int} (h : intSum x y = some z) : z = x + y := by
  unfold intSum at h
  split at h
  · exact (Option.some.inj h).symm
  · cases h

/-- A round passes over an instruction that is no jump, and stores the position of a jump. -/
theorem populateGoto_cases (h : populateGoto M gotos i ins = some gotos') :
    (gotoKey i ins = none ∧ gotos' = gotos) ∨
      ∃ index, gotoKey i ins = some index ∧ gotos' = M.insert gotos (asPtr index) (asPtr i) := by
  unfold populateGoto at h
  cases hgoto : ins.op.isGoto with
  | false =>
    rw [hgoto] at h
    refine .inl ⟨?_, (Option.some.inj h).symm⟩
    rw [gotoKey, hgoto]
    rfl
  | true =>
    rw [hgoto] at h
    cases hpint : ins.pint with
    | none =>
      rw [hpint] at h
      cases h
    | some n =>
      rw [hpint] at h
      obtain ⟨index, hsum, hinsert⟩ := Option.map_eq_some_iff.mp h
      refine .inr ⟨index, ?_, hinsert.symm⟩
      rw [gotoKey, hgoto, hpint, intSum_eq hsum]
      rfl

theorem populateGoto_isSome_iff :
    (populateGoto M gotos i ins).isSome = true ↔ ins.Populates i := by
  unfold populateGoto Instruction.Populates
  cases ins.op.isGoto with
  | false => simp
  | true =>
    cases ins.pint with
    | none => simp
    | some n => simp [intSum]

/-- The loop gets to the end of the tape unless a jump stops it. -/
theorem populateGotosFrom_isSome_iff :
    (populateGotosFrom M gotos i tape).isSome = true ↔
      ∀ (j : Nat) (ins : Instruction), tape[j]? = some ins → ins.Populates (i + j) := by
  induction tape generalizing gotos i with
  | nil => simp [populateGotosFrom]
  | cons ins rest ih =>
    rw [populateGotosFrom]
    cases hround : populateGoto M gotos i ins with
    | none =>
      have hstops : ¬ ins.Populates i := by
        intro hpasses
        have hsome : (populateGoto M gotos i ins).isSome = true :=
          populateGoto_isSome_iff.mpr hpasses
        rw [hround] at hsome
        exact Bool.false_ne_true hsome
      exact ⟨fun h => absurd h Bool.false_ne_true, fun h => absurd (h 0 ins rfl) hstops⟩
    | some next =>
      have hpasses : ins.Populates i :=
        populateGoto_isSome_iff.mp (hround ▸ Option.isSome_some)
      constructor
      · intro h j ins' hj
        cases j with
        | zero =>
          cases hj
          exact hpasses
        | succ j =>
          have hrest := ih.mp h j ins' hj
          rwa [Nat.add_right_comm] at hrest
      · intro h
        apply ih.mpr
        intro j ins' hj
        have hnext := h (j + 1) ins' hj
        rwa [Nat.add_right_comm, Nat.add_assoc]

theorem gotoStores_cons_none (h : gotoKey i ins = none) :
    gotoStores i (ins :: rest) = gotoStores (i + 1) rest := by
  rw [gotoStores, List.zipIdx_cons, List.filterMap_cons_none]
  · rfl
  · rw [h]
    rfl

theorem gotoStores_cons_some {index : Int} (h : gotoKey i ins = some index) :
    gotoStores i (ins :: rest) = (asPtr index, asPtr i) :: gotoStores (i + 1) rest := by
  rw [gotoStores, List.zipIdx_cons, List.filterMap_cons_some]
  · rfl
  · rw [h]
    rfl

/-- The loop makes its stores in the order of the positions. -/
theorem populateGotosFrom_eq (h : populateGotosFrom M gotos i tape = some gotos') :
    gotos' = M.insertAll gotos (gotoStores i tape) := by
  induction tape generalizing gotos i with
  | nil => exact (Option.some.inj h).symm
  | cons ins rest ih =>
    rw [populateGotosFrom] at h
    cases hround : populateGoto M gotos i ins with
    | none =>
      rw [hround] at h
      cases h
    | some next =>
      rw [hround] at h
      rcases populateGoto_cases hround with ⟨hkey, rfl⟩ | ⟨index, hkey, rfl⟩
      · rw [gotoStores_cons_none hkey]
        exact ih h
      · rw [gotoStores_cons_some hkey]
        exact ih h

theorem gotoKey_eq_some_iff {k : Int} :
    gotoKey i ins = some k ↔ ins.op.isGoto = true ∧ ∃ n, ins.pint = some n ∧ i + n = k := by
  unfold gotoKey
  cases ins.op.isGoto with
  | false => simp
  | true => simp

/-- What is stored under the position before `t` are the positions of the jumps to `t`. -/
theorem mem_gotoStores {t v : Int} :
    (asPtr (t - 1), v) ∈ gotoStores 0 tape ↔ ∃ i : Nat, v = asPtr i ∧ GoesTo tape i t := by
  unfold gotoStores
  rw [List.mem_filterMap]
  constructor
  · intro ⟨⟨ins, i⟩, hmem, hstore⟩
    obtain ⟨index, hkey, heq⟩ := Option.map_eq_some_iff.mp hstore
    obtain ⟨hgoto, n, hn, hsum⟩ := gotoKey_eq_some_iff.mp hkey
    have hindex : index = t - 1 := congrArg Prod.fst heq
    have hv : asPtr i = v := congrArg Prod.snd heq
    have hat : tape[i]? = some ins := List.mem_zipIdx_iff_getElem?.mp hmem
    have ht : i + n + 1 = t := by
      rw [hsum, hindex]
      exact Int.sub_add_cancel t 1
    exact ⟨i, hv.symm, ins, n, hat, hgoto, hn, ht⟩
  · intro ⟨i, hv, ins, n, hat, hgoto, hn, ht⟩
    have hkey : gotoKey i ins = some (t - 1) :=
      gotoKey_eq_some_iff.mpr ⟨hgoto, n, hn, by omega⟩
    refine ⟨(ins, i), List.mem_zipIdx_iff_getElem?.mpr hat, ?_⟩
    rw [hkey, hv]
    rfl

/-- The stored positions grow. -/
theorem gotoStores_pairwise (i : Nat) (tape : List Instruction) :
    (gotoStores i tape).Pairwise fun s s' => s.2 < s'.2 := by
  have hpositions : (tape.zipIdx i).Pairwise fun p q => p.2 < q.2 := by
    apply List.pairwise_map.mp
    rw [List.zipIdx_map_snd]
    exact List.pairwise_lt_range'
  apply List.Pairwise.filterMap _ _ hpositions
  intro p q hlt s hs s' hs'
  obtain ⟨index, -, rfl⟩ := Option.map_eq_some_iff.mp hs
  obtain ⟨index', -, rfl⟩ := Option.map_eq_some_iff.mp hs'
  exact Int.ofNat_lt.mpr hlt

theorem null_le_of_mem_gotoStores {s : Ptr × Ptr} (h : s ∈ gotoStores i tape) : NULL ≤ s.2 := by
  obtain ⟨p, -, hs⟩ := List.mem_filterMap.mp h
  obtain ⟨index, -, rfl⟩ := Option.map_eq_some_iff.mp hs
  exact Int.natCast_nonneg p.2

/-! ## What a pass finds -/

/-- A pass finds the jumps behind position 0. -/
theorem lookup_populateGotos (hlaw : M.Lawful NULL) (h : populateGotos M tape = some gotos)
    (t : Int) :
    M.lookup gotos (asPtr (t - 1)) ≠ NULL ↔ ∃ i, 0 < i ∧ GoesTo tape i t := by
  have hstored : M.lookup gotos (asPtr (t - 1)) ≠ NULL ↔
      ∃ v : Int, NULL < v ∧ (asPtr (t - 1), v) ∈ gotoStores 0 tape := by
    rw [populateGotosFrom_eq h]
    exact NullMap.lookup_ne_null_iff hlaw (gotoStores_pairwise 0 tape)
      (fun _ => null_le_of_mem_gotoStores) _
  rw [hstored]
  constructor
  · intro ⟨v, hv, hmem⟩
    obtain ⟨i, rfl, hgoes⟩ := mem_gotoStores.mp hmem
    exact ⟨i, Int.natCast_pos.mp hv, hgoes⟩
  · intro ⟨i, hi, hgoes⟩
    exact ⟨asPtr i, Int.natCast_pos.mpr hi, mem_gotoStores.mpr ⟨i, rfl, hgoes⟩⟩

/-- The lookups of the passes are `hasGoto`. -/
theorem lookup_ne_null_iff_hasGoto (hlaw : M.Lawful NULL) (h : populateGotos M tape = some gotos)
    (k : Nat) : M.lookup gotos (asPtr k) ≠ NULL ↔ hasGoto tape k = true := by
  have hlookup := lookup_populateGotos hlaw h (k + 1)
  rw [Int.add_sub_cancel] at hlookup
  rw [hlookup, hasGoto_iff]
  constructor
  · intro ⟨i, hi, ins, n, hat, hgoto, hn, ht⟩
    exact ⟨i, ins, n, hi, hat, hgoto, hn, by omega⟩
  · intro ⟨i, ins, n, hi, hat, hgoto, hn, hk⟩
    exact ⟨i, hi, ins, n, hat, hgoto, hn, by omega⟩

/-- The test for a jump to `t` is exact unless the jump at position 0 is the only one that
goes there. -/
theorem gotoTest_exact_iff (hlaw : M.Lawful NULL) (h : populateGotos M tape = some gotos)
    (t : Int) :
    (M.lookup gotos (asPtr (t - 1)) ≠ NULL ↔ ∃ i, GoesTo tape i t) ↔
      (GoesTo tape 0 t → ∃ i, 0 < i ∧ GoesTo tape i t) := by
  rw [lookup_populateGotos hlaw h]
  constructor
  · intro hexact hzero
    exact hexact.mpr ⟨0, hzero⟩
  · intro hzero
    constructor
    · intro ⟨i, _, hgoes⟩
      exact ⟨i, hgoes⟩
    · intro ⟨i, hgoes⟩
      rcases Nat.eq_zero_or_pos i with rfl | hi
      · exact hzero hgoes
      · exact ⟨i, hi, hgoes⟩

/-- Two jumps to one position, the first at position 0. -/
def sharedTargetTape : List Instruction :=
  [⟨.JMP, .val (.int 1)⟩, ⟨.RNIL, .noArg⟩, ⟨.IF, .val (.int (-1))⟩, ⟨.RET, .noArg⟩]

theorem gotoTest_exact_iff_sharedTarget :
    ∃ gotos, populateGotos (NullMap.ofFun NULL) sharedTargetTape = some gotos ∧
      ((NullMap.ofFun NULL).lookup gotos (asPtr (2 - 1)) ≠ NULL ↔
        ∃ i, GoesTo sharedTargetTape i 2) :=
  ⟨_, rfl, (gotoTest_exact_iff (NullMap.ofFun_lawful NULL) rfl 2).mpr fun _ =>
    ⟨2, Nat.two_pos, _, _, rfl, rfl, rfl, rfl⟩⟩

/-- A function without arguments that returns 1, at the start of a module. -/
def firstFunction : FunctionDef :=
  ⟨Token.word "(" 0, none, .NONE, false, none, .constant ⟨.INTEGER, 0, 5, "1"⟩⟩

def firstFunctionTape : List Instruction :=
  [⟨.JMP, .val (.int 2)⟩, ⟨.RES, .val (.int 1)⟩, ⟨.RET, .noArg⟩, ⟨.RES, .id "$anon_0_0"⟩]

theorem produceAnonFunction_first :
    (produceAnonFunction firstFunction Tape.create).map (fun r => r.2.ins) =
      some firstFunctionTape := rfl

/-- The jump over the function goes to the last instruction, and the test does not find it. -/
theorem gotoTest_firstFunction :
    ∃ gotos, populateGotos (NullMap.ofFun NULL) firstFunctionTape = some gotos ∧
      ¬ ∀ t : Int, 1 ≤ t → t ≤ firstFunctionTape.length →
        ((NullMap.ofFun NULL).lookup gotos (asPtr (t - 1)) ≠ NULL ↔
          ∃ i, GoesTo firstFunctionTape i t) := by
  refine ⟨_, rfl, fun hexact => ?_⟩
  have hgoes : ∃ i, GoesTo firstFunctionTape i 3 := ⟨0, _, _, rfl, rfl, rfl, rfl⟩
  have hfound := (hexact 3 (by decide) (by decide)).mpr hgoes
  exact hfound rfl

end JeffVm
