import JeffVm.Resolve
import JeffVm.Runnable

/-!
# Executable tapes after the optimizer

Every pass but one keeps executable tapes executable. `optimizer_PushRes` fuses a `PUSH` and
a `RES` of the same operand into `PSRS`, which the machine does not dispatch, and no later
pass touches a `PSRS`.
-/

set_option autoImplicit false

namespace JeffVm

open Editing

/-! ## Adjustments that suit -/

/-- The adjustment leaves alone what the machine does not dispatch, and what is executable
stays so. -/
def Adjustment.Suits (ins : Instruction) : Adjustment → Prop
  | .remove => ins.op.operand.isSome = true
  | .setOp op => ins.op.operand.isSome = true ∧
      (ins.executable = true → Instruction.executable ⟨op, ins.arg⟩ = true)
  | .setVal op val => ins.op.operand.isSome = true ∧
      Instruction.executable ⟨op, .val val⟩ = true
  | .replace new => ins.op.operand.isSome = true ∧ new.executable = true

def Adjustments.Suit (as : Adjustments) (tape : List Instruction) : Prop :=
  ∀ i a, (i, a) ∈ as → ∃ ins, tape[i]? = some ins ∧ a.Suits ins

theorem suit_pairs {c : Nat → Instruction → Instruction → Bool}
    {as : Nat → Instruction → Instruction → Adjustments} {tape : List Instruction}
    (h : ∀ i first second, tape[i]? = some first → tape[i + 1]? = some second →
      c (1 + i) first second = true → ∀ j a, (j, a) ∈ as (1 + i) first second →
        ∃ ins, tape[j]? = some ins ∧ a.Suits ins) :
    (pairRounds (fun i first second => if c i first second then as i first second else [])
      1 tape).Suit tape := by
  intro j a hmem
  obtain ⟨i, first, second, hfirst, hsecond, hround⟩ := mem_pairRounds.mp hmem
  split at hround
  · next hc => exact h i first second hfirst hsecond hc j a hround
  · cases hround

/-- A pass that removes the second of two instructions. -/
theorem suit_remove_second {c : Nat → Instruction → Instruction → Bool}
    {tape : List Instruction}
    (h : ∀ i first second, c i first second = true → second.op.operand.isSome = true) :
    (pairRounds (fun i first second => if c i first second then [(i, .remove)] else [])
      1 tape).Suit tape := by
  apply suit_pairs
  intro i first second _ hsecond hc j a hmem
  cases List.mem_singleton.mp hmem
  exact ⟨second, by rwa [Nat.add_comm], h _ _ _ hc⟩

/-- A pass that removes the first of two instructions. -/
theorem suit_remove_first {c : Nat → Instruction → Instruction → Bool}
    {tape : List Instruction}
    (h : ∀ i first second, c i first second = true → first.op.operand.isSome = true) :
    (pairRounds (fun i first second => if c i first second then [(i - 1, .remove)] else [])
      1 tape).Suit tape := by
  apply suit_pairs
  intro i first second hfirst _ hc j a hmem
  cases List.mem_singleton.mp hmem
  exact ⟨first, by rwa [Nat.add_sub_cancel_left], h _ _ _ hc⟩

/-- A pass that removes both. -/
theorem suit_remove_both {c : Nat → Instruction → Instruction → Bool}
    {tape : List Instruction}
    (h : ∀ i first second, c i first second = true →
      first.op.operand.isSome = true ∧ second.op.operand.isSome = true) :
    (pairRounds (fun i first second =>
      if c i first second then [(i - 1, .remove), (i, .remove)] else []) 1 tape).Suit tape := by
  apply suit_pairs
  intro i first second hfirst hsecond hc j a hmem
  rcases List.mem_cons.mp hmem with heq | hmem
  · cases heq
    exact ⟨first, by rwa [Nat.add_sub_cancel_left], (h _ _ _ hc).1⟩
  · cases List.mem_singleton.mp hmem
    exact ⟨second, by rwa [Nat.add_comm], (h _ _ _ hc).2⟩

theorem operand_of_isAssign {ins : Instruction} (h : ins.isAssign = true) :
    ins.op.operand.isSome = true := by
  unfold Instruction.isAssign at h
  rcases Bool.or_eq_true _ _ ▸ h with hop | hop <;>
    · rw [eq_of_beq hop]
      rfl

theorem operand_of_eq {ins : Instruction} {op : Op} (h : (ins.op == op) = true)
    (hop : op.operand.isSome = true) : ins.op.operand.isSome = true := by
  rw [eq_of_beq h]
  exact hop

theorem setRes_suits (tape : List Instruction) : (optimizerSetRes tape).Suit tape := by
  apply suit_remove_second
  intro i first second hc
  simp only [Bool.and_eq_true] at hc
  exact operand_of_eq hc.1.1.2 rfl

theorem setPush_suits (tape : List Instruction) : (optimizerSetPush tape).Suit tape := by
  apply suit_pairs
  intro i first second _ hsecond hc j a hmem
  cases List.mem_singleton.mp hmem
  simp only [Bool.and_eq_true] at hc
  exact ⟨second, by rwa [Nat.add_comm], operand_of_eq hc.1.1.2 rfl, rfl⟩

theorem jmpRes_suits {tape : List Instruction} {as : Adjustments}
    (h : optimizerJmpRes tape = some as) : as.Suit tape := by
  intro j a hmem
  obtain ⟨i, first, second, bs, -, -, hround, hbs⟩ := mem_optimizerJmpResFrom h hmem
  unfold roundJmpRes at hround
  split at hround
  · split at hround
    · cases hround
    · next jmpVal hpint =>
      split at hround
      · cases hround
        cases hbs
      · split at hround
        · next jumpToParent jumpTo hparent hto =>
          split at hround
          · next hc =>
            cases hround
            cases List.mem_singleton.mp hbs
            simp only [Bool.and_eq_true] at hc
            refine ⟨jumpTo, ?_, operand_of_eq hc.1.2 rfl⟩
            unfold tapeGet at hto
            split at hto
            · exact hto
            · cases hto
          · cases hround
            cases hbs
        · cases hround
  · cases hround
    cases hbs

theorem resPush2_suits (tape : List Instruction) : (optimizerResPush2 tape).Suit tape := by
  apply suit_pairs
  intro i first second hfirst hsecond hc j a hmem
  simp only [Bool.and_eq_true] at hc
  obtain ⟨⟨⟨⟨hres, harg⟩, hpush⟩, -⟩, -⟩ := hc
  rcases List.mem_cons.mp hmem with heq | hmem
  · cases heq
    refine ⟨first, by rwa [Nat.add_sub_cancel_left], operand_of_eq hres rfl, fun _ => ?_⟩
    rw [eq_of_beq harg]
    rfl
  · cases List.mem_singleton.mp hmem
    exact ⟨second, by rwa [Nat.add_comm], operand_of_eq hpush rfl⟩

theorem retRet_suits (tape : List Instruction) : (optimizerRetRet tape).Suit tape := by
  apply suit_remove_second
  intro i first second hc
  simp only [Bool.and_eq_true] at hc
  exact operand_of_eq hc.1.1.2 rfl

theorem peekRes_suits (tape : List Instruction) : (optimizerPeekRes tape).Suit tape := by
  apply suit_remove_first
  intro i first second hc
  simp only [Bool.and_eq_true] at hc
  exact operand_of_eq hc.1.1 rfl

theorem setEmpty_suits (tape : List Instruction) : (optimizerSetEmpty tape).Suit tape := by
  apply suit_remove_both
  intro i first second hc
  simp only [Bool.and_eq_true] at hc
  exact ⟨operand_of_eq hc.1.1.1.1 rfl, operand_of_isAssign hc.1.1.2⟩

theorem peekPeek_suits (tape : List Instruction) : (optimizerPeekPeek tape).Suit tape := by
  apply suit_remove_first
  intro i first second hc
  simp only [Bool.and_eq_true] at hc
  exact operand_of_eq hc.1.1.1.1 rfl

theorem pushResEmpty_suits (tape : List Instruction) :
    (optimizerPushResEmpty tape).Suit tape := by
  apply suit_remove_both
  intro i first second hc
  simp only [Bool.and_eq_true] at hc
  exact ⟨operand_of_eq hc.1.1.1.1 rfl, operand_of_eq hc.1.1.2 rfl⟩

theorem pushRes2_suits (tape : List Instruction) : (optimizerPushRes2 tape).Suit tape := by
  apply suit_remove_both
  intro i first second hc
  simp only [Bool.and_eq_true] at hc
  exact ⟨operand_of_eq hc.1.1.1.1 rfl, operand_of_eq hc.1.1.1.2 rfl⟩

theorem operand_of_isMathOp {op : Op} (h : op.isMathOp = true) :
    op.operand = some .notString := by
  revert h
  cases op <;> first | exact fun _ => rfl | exact fun h => nomatch h

theorem executable_isMathOp {op : Op} {arg : Arg} (hop : op.isMathOp = true)
    (harg : (arg.isPrimitive || arg.isId) = true) : Instruction.executable ⟨op, arg⟩ = true := by
  simp only [Instruction.executable, operand_of_isMathOp hop]
  cases arg with
  | val _ => rfl
  | id _ => rfl
  | _ => cases harg

/-- The second operand moves into the operation, the first one into the result. -/
theorem simpleMath_suits (tape : List Instruction) : (optimizerSimpleMath tape).Suit tape := by
  intro j a hmem
  obtain ⟨i, first, second, third, hfirst, hsecond, hthird, hround⟩ := mem_tripleRounds.mp hmem
  split at hround
  · next hc =>
    simp only [Bool.and_eq_true] at hc
    obtain ⟨⟨⟨⟨⟨hpush, hpush'⟩, hmath⟩, harg⟩, -⟩, -⟩ := hc
    have hsub₂ : 2 + i - 2 = i := by omega
    have hsub₁ : 2 + i - 1 = i + 1 := by omega
    rw [hsub₂, hsub₁] at hround
    rcases List.mem_cons.mp hround with heq | hround
    · cases heq
      refine ⟨first, hfirst, ?_⟩
      split
      · exact operand_of_eq hpush rfl
      · exact ⟨operand_of_eq hpush rfl, fun _ => rfl⟩
    · rcases List.mem_cons.mp hround with heq | hround
      · cases heq
        exact ⟨second, hsecond, operand_of_eq hpush' rfl, fun _ => executable_isMathOp hmath harg⟩
      · cases List.mem_singleton.mp hround
        refine ⟨third, by rwa [Nat.add_comm], ?_⟩
        show third.op.operand.isSome = true
        rw [operand_of_isMathOp hmath]
        rfl
  · cases hround

theorem getPush_suits (tape : List Instruction) : (optimizerGetPush tape).Suit tape := by
  apply suit_pairs
  intro i first second hfirst hsecond hc j a hmem
  simp only [Bool.and_eq_true] at hc
  obtain ⟨⟨⟨⟨hget, -⟩, hpush⟩, -⟩, -⟩ := hc
  rcases List.mem_cons.mp hmem with heq | hmem
  · cases heq
    exact ⟨second, by rwa [Nat.add_comm], operand_of_eq hpush rfl⟩
  · cases List.mem_singleton.mp hmem
    refine ⟨first, by rwa [Nat.add_sub_cancel_left], operand_of_eq hget rfl, fun hexec => ?_⟩
    obtain ⟨op, arg⟩ := first
    cases eq_of_beq hget
    exact hexec

theorem nil_suits (tape : List Instruction) : (optimizerNil tape).Suit tape := by
  intro j a hmem
  obtain ⟨i, ins, hins, hround⟩ := mem_eachRound.mp hmem
  split at hround
  · next hc =>
    simp only [Bool.and_eq_true, Bool.or_eq_true] at hc
    cases List.mem_singleton.mp hround
    refine ⟨ins, by rwa [Nat.zero_add], ?_, ?_⟩
    · rcases hc.1 with hop | hop
      · exact operand_of_eq hop rfl
      · exact operand_of_eq hop rfl
    · split <;> rfl
  · cases hround

end JeffVm
