import JeffVm.Path

/-!
# Open blocks

`break` and `continue` are plain jumps. One that leaves a `try` inside its loop leaves the
context of the `try` open, and its handler active; without such jumps every path through the
code of a statement closes the blocks it has opened.
-/

set_option autoImplicit false

namespace JeffVm

/-- The number of open blocks. -/
def blockWeight : Weight where
  gain ins :=
    match ins.op with
    | .NBLK => 1
    | .BBLK => -1
    | _ => 0
  need ins :=
    match ins.op with
    | .BBLK => 1
    | .CTCH => 1
    | _ => 0
  block := 1
  value := 0
  newBlock := ⟨rfl, rfl⟩
  backBlock := ⟨rfl, rfl⟩
  jump := by
    intro op n hjump hop
    cases op <;> simp_all [Op.isJump]
  setCatch := fun _ => ⟨rfl, rfl⟩
  nil := ⟨rfl, rfl⟩
  set := fun _ => ⟨rfl, rfl⟩
  push := ⟨rfl, rfl⟩
  dup := ⟨rfl, rfl⟩
  call := fun _ => ⟨rfl, rfl⟩
  res := ⟨rfl, rfl⟩

theorem blockWeight_of_plain {ins : Instruction} (h : ins.isPlain = true) :
    blockWeight.gain ins = 0 ∧ blockWeight.need ins = 0 := by
  obtain ⟨op, arg⟩ := ins
  cases op <;> simp_all [blockWeight, Instruction.isPlain, Op.isSkeleton]

namespace Code

mutual

theorem hasLevel_block : ∀ (c : Code) {l : Int}, 0 ≤ l → c.allPlain Instruction.isPlain = true →
    c.HasLevel blockWeight l ∧ c.net blockWeight = 0
  | nil, _, hl, _ => ⟨hl, rfl⟩
  | plain ins, _, hl, h => by
    obtain ⟨hgain, hneed⟩ := blockWeight_of_plain h
    exact ⟨⟨by rw [hneed]; exact hl, h⟩, hgain⟩
  | brk _, _, hl, _ => ⟨hl, rfl⟩
  | seq a b, l, hl, h => by
    rw [allPlain, Bool.and_eq_true] at h
    obtain ⟨ha, hnetA⟩ := hasLevel_block a hl h.1
    obtain ⟨hb, hnetB⟩ := hasLevel_block b hl h.2
    refine ⟨⟨ha, ?_⟩, ?_⟩
    · rwa [hnetA, Int.add_zero]
    · rw [net, hnetA, hnetB, Int.add_zero]
  | skip _ body, _, hl, h => by
    obtain ⟨hbody, hnet⟩ := hasLevel_block body hl h
    exact ⟨⟨hl, hbody, hnet⟩, rfl⟩
  | choice _ a b, l, hl, h => by
    rw [allPlain, Bool.and_eq_true] at h
    obtain ⟨ha, hnetA⟩ := hasLevel_block a hl h.1
    obtain ⟨hb, hnetB⟩ := hasLevel_block b hl h.2
    refine ⟨⟨hl, ?_, ha, hb, ?_⟩, hnetA⟩
    · rwa [hnetA, Int.add_zero]
    · rw [hnetA, hnetB]
  | ifThen branches, _, hl, h => ⟨⟨hl, hasLevel_blockBranches branches hl h⟩, rfl⟩
  | ifElse branches otherwise, _, hl, h => by
    rw [allPlain, Bool.and_eq_true] at h
    exact ⟨⟨hl, hasLevel_blockBranches branches hl h.1, hasLevel_block otherwise hl h.2⟩, rfl⟩
  | func _, _, hl, _ => ⟨hl, rfl⟩
  | tryCatch body assign handler, l, hl, h => by
    simp only [allPlain, Bool.and_eq_true] at h
    have hm : 0 ≤ l + blockWeight.block := Int.add_nonneg hl blockWeight.block_nonneg
    obtain ⟨hbody, hbodyNet⟩ := hasLevel_block body hm h.1.1
    obtain ⟨hassign, hassignNet⟩ := hasLevel_block assign hm h.1.2
    obtain ⟨hhandler, hhandlerNet⟩ := hasLevel_block handler hm h.2
    exact ⟨⟨hl, hbody, hbodyNet, hassign, hassignNet, hhandler, hhandlerNet⟩, rfl⟩
  | whileLoop condition body, l, hl, h => by
    simp only [allPlain, Bool.and_eq_true] at h
    have hm : 0 ≤ l + blockWeight.block := Int.add_nonneg hl blockWeight.block_nonneg
    obtain ⟨hcondition, hconditionNet⟩ := hasLevel_block condition hm h.1
    obtain ⟨hbody, hbodyNet⟩ := hasLevel_block body hm h.2
    exact ⟨⟨hl, hcondition, hconditionNet, hbody, hbodyNet⟩, rfl⟩
  | forLoop init condition inc body, l, hl, h => by
    simp only [allPlain, Bool.and_eq_true] at h
    have hm : 0 ≤ l + blockWeight.block := Int.add_nonneg hl blockWeight.block_nonneg
    obtain ⟨hinit, hinitNet⟩ := hasLevel_block init hm h.1.1.1
    obtain ⟨hcondition, hconditionNet⟩ := hasLevel_block condition hm h.1.1.2
    obtain ⟨hinc, hincNet⟩ := hasLevel_block inc hm h.1.2
    obtain ⟨hbody, hbodyNet⟩ := hasLevel_block body hm h.2
    exact ⟨⟨hl, hinit, hinitNet, hcondition, hconditionNet, hinc, hincNet, hbody, hbodyNet⟩, rfl⟩
  | foreachLoop iterable lhs body, l, hl, h => by
    simp only [allPlain, Bool.and_eq_true] at h
    have hm : 0 ≤ l + blockWeight.block := Int.add_nonneg hl blockWeight.block_nonneg
    have hp : 0 ≤ l + blockWeight.block + blockWeight.value :=
      Int.add_nonneg hm blockWeight.value_nonneg
    obtain ⟨hiterable, hiterableNet⟩ := hasLevel_block iterable hm h.1.1
    obtain ⟨hlhs, hlhsNet⟩ := hasLevel_block lhs hp h.1.2
    obtain ⟨hbody, hbodyNet⟩ := hasLevel_block body hp h.2
    exact ⟨⟨hl, hiterable, hiterableNet, hlhs, hlhsNet, hbody, hbodyNet⟩, rfl⟩

theorem hasLevel_blockBranches : ∀ (br : Branches) {l : Int}, 0 ≤ l →
    allPlainBranches Instruction.isPlain br = true → HasLevelBranches blockWeight br l
  | .last condition body, _, hl, h => by
    rw [allPlainBranches, Bool.and_eq_true] at h
    obtain ⟨hcondition, hconditionNet⟩ := hasLevel_block condition hl h.1
    obtain ⟨hbody, hbodyNet⟩ := hasLevel_block body hl h.2
    exact ⟨hcondition, hconditionNet, hbody, hbodyNet⟩
  | .more condition body rest, _, hl, h => by
    simp only [allPlainBranches, Bool.and_eq_true] at h
    obtain ⟨hcondition, hconditionNet⟩ := hasLevel_block condition hl h.1.1
    obtain ⟨hbody, hbodyNet⟩ := hasLevel_block body hl h.1.2
    exact ⟨hcondition, hconditionNet, hbody, hbodyNet, hasLevel_blockBranches rest hl h.2⟩

end

end Code

/-! ## The contexts along a path -/

/-- Each handler lies at the level of the block it belongs to. -/
inductive HandlersAt (lev : Int → Option Int) : List (Option Int) → Prop where
  | nil : HandlersAt lev []
  | none {rest : List (Option Int)} (hrest : HandlersAt lev rest) : HandlersAt lev (none :: rest)
  | some {h : Int} {rest : List (Option Int)} (hlevel : lev h = some ((rest.length : Int) + 1))
      (hrest : HandlersAt lev rest) : HandlersAt lev (some h :: rest)

theorem HandlersAt.tail {lev : Int → Option Int} {x : Option Int} {rest : List (Option Int)}
    (h : HandlersAt lev (x :: rest)) : HandlersAt lev rest := by
  cases h with
  | none hrest => exact hrest
  | some _ hrest => exact hrest

/-- The contexts that the path has opened are as many as the level says. -/
def OpenBlocks (lev : Int → Option Int) (outer : List (Option Int)) (s : PathState) : Prop :=
  ∃ inner, s.contexts = inner ++ outer ∧ lev s.pc = some (inner.length : Int) ∧
    HandlersAt lev inner

section

variable {c : Code} {outer : List (Option Int)} {s s' : PathState}

theorem openBlocks_goto (hc : c.HasLevel blockWeight 0) {pc : Int}
    (htame : c.Tame blockWeight s (.goto pc)) (hstep : s.step c.code (.goto pc) = some s')
    (h : OpenBlocks (c.levelAt blockWeight 0) outer s) :
    OpenBlocks (c.levelAt blockWeight 0) outer s' := by
  obtain ⟨inner, hcontexts, hlevel, hhandlers⟩ := h
  obtain ⟨⟨op, arg⟩, hneed, hnext, hcatch, hblocks, -⟩ := Code.level_goto hc htame hstep hlevel
  rw [hcontexts] at hblocks
  cases op with
  | NBLK =>
    refine ⟨none :: inner, (Option.some.inj hblocks).symm, ?_, .none hhandlers⟩
    rw [hnext]
    simp [blockWeight]
  | BBLK =>
    cases inner with
    | nil => simp [blockWeight] at hneed
    | cons x inner =>
      refine ⟨inner, (Option.some.inj hblocks).symm, ?_, hhandlers.tail⟩
      rw [hnext]
      simp [blockWeight]
  | CTCH =>
    cases inner with
    | nil => simp [blockWeight] at hneed
    | cons x inner =>
      refine ⟨_ :: inner, (Option.some.inj hblocks).symm, ?_, ?_⟩
      · rw [hnext]
        simp [blockWeight]
      · cases htarget : (Instruction.target ⟨.CTCH, arg⟩ s.pc).head? with
        | none => exact .none hhandlers.tail
        | some j =>
          refine .some ?_ hhandlers.tail
          rw [hcatch j (List.mem_of_head? htarget)]
          simp [blockWeight]
  | _ =>
    refine ⟨inner, (Option.some.inj hblocks).symm, ?_, hhandlers⟩
    rw [hnext]
    simp [blockWeight]

/-- An error is caught in a context that the path has opened. -/
theorem openBlocks_raise {lev : Int → Option Int} {is : List Instruction} {taken : Nat}
    (houter : ∀ h : Int, some h ∈ outer → ¬ (0 ≤ h ∧ h < is.length))
    (hstep : s.step is (.raise taken) = some s') (h : OpenBlocks lev outer s) :
    OpenBlocks lev outer s' := by
  obtain ⟨inner, hcontexts, -, hhandlers⟩ := h
  obtain ⟨hcatch, hrange⟩ := raise_cases hstep
  rw [hcontexts] at hcatch
  clear hcontexts
  induction inner with
  | nil =>
    obtain ⟨pre, rest, rfl, -, -⟩ := catchError_cases hcatch
    exact absurd hrange (houter _ (by simp))
  | cons x inner ih =>
    cases hhandlers with
    | none hrest => exact ih hrest hcatch
    | some hlevel hrest =>
      obtain ⟨hpc, hcontexts⟩ := Prod.mk.inj (Option.some.inj hcatch)
      refine ⟨none :: inner, hcontexts.symm, ?_, .none hrest⟩
      rw [← hpc, hlevel]
      simp

theorem openBlocks_step (hc : c.HasLevel blockWeight 0)
    (houter : ∀ h : Int, some h ∈ outer → ¬ (0 ≤ h ∧ h < c.code.length)) (s : PathState)
    (move : Move) (s' : PathState) (h : OpenBlocks (c.levelAt blockWeight 0) outer s)
    (htame : c.Tame blockWeight s move) (hstep : s.step c.code move = some s') :
    OpenBlocks (c.levelAt blockWeight 0) outer s' := by
  cases move with
  | goto pc => exact openBlocks_goto hc htame hstep h
  | raise taken => exact openBlocks_raise houter hstep h

end

/-- On the paths through the code that `C` allows, from a place where no handler of the code
is active, the contexts are those of the start when control leaves the code, and as many
whenever it comes to the same position. -/
structure BlocksBalanced (is : List Instruction) (C : PathState → Move → Prop) : Prop where
  leaves : ∀ (outer : List (Option Int)) (height : Int) (s : PathState),
    (∀ h : Int, some h ∈ outer → ¬ (0 ≤ h ∧ h < is.length)) →
    RunsIn (PathState.step is) C ⟨0, outer, height⟩ s →
    ¬ (0 ≤ s.pc ∧ s.pc < is.length) → s.contexts = outer
  same : ∀ (outer : List (Option Int)) (height : Int) (s s' : PathState),
    (∀ h : Int, some h ∈ outer → ¬ (0 ≤ h ∧ h < is.length)) →
    RunsIn (PathState.step is) C ⟨0, outer, height⟩ s →
    RunsIn (PathState.step is) C ⟨0, outer, height⟩ s' →
    s.pc = s'.pc → s.contexts.length = s'.contexts.length

/-- `while (x) { try { break } catch e {} }` -/
def breakInTry : ExpressionTree :=
  .whileStatement (.word "while" 1) (.identifier (.word "x" 1))
    (.tryStatement (.word "try" 1) (.word "catch" 1) (.breakStatement (.word "break" 1) .break)
      (.var false (.word "e" 1)) (.compoundStatement []))

end JeffVm
