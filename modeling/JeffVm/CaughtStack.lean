import JeffVm.PathExecution
import JeffVm.Pieces

/-!
# The operand stack when an error is caught

`_attemp_catch_error` goes back through the contexts and leaves the operand stack alone. What
the code of the `try` has pushed stays there, but for what the failing instruction has taken.
-/

set_option autoImplicit false

namespace JeffVm

/-! ## Paths with the values on the stack -/

structure StackState where
  pc : Int
  contexts : List (Option Int)
  stack : List Entity

namespace StackState

def path (s : StackState) : PathState := ⟨s.pc, s.contexts, s.stack.length⟩

def withPath (p : PathState) (stack : List Entity) : StackState := ⟨p.pc, p.contexts, stack⟩

/-- A step of the path; an instruction that passes control on leaves the values on the stack. -/
def step (is : List Instruction) (s : StackState) : Move × List Entity → Option StackState
  | (.goto pc, values) =>
    match insAt is s.pc with
    | none => none
    | some ins =>
      if ins.takes ≤ s.stack.length ∧ values.length = ins.leaves then
        (s.path.step is (.goto pc)).map fun p => withPath p (values ++ s.stack.drop ins.takes)
      else none
  | (.raise taken, _) =>
    if taken ≤ s.stack.length then
      (s.path.step is (.raise taken)).map fun p => withPath p (s.stack.drop taken)
    else none

variable {is : List Instruction} {s s' : StackState} {pc : Int} {taken : Nat}
  {values : List Entity}

theorem goto_stack (h : s.step is (.goto pc, values) = some s') :
    ∃ ins, insAt is s.pc = some ins ∧ Replaces ins.takes ins.leaves s.stack s'.stack ∧
      s'.stack = values ++ s.stack.drop ins.takes ∧
      s.path.step is (.goto pc) = some s'.path := by
  rw [step] at h
  cases hins : insAt is s.pc with
  | none => simp [hins] at h
  | some ins =>
    simp only [hins] at h
    split at h
    · rename_i hlength
      obtain ⟨p, hp, rfl⟩ := Option.map_eq_some_iff.mp h
      have hreplaces : Replaces ins.takes ins.leaves s.stack (values ++ s.stack.drop ins.takes) :=
        ⟨hlength.1, values, hlength.2, rfl⟩
      refine ⟨ins, rfl, hreplaces, rfl, ?_⟩
      obtain ⟨ins', hins', -, -, -, hheight⟩ := goto_cases hp
      have hsame : ins' = ins := Option.some.inj (hins'.symm.trans hins)
      subst hsame
      have hpath : p.height = (values ++ s.stack.drop ins'.takes).length := by
        rw [hheight, hreplaces.length]
        rfl
      rw [hp, path, withPath, ← hpath]
    · cases h

theorem raise_stack (h : s.step is (.raise taken, values) = some s') :
    taken ≤ s.stack.length ∧ s'.stack = s.stack.drop taken ∧
      s.path.step is (.raise taken) = some s'.path := by
  rw [step] at h
  split at h
  · rename_i hlength
    obtain ⟨p, hp, rfl⟩ := Option.map_eq_some_iff.mp h
    refine ⟨hlength, rfl, ?_⟩
    have hheight : s.path.height = s.stack.length := rfl
    have hpath : p.height = (s.stack.drop taken).length := by
      rw [raise_height hp, List.length_drop, hheight]
      omega
    rw [hp, path, withPath, ← hpath]
  · cases h

end StackState

/-! ## Paths are what the virtual machine does -/

section

variable {env : Env} {w w' : World} {t : TaskId} {c : ContextId} {o : World.Outcome} {base : Nat}
  {is : List Instruction}

def World.stackState (w : World) (t : TaskId) (c : ContextId) (base : Int) : StackState :=
  .withPath (w.pathState t c base) (w.tasks t).entityStack

/-- An iteration follows a path, unless it raises an error or ends the task. -/
theorem iterate_is_stackStep (hblock : w.InBlock t c) (hcode : w.HasCode c base is)
    (hlow : 0 ≤ (w.pathState t c base).pc) (hhigh : (w.pathState t c base).pc < is.length)
    (hhandler : ∀ ins, insAt is (w.pathState t c base).pc = some ins →
      ∀ j ∈ ins.handler (w.pathState t c base).pc, 0 ≤ base + j)
    (herror : (w.contexts.context c).error = none) (h : w.iterate env t c = some (w', o)) :
    (∃ c' pc values,
      (w.stackState t c base).step is (.goto pc, values) = some (w'.stackState t c' base) ∧
      (w'.tasks t).current = some c' ∧ GoesOn w' t c c' o) ∨
    (o = .running c ∧ ∃ taken, Raised w w' t c taken ∧
      (w'.tasks t).entityStack = (w.tasks t).entityStack.drop taken) ∨
    (o = .stopped ∧ (w'.tasks t).state = .COMPLETE) := by
  rcases iterate_is_step hblock hcode hlow hhigh hhandler herror h with
    ⟨c', pc, ins, hstep, hins, ⟨htakes, values, hvalues, hstack⟩, hcurrent, hgoes⟩ | hraised |
      hcomplete
  · refine .inl ⟨c', pc, values, ?_, hcurrent, hgoes⟩
    have hat : insAt is (w.stackState t c base).pc = some ins := hins
    have hpath : (w.stackState t c base).path.step is (.goto pc) =
      some (w'.pathState t c' base) := hstep
    have hafter : w'.stackState t c' base =
        .withPath (w'.pathState t c' base) (values ++ (w.tasks t).entityStack.drop ins.takes) := by
      rw [World.stackState, hstack]
    rw [StackState.step, hat, hafter]
    simp only
    rw [if_pos ⟨htakes, hvalues⟩, hpath]
    rfl
  · exact .inr (.inl hraised)
  · exact .inr (.inr hcomplete)

/-- An error that arises in a block with a handler is caught there. -/
theorem raised_is_stackStep {taken : Nat} (hcode : w.HasCode c base is)
    (hlow : 0 ≤ (w.pathState t c base).pc) (hhigh : (w.pathState t c base).pc < is.length)
    (herror : (w.contexts.context c).error = none) (h : w.iterate env t c = some (w', o))
    (hraised : Raised w w' t c taken)
    (hstack : (w'.tasks t).entityStack = (w.tasks t).entityStack.drop taken)
    (hcatch : base ≤ (w.contexts.context c).catchIns)
    (hinside : (w.contexts.context c).catchIns < base + is.length) :
    ∃ w'', w'.fetch t c = some (true, w'') ∧
      (w.stackState t c base).step is (.raise taken, []) = some (w''.stackState t c base) := by
  obtain ⟨w'', hfetch, htasks, hstep⟩ :=
    raised_is_step hcode hlow hhigh herror h hraised hcatch hinside
  refine ⟨w'', hfetch, ?_⟩
  have hheight := hraised.height
  have hpath : (w.stackState t c base).path.step is (.raise taken) =
    some (w''.pathState t c base) := hstep
  have htaken : taken ≤ (w.stackState t c base).stack.length := by
    change taken ≤ (w.tasks t).entityStack.length
    omega
  rw [StackState.step, if_pos htaken, hpath, World.stackState, World.stackState, htasks, hstack]
  rfl

end

/-! ## The try statement -/

structure TryStatement where
  tryToken : Token
  catchToken : Token
  tryBody : ExpressionTree
  errorAssignmentLhs : Assignment
  catchBody : ExpressionTree

namespace TryStatement

variable (stmt : TryStatement)

def tree : ExpressionTree :=
  .tryStatement stmt.tryToken stmt.catchToken stmt.tryBody stmt.errorAssignmentLhs stmt.catchBody

def asCode : Code := lower stmt.tree

/-- The first instruction of the catch code. -/
def handlerPos : Nat := 2 + (lower stmt.tryBody).size + 1

/-- A step through the code of the statement, which stands in `is`, on which no patch loop has
rewritten a jump of another statement, and after which the stack is as high as the position asks. -/
structure Steady (is : List Instruction) (s : StackState) (l : Move × List Entity) : Prop where
  kept : insAt is s.pc = insAt stmt.asCode.code s.pc
  balanced : BalancedTargets stmt.tree
  tame : stmt.asCode.Tame heightWeight s.path l.1
  caught : CaughtLevel stmt.asCode s.path l.1

/-- The values that the code of the statement has on the stack, above those from before. -/
structure Above (stack : List Entity) (s : StackState) : Prop where
  values : ∃ values, s.stack = values ++ stack ∧
    stmt.asCode.levelAt heightWeight 0 s.pc = some (values.length : Int)
  handlers : ∀ h : Int, some h ∈ s.contexts → 0 ≤ h ∧ h < stmt.asCode.code.length →
    ∃ l : Nat, stmt.asCode.levelAt heightWeight 0 h = some (l : Int)

variable {stmt} {is : List Instruction} {s s' : StackState} {stack : List Entity}

theorem level_height (h : BalancedTargets stmt.tree) : stmt.asCode.HasLevel heightWeight 0 :=
  (flat_lower stmt.tree h).level 0 (Int.le_refl 0)

theorem Above.goto {pc : Int} {new : List Entity} (h : stmt.Above stack s)
    (hsteady : stmt.Steady is s (.goto pc, new)) (hlength : is.length = stmt.asCode.code.length)
    (hstep : s.step is (.goto pc, new) = some s') : stmt.Above stack s' := by
  obtain ⟨ins, hins, ⟨-, values, hvalues, hreplaced⟩, -, hpath⟩ := StackState.goto_stack hstep
  obtain ⟨pushed, hpushed, hlevel⟩ := h.values
  have hkept : insAt is s.path.pc = insAt stmt.asCode.code s.path.pc := hsteady.kept
  rw [step_congr hkept hlength] at hpath
  obtain ⟨ins', hins', hnext, hpc, hblocks, -⟩ := goto_cases hpath
  have hsame : ins' = ins := by
    rw [← hkept] at hins'
    exact Option.some.inj (hins'.symm.trans hins)
  subst hsame
  obtain ⟨hneed, hlevels⟩ :=
    Code.fits_insAt (level_height hsteady.balanced) hins' hlevel
  have hgo := hlevels hsteady.tame
  have htakes : ins'.takes ≤ pushed.length := by
    have hcast : (ins'.takes : Int) ≤ pushed.length := hneed
    omega
  have hgain : heightWeight.gain ins' = (ins'.leaves : Int) - ins'.takes := rfl
  refine ⟨⟨values ++ pushed.drop ins'.takes, ?_, ?_⟩, ?_⟩
  · rw [hreplaced, hpushed, List.drop_append_of_le_length htakes, List.append_assoc]
  · rw [← hpc] at hnext
    rw [List.length_append, List.length_drop, hvalues]
    refine (hgo _ (List.mem_append_left _ hnext)).trans ?_
    rw [hgain]
    congr 1
    omega
  · intro j hmem hrange
    rcases mem_of_blocks hblocks hmem with hold | hnew
    · exact h.handlers j hold hrange
    · have hj := hgo j (List.mem_append_right _ hnew)
      have hzero : heightWeight.gain ins' = 0 := by
        obtain ⟨op, arg⟩ := ins'
        cases op <;> first | rfl | cases hnew
      rw [hzero, Int.add_zero] at hj
      exact ⟨_, hj⟩

theorem Above.raise {taken : Nat} {new : List Entity} (h : stmt.Above stack s)
    (hsteady : stmt.Steady is s (.raise taken, new)) (hlength : is.length = stmt.asCode.code.length)
    (hstep : s.step is (.raise taken, new) = some s') : stmt.Above stack s' := by
  obtain ⟨-, hstack, hpath⟩ := StackState.raise_stack hstep
  obtain ⟨pushed, hpushed, hlevel⟩ := h.values
  obtain ⟨hcatch, hrange⟩ := raise_cases hpath
  obtain ⟨pre, rest, hcontexts, -, hrest⟩ := catchError_cases hcatch
  rw [hlength] at hrange
  have hmem : some s'.pc ∈ s.contexts := by
    have hall : s.contexts = pre ++ some s'.pc :: rest := hcontexts
    rw [hall]
    simp
  obtain ⟨l, hl⟩ := h.handlers _ hmem hrange
  have hcaught := hsteady.caught _ _ _ _ hcatch hlevel hl
  have htaken : taken ≤ pushed.length := by omega
  refine ⟨⟨pushed.drop taken, ?_, ?_⟩, ?_⟩
  · rw [hstack, hpushed, List.drop_append_of_le_length htaken]
  · rw [hl, List.length_drop]
    congr 1
    omega
  · intro j hj
    have hkept : some j ∈ s.contexts := by
      have hall : s.contexts = pre ++ some s'.pc :: rest := hcontexts
      have hnew : s'.contexts = none :: rest := hrest
      rw [hnew] at hj
      rw [hall]
      simp only [List.mem_cons, reduceCtorEq, false_or] at hj
      simp [hj]
    exact h.handlers j hkept

/-- The step lemma. -/
theorem Above.step (hlength : is.length = stmt.asCode.code.length) (s : StackState)
    (l : Move × List Entity) (s' : StackState) (h : stmt.Above stack s)
    (hsteady : stmt.Steady is s l) (hstep : s.step is l = some s') : stmt.Above stack s' := by
  obtain ⟨move, new⟩ := l
  cases move with
  | goto pc => exact h.goto hsteady hlength hstep
  | raise taken => exact h.raise hsteady hlength hstep

theorem Above.start {outer : List (Option Int)} (hbalanced : BalancedTargets stmt.tree)
    (houter : ∀ h : Int, some h ∈ outer → ¬ (0 ≤ h ∧ h < stmt.asCode.code.length)) :
    stmt.Above stack ⟨0, outer, stack⟩ where
  values := ⟨[], rfl, (Code.fits_levelAt (level_height hbalanced)).2⟩
  handlers := by
    intro h hmem hrange
    exact absurd hrange (houter h hmem)

/-- `CTCH` is executed at the height of the start. -/
theorem level_catch : stmt.asCode.levelAt heightWeight 0 1 = some 0 := by
  have hagrees := Agrees.iff_getElem.mp
    (Code.agrees_levelAt (W := heightWeight) (c := stmt.asCode) (l := 0)) 1
    (.on (.jump .CTCH ((lower stmt.tryBody).emit.length + 1)) 0) rfl
  exact hagrees

end TryStatement

/-- After an error that the statement catches, what is left on the stack is what was there before
just when the failing instruction has taken all that the code had pushed. -/
structure CatchRestores (stmt : TryStatement) (is : List Instruction)
    (C : StackState → Move × List Entity → Prop) : Prop where
  entered : ∀ (outer : List (Option Int)) (stack : List Entity) (s : StackState),
    (∀ h : Int, some h ∈ outer → ¬ (0 ≤ h ∧ h < is.length)) →
    RunsIn (StackState.step is) C ⟨0, outer, stack⟩ s → s.pc = 1 → s.stack = stack
  caught : ∀ (outer : List (Option Int)) (stack : List Entity) (s s' : StackState) (taken : Nat),
    (∀ h : Int, some h ∈ outer → ¬ (0 ≤ h ∧ h < is.length)) →
    RunsIn (StackState.step is) C ⟨0, outer, stack⟩ s →
    s.step is (.raise taken, []) = some s' → s'.pc = stmt.handlerPos →
    (s'.stack = stack ↔ stmt.asCode.levelAt heightWeight 0 s.pc = some (taken : Int))

/-- `for x in z { try { f(x) } catch e { x } }` -/
def tryWithCall : TryStatement where
  tryToken := .word "try" 2
  catchToken := .word "catch" 4
  tryBody := .postfixExpression (.identifier (.word "f" 3))
    [.fncall (.word "(" 3) (some (.identifier (.word "x" 3)))]
  errorAssignmentLhs := .var false (.word "e" 4)
  catchBody := .identifier (.word "x" 5)

def tryInForeach : RegisteredTree :=
  .expression (.foreachStatement (.word "for" 1) (.word "in" 1) (.var false (.word "x" 1))
    (.identifier (.word "z" 1)) tryWithCall.tree)

theorem tryInForeach_piece : tryWithCall.asCode.PieceAt 11 (lowerTree tryInForeach) := by
  have hpiece : tryWithCall.asCode.PieceAt
      (1 + (lowerIdentifier (.word "z" 1)).size + 8 +
        (lowerAssignment (.var false (.word "x" 1))).size + 0) (lowerTree tryInForeach) :=
    .foreachBody .whole
  exact hpiece

/-- `try { for y in z { raise y } } catch e { }` -/
def raiseInForeach : TryStatement where
  tryToken := .word "try" 1
  catchToken := .word "catch" 5
  tryBody := .foreachStatement (.word "for" 2) (.word "in" 2) (.var false (.word "y" 2))
    (.identifier (.word "z" 2)) (.raiseStatement (.word "raise" 3) (.identifier (.word "y" 3)))
  errorAssignmentLhs := .var false (.word "e" 5)
  catchBody := .compoundStatement []

end JeffVm
