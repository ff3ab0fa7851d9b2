import JeffVm.BlockBalance
import JeffVm.Pieces

/-!
# Control flow of the loops

What a step through the code of a loop statement does in terms of its rounds: the test, the
body, the increment, and the code that ends the loop. The statement may lie anywhere in a tree,
inside other loops whose patch loops run over its code too.
-/

set_option autoImplicit false

namespace JeffVm

/-- A loop statement. -/
inductive LoopStatement where
  | whileLoop (whileToken : Token) (condition body : ExpressionTree)
  | forLoop (forToken : Token) (init condition inc body : ExpressionTree)
  | foreachLoop (forToken inToken : Token) (assignmentLhs : Assignment)
      (iterable body : ExpressionTree)

namespace LoopStatement

def tree : LoopStatement → ExpressionTree
  | whileLoop whileToken condition body => .whileStatement whileToken condition body
  | forLoop forToken init condition inc body => .forStatement forToken init condition inc body
  | foreachLoop forToken inToken assignmentLhs iterable body =>
    .foreachStatement forToken inToken assignmentLhs iterable body

def isWhile : LoopStatement → Bool
  | whileLoop _ _ _ => true
  | _ => false

def isForeach : LoopStatement → Bool
  | foreachLoop _ _ _ _ _ => true
  | _ => false

/-! ## The parts of a loop -/

/-- What is done before the first test. -/
def init : LoopStatement → Code
  | whileLoop _ _ _ => .nil
  | forLoop _ init _ _ _ => lower init
  | foreachLoop _ _ _ iterable _ =>
    lower iterable ++ (opCode .PUSH ++ idCode .CALL iterFnName ++ opCode .PUSH)

/-- What is evaluated before each round. -/
def test : LoopStatement → Code
  | whileLoop _ condition _ => lower condition
  | forLoop _ _ condition _ _ => lower condition
  | foreachLoop _ _ _ _ _ => opCode .DUP ++ idCode .CALL hasNextFnName

/-- The body, which in a `foreach` gets the next element first. -/
def body : LoopStatement → Code
  | whileLoop _ _ body => lower body
  | forLoop _ _ _ _ body => lower body
  | foreachLoop _ _ assignmentLhs _ body =>
    Code.foreachBody (lowerAssignment assignmentLhs) (lower body)

def inc : LoopStatement → Code
  | forLoop _ _ _ inc _ => lower inc
  | _ => .nil

/-- What the loop leaves on the stack is removed at its end. -/
def unwind : LoopStatement → Code
  | foreachLoop _ _ _ _ _ => opCode .RES
  | _ => .nil

variable (loop : LoopStatement)

def asCode : Code := lower loop.tree

/-- The part that a patch loop runs over. -/
def repeated : Code := loop.body ++ loop.inc

def testPos : Nat := 1 + loop.init.size
def branchPos : Nat := loop.testPos + loop.test.size
def bodyPos : Nat := loop.branchPos + 1
def incPos : Nat := loop.bodyPos + loop.body.size
/-- The jump back to the test. -/
def backPos : Nat := loop.incPos + loop.inc.size
/-- The code that ends the loop. -/
def exitPos : Nat := loop.backPos + 1

/-- Where a `continue` has to go: to the condition, to the increment, or to the jump back to
the `has_next` test. -/
def continuePos : Nat :=
  match loop with
  | whileLoop _ _ _ => loop.testPos
  | forLoop _ _ _ _ _ => loop.incPos
  | foreachLoop _ _ _ _ _ => loop.backPos

/-- At this position is the jump of a `break` or `continue` of this loop. -/
def LeavesRound (type : BreakType) (pc : Int) : Prop :=
  ∃ (i : Nat) (item : Item), pc = loop.bodyPos + i ∧ loop.repeated.emit[i]? = some item ∧
    item.own = some type

/-- What one step may do in a loop. -/
inductive Step : Int → Int → Prop where
  | init {p q : Int} (hp : 0 ≤ p ∧ p < loop.testPos) (hq : 0 < q ∧ q ≤ loop.testPos) : Step p q
  | test {p q : Int} (hp : loop.testPos ≤ p ∧ p < loop.branchPos)
      (hq : loop.testPos ≤ q ∧ q ≤ loop.branchPos) : Step p q
  | succeeds : Step loop.branchPos loop.bodyPos
  | fails : Step loop.branchPos loop.exitPos
  | body {p q : Int} (hp : loop.bodyPos ≤ p ∧ p < loop.incPos)
      (hq : loop.bodyPos < q ∧ q ≤ loop.incPos) (hstays : ∀ type, ¬ loop.LeavesRound type p) :
      Step p q
  | inc {p q : Int} (hp : loop.incPos ≤ p ∧ p < loop.backPos)
      (hq : loop.incPos < q ∧ q ≤ loop.backPos) (hstays : ∀ type, ¬ loop.LeavesRound type p) :
      Step p q
  | «break» {p : Int} (h : loop.LeavesRound .break p) : Step p loop.exitPos
  | «continue» {p : Int} (h : loop.LeavesRound .continue p) : Step p loop.continuePos
  | back : Step loop.backPos loop.testPos
  | leave {p : Int} (hp : loop.exitPos ≤ p ∧ p < loop.asCode.size) : Step p (p + 1)

end LoopStatement

/-! ## The layout -/

namespace LoopStatement

variable (loop : LoopStatement)

/-- Where a `continue` does go. -/
def patchedPos : Nat :=
  match loop with
  | whileLoop _ _ _ => loop.bodyPos
  | forLoop _ _ _ _ _ => loop.incPos
  | foreachLoop _ _ _ _ _ => loop.backPos

def breakOffset (i : Nat) : Int := loop.exitPos - (loop.bodyPos + i) - 1
def continueOffset (i : Nat) : Int := loop.patchedPos - (loop.bodyPos + i) - 1

theorem size_repeated : loop.repeated.size = loop.body.size + loop.inc.size :=
  Code.size_append _ _

theorem breakOffset_eq (i : Nat) : loop.breakOffset i = loop.repeated.size - i := by
  rw [size_repeated]
  simp only [breakOffset, exitPos, backPos, incPos]
  push_cast
  omega

theorem plain_init : loop.init.allPlain Instruction.isPlain = true := by
  cases loop with
  | whileLoop _ _ _ => rfl
  | forLoop _ init _ _ _ => exact allPlain_lower init
  | foreachLoop _ _ _ iterable _ =>
    rw [init, Code.allPlain_append, allPlain_lower]
    rfl

theorem plain_test : loop.test.allPlain Instruction.isPlain = true := by
  cases loop with
  | whileLoop _ condition _ => exact allPlain_lower condition
  | forLoop _ _ condition _ _ => exact allPlain_lower condition
  | foreachLoop _ _ _ _ _ => rfl

theorem plain_body : loop.body.allPlain Instruction.isPlain = true := by
  cases loop with
  | whileLoop _ _ body => exact allPlain_lower body
  | forLoop _ _ _ _ body => exact allPlain_lower body
  | foreachLoop _ _ assignmentLhs _ body =>
    simp [LoopStatement.body, Code.foreachBody, allPlain_assignment, allPlain_lower,
      Instruction.isPlain, Op.isSkeleton]

theorem plain_inc : loop.inc.allPlain Instruction.isPlain = true := by
  cases loop with
  | whileLoop _ _ _ => rfl
  | forLoop _ _ _ inc _ => exact allPlain_lower inc
  | foreachLoop _ _ _ _ _ => rfl

theorem marks_append {a : Code} (ha : a.allPlain Instruction.isPlain = true) (b : Code) :
    (a ++ b).marks blockWeight 1 = a.marks blockWeight 1 ++ b.marks blockWeight 1 := by
  have hnet := (a.hasLevel_block (Int.le_refl 0) ha).2
  change (Code.seq a b).marks blockWeight 1 = _
  rw [Code.marks, hnet]
  rfl

/-- All loops have one layout. -/
theorem marks_code : loop.asCode.marks blockWeight 0 = Mark.settleAll
    (.on (.op .NBLK) 0 :: (loop.init.marks blockWeight 1 ++ (loop.test.marks blockWeight 1 ++
      (.on (.jump .IFN (loop.repeated.size + 1)) 1 ::
        (Mark.patchAll loop.breakOffset loop.continueOffset 1 (loop.repeated.marks blockWeight 1) ++
          (.on (.jump .JMP (-(loop.test.size + loop.repeated.size + 2))) 1 ::
            (loop.unwind.marks blockWeight 1 ++ [.on (.op .BBLK) 1]))))))) := by
  have hbrk : loop.breakOffset = fun (i : Nat) => (loop.repeated.size : Int) - i :=
    funext loop.breakOffset_eq
  have hrepeated : loop.repeated.marks blockWeight 1 =
      loop.body.marks blockWeight 1 ++ loop.inc.marks blockWeight 1 :=
    marks_append loop.plain_body loop.inc
  rw [hbrk, hrepeated, size_repeated]
  cases loop with
  | whileLoop whileToken condition body =>
    have hcont : (whileLoop whileToken condition body).continueOffset =
        fun (i : Nat) => -((i : Int) + 1) := by
      funext i
      simp only [continueOffset, patchedPos]
      omega
    have hback : -((1 : Int) + (lower condition).size + (lower body).size + 1) =
        -((lower condition).size + (lower body).size + 2) := by omega
    have hlevel : (0 : Int) + blockWeight.block = 1 := rfl
    rw [hcont]
    simp only [asCode, tree, lower, Code.marks, LoopStatement.body, inc, init, test, unwind,
      hlevel, ← Code.size.eq_1, hback]
    simp [Code.size, Code.emit]
  | forLoop forToken init condition inc body =>
    have hcont : (forLoop forToken init condition inc body).continueOffset =
        fun (i : Nat) => ((lower body).size : Int) - i - 1 := by
      funext i
      simp only [continueOffset, patchedPos, incPos, LoopStatement.body]
      push_cast
      omega
    have hback : -((lower body).size + (lower condition).size + (lower inc).size + 1 + 1 : Int) =
        -((lower condition).size + ((lower body).size + (lower inc).size) + 2) := by omega
    have hlevel : (0 : Int) + blockWeight.block = 1 := rfl
    rw [hcont]
    simp only [asCode, tree, lower, Code.marks, LoopStatement.body, LoopStatement.inc,
      LoopStatement.init, test, unwind, hlevel, ← Code.size.eq_1, hback]
    simp
  | foreachLoop forToken inToken assignmentLhs iterable body =>
    have hcont : (foreachLoop forToken inToken assignmentLhs iterable body).continueOffset =
        fun (i : Nat) => ((Code.foreachBody (lowerAssignment assignmentLhs) (lower body)).size : Int) -
          i - 1 := by
      funext i
      simp only [continueOffset, patchedPos, backPos, incPos, LoopStatement.body, inc, Code.size,
        Code.emit, List.length_nil]
      push_cast
      omega
    have hlhs := allPlain_assignment assignmentLhs
    have hinit : (foreachLoop forToken inToken assignmentLhs iterable body).init.marks blockWeight 1 =
        (lower iterable).marks blockWeight 1 ++
          [.on (.op .PUSH) 1, .on (.named .CALL iterFnName) 1, .on (.op .PUSH) 1] :=
      marks_append (allPlain_lower iterable) _
    have hbody : (Code.foreachBody (lowerAssignment assignmentLhs) (lower body)).marks blockWeight 1 =
        [.on (.op .DUP) 1, .on (.named .CALL nextFnName) 1] ++
          (lowerAssignment assignmentLhs).marks blockWeight 1 ++ (lower body).marks blockWeight 1 := by
      rw [Code.foreachBody, marks_append, marks_append]
      · rfl
      · rfl
      · rw [Code.allPlain_append, hlhs]
        rfl
    have hsize : ([Item.op .DUP, .named .CALL nextFnName] ++ (lowerAssignment assignmentLhs).emit ++
        (lower body).emit).length =
          (Code.foreachBody (lowerAssignment assignmentLhs) (lower body)).size := by
      rw [Code.size, Code.emit_foreachBody]
    have hback (n : Int) : -(3 + n + 1) = -(2 + n + 2) := by omega
    have hlevel : (0 : Int) + blockWeight.block = 1 := rfl
    have hvalue : (1 : Int) + blockWeight.value = 1 := rfl
    have htest : (foreachLoop forToken inToken assignmentLhs iterable body).test.marks blockWeight 1 =
        [.on (.op .DUP) 1, .on (.named .CALL hasNextFnName) 1] := rfl
    have htestSize : (foreachLoop forToken inToken assignmentLhs iterable body).test.size = 2 := rfl
    have hunwind : (opCode .RES).marks blockWeight 1 = [.on (.op .RES) 1] := rfl
    have hnil : Code.nil.size = 0 := rfl
    rw [hcont, hinit, htest, htestSize]
    simp only [asCode, tree, lower, Code.marks, LoopStatement.body, LoopStatement.inc, hbody, hsize,
      unwind, hunwind, hlevel, hvalue, hback, hnil, Nat.add_zero]
    simp

/-! ## Where control goes -/

/-- No patch loop has taken the jump of another statement at this position for a `break` or
`continue` of this loop. -/
def ReadRight (pc : Int) : Prop :=
  ∀ (i : Nat) (item : Item), pc = loop.bodyPos + i → loop.repeated.emit[i]? = some item →
    item.misread = false

/-- From this instruction control goes on as one step of the loop may. -/
def Follows (p : Nat) (m : Mark) : Prop :=
  m.level.isSome → m.wild = false → loop.ReadRight p →
    (loop.isWhile = true → ¬ loop.LeavesRound .continue p) →
      (∀ j ∈ m.item.ins.nexts p, loop.Step p j) ∧
        ∀ j ∈ m.item.ins.handler p, j ≠ loop.bodyPos

theorem size_code : loop.asCode.size = loop.exitPos + loop.unwind.size + 1 := by
  have hlength := congrArg List.length loop.marks_code
  rw [Code.length_marks] at hlength
  rw [Code.size, hlength]
  simp only [Mark.length_settleAll, List.length_cons, List.length_append, Code.length_marks,
    Mark.length_patchAll, List.length_nil]
  rw [show loop.repeated.emit.length = loop.repeated.size from rfl, size_repeated]
  simp only [exitPos, backPos, incPos, bodyPos, branchPos, testPos, Code.size]
  omega

theorem level_of_plain {c : Code} (h : c.allPlain Instruction.isPlain = true) :
    c.HasLevel blockWeight 1 :=
  (c.hasLevel_block (by decide) h).1

theorem follows_init : EachFrom loop.Follows 1 (loop.init.marks blockWeight 1) := by
  intro i m hm hlevel hwild _ _
  have hlt := (List.getElem?_eq_some_iff.mp hm).1
  rw [Code.length_marks] at hlt
  have hi : i < loop.init.size := hlt
  have hstays := Code.stays (level_of_plain loop.plain_init) hm hlevel hwild
  have hpos : ((1 + i : Nat) : Int) = (i : Int) + 1 := by omega
  constructor
  · intro j hj
    rw [hpos, Instruction.mem_nexts_add] at hj
    have hrange := hstays _ (List.mem_append_left _ hj)
    refine .init ?_ ?_ <;> rw [testPos] <;> push_cast <;> omega
  · intro j hj
    rw [hpos, Instruction.mem_handler_add] at hj
    have hrange := hstays _ (List.mem_append_right _ hj)
    simp only [bodyPos, branchPos, testPos]
    omega

theorem follows_test : EachFrom loop.Follows loop.testPos (loop.test.marks blockWeight 1) := by
  intro i m hm hlevel hwild _ _
  have hlt := (List.getElem?_eq_some_iff.mp hm).1
  rw [Code.length_marks] at hlt
  have hi : i < loop.test.size := hlt
  have hstays := Code.stays (level_of_plain loop.plain_test) hm hlevel hwild
  have hpos : ((loop.testPos + i : Nat) : Int) = (i : Int) + loop.testPos := by omega
  constructor
  · intro j hj
    rw [hpos, Instruction.mem_nexts_add] at hj
    have hrange := hstays _ (List.mem_append_left _ hj)
    refine .test ?_ ?_ <;> rw [branchPos] <;> push_cast <;> omega
  · intro j hj
    rw [hpos, Instruction.mem_handler_add] at hj
    have hrange := hstays _ (List.mem_append_right _ hj)
    simp only [bodyPos, branchPos]
    omega

theorem follows_branch :
    loop.Follows loop.branchPos (.on (.jump .IFN (loop.repeated.size + 1)) 1) := by
  intro _ _ _ _
  refine ⟨?_, fun _ h => by cases h⟩
  intro j hj
  rcases List.mem_pair.mp hj with rfl | rfl
  · have hto : (loop.branchPos : Int) + 1 = loop.bodyPos := by
      rw [bodyPos]
      push_cast
      rfl
    rw [hto]
    exact .succeeds
  · have hto : (loop.branchPos : Int) + 1 + ((loop.repeated.size : Int) + 1) = loop.exitPos := by
      rw [size_repeated]
      simp only [exitPos, backPos, incPos, bodyPos]
      push_cast
      omega
    rw [hto]
    exact .fails

theorem follows_back :
    loop.Follows loop.backPos (.on (.jump .JMP (-(loop.test.size + loop.repeated.size + 2))) 1) := by
  intro _ _ _ _
  refine ⟨?_, fun _ h => by cases h⟩
  intro j hj
  obtain rfl := List.mem_singleton.mp hj
  have hto : (loop.backPos : Int) + 1 + -((loop.test.size : Int) + loop.repeated.size + 2) =
      loop.testPos := by
    rw [size_repeated]
    simp only [backPos, incPos, bodyPos, branchPos]
    push_cast
    omega
  rw [hto]
  exact .back

theorem follows_unwind : EachFrom loop.Follows loop.exitPos (loop.unwind.marks blockWeight 1) := by
  have hsize := loop.size_code
  cases loop with
  | whileLoop _ _ _ => exact .nil
  | forLoop _ _ _ _ _ => exact .nil
  | foreachLoop forToken inToken assignmentLhs iterable body =>
    have hunwind : (foreachLoop forToken inToken assignmentLhs iterable body).unwind.size = 1 := rfl
    refine EachFrom.cons_iff.mpr ⟨?_, .nil⟩
    intro _ _ _ _
    refine ⟨?_, fun _ h => by cases h⟩
    intro j hj
    have hto : j = (foreachLoop forToken inToken assignmentLhs iterable body).exitPos + 1 :=
      List.mem_singleton.mp hj
    rw [hunwind] at hsize
    rw [hto]
    exact .leave ⟨by omega, by omega⟩

theorem follows_leave : loop.Follows (loop.exitPos + loop.unwind.size) (.on (.op .BBLK) 1) := by
  intro _ _ _ _
  refine ⟨?_, fun _ h => by cases h⟩
  intro j hj
  obtain rfl := List.mem_singleton.mp hj
  have hsize := loop.size_code
  exact .leave ⟨by omega, by omega⟩

theorem follows_start : loop.Follows 0 (.on (.op .NBLK) 0) := by
  intro _ _ _ _
  refine ⟨?_, fun _ h => by cases h⟩
  intro j hj
  have hto : j = 1 := List.mem_singleton.mp hj
  have htest : loop.testPos = 1 + loop.init.size := rfl
  rw [hto]
  exact .init ⟨by omega, by omega⟩ ⟨by omega, by omega⟩

/-- An instruction of the repeated part is one of the body or of the increment. -/
theorem mark_repeated {i : Nat} {m : Mark} (hm : (loop.repeated.marks blockWeight 1)[i]? = some m) :
    (i < loop.body.size ∧ (loop.body.marks blockWeight 1)[i]? = some m) ∨
      ∃ k, i = loop.body.size + k ∧ k < loop.inc.size ∧
        (loop.inc.marks blockWeight 1)[k]? = some m := by
  rw [repeated, marks_append loop.plain_body] at hm
  by_cases hi : i < loop.body.size
  · left
    rw [List.getElem?_append_left (by rw [Code.length_marks]; exact hi)] at hm
    exact ⟨hi, hm⟩
  · right
    have hle : (loop.body.marks blockWeight 1).length ≤ i := by
      rw [Code.length_marks]
      exact Nat.le_of_not_lt hi
    rw [List.getElem?_append_right hle, Code.length_marks] at hm
    have hlt := (List.getElem?_eq_some_iff.mp hm).1
    rw [Code.length_marks] at hlt
    exact ⟨i - loop.body.size, by omega, hlt, hm⟩

/-- Only a jump that looks like a `break` can be one of this loop. -/
theorem stays_of_not_looks {i : Nat} {item : Item} (hitem : loop.repeated.emit[i]? = some item)
    (hlooks : item.ins.looksLikeBreak = false) (type : BreakType) :
    ¬ loop.LeavesRound type (loop.bodyPos + i) := by
  rintro ⟨k, item', hk, hitem', hown⟩
  have hik : k = i := by omega
  subst hik
  rw [hitem] at hitem'
  cases hitem'
  have hown' := Code.looksLikeBreak_of_own (List.mem_of_getElem? hitem) (hown ▸ rfl)
  rw [hlooks] at hown'
  cases hown'

theorem follows_unpatched {i : Nat} {m : Mark}
    (hm : (loop.repeated.marks blockWeight 1)[i]? = some m) (hlevel : m.level.isSome)
    (hwild : m.wild = false) (hstays : ∀ type, ¬ loop.LeavesRound type (loop.bodyPos + i)) :
    (∀ j ∈ m.item.ins.nexts (loop.bodyPos + i), loop.Step (loop.bodyPos + i) j) ∧
      ∀ j ∈ m.item.ins.handler (loop.bodyPos + i), j ≠ loop.bodyPos := by
  have hitems : ∀ {c : Code} {k : Nat}, (c.marks blockWeight 1)[k]? = some m →
      c.emit[k]? = some m.item := by
    intro c k h
    rw [← Code.marks_item (W := blockWeight) c 1, List.getElem?_map, h]
    rfl
  rcases loop.mark_repeated hm with ⟨hi, hbody⟩ | ⟨k, rfl, hk, hinc⟩
  · have hrange := Code.stays (level_of_plain loop.plain_body) hbody hlevel hwild
    have hahead := Code.ahead_emit loop.body loop.plain_body i m.item (hitems hbody)
    rw [Nat.zero_add] at hahead
    have hpos : (loop.bodyPos : Int) + i = i + loop.bodyPos := Int.add_comm _ _
    rw [hpos]
    constructor
    · intro j hj
      have hj0 := hahead _ (List.mem_append_left _ (Instruction.mem_nexts_add.mp hj))
      have hj1 := hrange _ (List.mem_append_left _ (Instruction.mem_nexts_add.mp hj))
      refine .body ⟨by omega, ?_⟩ ⟨by omega, ?_⟩ (hpos ▸ hstays) <;> rw [incPos] <;> push_cast <;>
        omega
    · intro j hj
      have hj0 := hahead _ (List.mem_append_right _ (Instruction.mem_handler_add.mp hj))
      omega
  · have hrange := Code.stays (level_of_plain loop.plain_inc) hinc hlevel hwild
    have hahead := Code.ahead_emit loop.inc loop.plain_inc k m.item (hitems hinc)
    rw [Nat.zero_add] at hahead
    have hpos : (loop.bodyPos : Int) + ((loop.body.size + k : Nat) : Int) = k + loop.incPos := by
      rw [incPos]
      push_cast
      omega
    rw [hpos] at hstays ⊢
    constructor
    · intro j hj
      have hj0 := hahead _ (List.mem_append_left _ (Instruction.mem_nexts_add.mp hj))
      have hj1 := hrange _ (List.mem_append_left _ (Instruction.mem_nexts_add.mp hj))
      refine .inc ⟨by omega, ?_⟩ ⟨by omega, ?_⟩ hstays <;> rw [backPos] <;> push_cast <;> omega
    · intro j hj
      have hj0 := hahead _ (List.mem_append_right _ (Instruction.mem_handler_add.mp hj))
      have hinc : loop.incPos = loop.bodyPos + loop.body.size := rfl
      omega

theorem follows_repeated : EachFrom loop.Follows loop.bodyPos
    (Mark.patchAll loop.breakOffset loop.continueOffset 1 (loop.repeated.marks blockWeight 1)) := by
  intro i m hm hlevel hwild hread hagain
  rw [Mark.patchAll, List.getElem?_mapIdx] at hm
  obtain ⟨old, hold, rfl⟩ := Option.map_eq_some_iff.mp hm
  have hitem : loop.repeated.emit[i]? = some old.item := by
    rw [← Code.marks_item (W := blockWeight) loop.repeated 1, List.getElem?_map, hold]
    rfl
  have hpos : ((loop.bodyPos + i : Nat) : Int) = loop.bodyPos + i := by omega
  rw [hpos] at hread hagain ⊢
  have hmisread := hread i old.item rfl hitem
  have hins : (Mark.patchAt loop.breakOffset loop.continueOffset 1 i old).item.ins =
      patchIns loop.breakOffset loop.continueOffset i old.item.ins := rfl
  rw [hins]
  rcases patchIns_cases loop.breakOffset loop.continueOffset i old.item.ins with
    ⟨hlooks, hsame⟩ | ⟨hlooks, -⟩
  · rw [hsame]
    refine loop.follows_unpatched hold hlevel ?_ (loop.stays_of_not_looks hitem hlooks)
    simpa [Mark.patchAt, hlooks] using hwild
  · cases hown : old.item.own with
    | none => simp [Item.misread, hown, hlooks] at hmisread
    | some type =>
      have hleaves : loop.LeavesRound type (loop.bodyPos + i) := ⟨i, old.item, rfl, hitem, hown⟩
      rw [Code.marked_emit _ _ (List.mem_of_getElem? hitem) type hown]
      cases type with
      | «break» =>
        refine ⟨?_, fun _ h => by cases h⟩
        intro j hj
        obtain rfl := List.mem_singleton.mp hj
        have hto : (loop.bodyPos : Int) + i + 1 + loop.breakOffset i = loop.exitPos := by
          rw [breakOffset]
          omega
        rw [hto]
        exact .break hleaves
      | «continue» =>
        refine ⟨?_, fun _ h => by cases h⟩
        intro j hj
        obtain rfl := List.mem_singleton.mp hj
        have hto : (loop.bodyPos : Int) + i + 1 + loop.continueOffset i = loop.continuePos := by
          have hcontinue : loop.patchedPos = loop.continuePos := by
            cases loop with
            | whileLoop _ _ _ => exact absurd hleaves (hagain rfl)
            | forLoop _ _ _ _ _ => rfl
            | foreachLoop _ _ _ _ _ => rfl
          rw [continueOffset, hcontinue]
          omega
        rw [hto]
        exact .continue hleaves

theorem follows_code : EachFrom loop.Follows 0 (loop.asCode.marks blockWeight 0) := by
  have hrepeated : loop.repeated.emit.length = loop.body.size + loop.inc.size := loop.size_repeated
  have hback : 0 + 1 + loop.init.emit.length + loop.test.emit.length + 1 +
      loop.repeated.emit.length = loop.backPos := by
    rw [hrepeated]
    simp only [backPos, incPos, bodyPos, branchPos, testPos, Code.size]
    omega
  rw [marks_code, Mark.settleAll, EachFrom.map_iff]
  change EachFrom loop.Follows 0 _
  simp only [EachFrom.cons_iff, EachFrom.append_iff, EachFrom.nil, and_true, Code.length_marks,
    Mark.length_patchAll, hback]
  exact ⟨loop.follows_start, loop.follows_init, loop.follows_test, loop.follows_branch,
    loop.follows_repeated, loop.follows_back, loop.follows_unwind, loop.follows_leave⟩

end LoopStatement

/-! ## Paths through a loop -/

/-- A step through the code of the loop, which stands in `is`, on which no patch loop has read
a jump wrong, no jump leaves a block or an inner iterator behind, and no `while` continues. -/
structure LoopStatement.Regular (loop : LoopStatement) (is : List Instruction) (s : PathState)
    (move : Move) : Prop where
  kept : insAt is s.pc = insAt loop.asCode.code s.pc
  readRight : loop.ReadRight s.pc
  again : loop.isWhile = true → ¬ loop.LeavesRound .continue s.pc
  blocks : loop.asCode.Tame blockWeight s move
  values : loop.isForeach = true → BalancedTargets loop.tree ∧
    loop.asCode.Tame heightWeight s move ∧ CaughtLevel loop.asCode s move

/-- On the paths through the code `is` of a loop that `C` allows, from a place where no handler
of the code is active, control goes on as in a loop, only a test that succeeds leads to the
body, and at the end the block of the loop is closed and its iterator is off the stack. -/
structure LoopControl (loop : LoopStatement) (is : List Instruction)
    (C : PathState → Move → Prop) : Prop where
  steps : ∀ (outer : List (Option Int)) (height : Int) (s s' : PathState) (pc : Int),
    (∀ h : Int, some h ∈ outer → ¬ (0 ≤ h ∧ h < is.length)) →
    RunsIn (PathState.step is) C ⟨0, outer, height⟩ s → C s (.goto pc) →
    s.step is (.goto pc) = some s' → loop.Step s.pc s'.pc
  enters : ∀ (outer : List (Option Int)) (height : Int) (s s' : PathState) (move : Move),
    (∀ h : Int, some h ∈ outer → ¬ (0 ≤ h ∧ h < is.length)) →
    RunsIn (PathState.step is) C ⟨0, outer, height⟩ s → C s move →
    s.step is move = some s' → loop.body.size ≠ 0 → s'.pc = loop.bodyPos → s.pc = loop.branchPos
  leaves : ∀ (outer : List (Option Int)) (height : Int) (s : PathState),
    (∀ h : Int, some h ∈ outer → ¬ (0 ≤ h ∧ h < is.length)) →
    RunsIn (PathState.step is) C ⟨0, outer, height⟩ s → s.pc = loop.asCode.size →
    s.contexts = outer ∧ (loop.isForeach = true → s.height = height)

namespace LoopStatement

variable (loop : LoopStatement)

theorem Step.enters {loop : LoopStatement} {p : Int} (h : loop.Step p loop.bodyPos)
    (hbody : loop.body.size ≠ 0) : p = loop.branchPos := by
  have hbodyPos : loop.bodyPos = loop.branchPos + 1 := rfl
  have hbranch : loop.branchPos = loop.testPos + loop.test.size := rfl
  have hinc : loop.incPos = loop.bodyPos + loop.body.size := rfl
  have hback : loop.backPos = loop.incPos + loop.inc.size := rfl
  have hexit : loop.exitPos = loop.backPos + 1 := rfl
  generalize hq : (loop.bodyPos : Int) = q at h
  cases h with
  | init _ hq' => omega
  | test _ hq' => omega
  | succeeds => rfl
  | fails => omega
  | body _ hq' _ => omega
  | inc _ hq' _ => omega
  | «break» _ => omega
  | «continue» _ =>
    cases loop <;> simp only [continuePos] at hq <;> omega
  | back => omega
  | leave hp => omega

/-- What is known of a state that a path through the loop comes to. -/
structure Inside (outer : List (Option Int)) (height : Int) (s : PathState) : Prop where
  blocks : OpenBlocks (loop.asCode.levelAt blockWeight 0) outer s
  handlers : ∀ h : Int, some h ∈ s.contexts → 0 ≤ h ∧ h < loop.asCode.code.length →
    h ≠ loop.bodyPos
  values : loop.isForeach = true → BalancedTargets loop.tree →
    loop.asCode.levelAt heightWeight 0 s.pc = some (s.height - height) ∧
      ∀ h : Int, some h ∈ s.contexts → 0 ≤ h ∧ h < loop.asCode.code.length →
        ∃ l, loop.asCode.levelAt heightWeight 0 h = some l

variable {loop} {outer : List (Option Int)} {height : Int} {s s' : PathState}

theorem level_block : loop.asCode.HasLevel blockWeight 0 ∧ loop.asCode.net blockWeight = 0 :=
  loop.asCode.hasLevel_block (Int.le_refl 0) (allPlain_lower loop.tree)

theorem level_height (h : BalancedTargets loop.tree) :
    loop.asCode.HasLevel heightWeight 0 ∧ loop.asCode.net heightWeight = 0 := by
  obtain ⟨hlevel, hnet⟩ := flat_lower loop.tree h
  exact ⟨hlevel 0 (Int.le_refl 0), hnet⟩

theorem Inside.start (houter : ∀ h : Int, some h ∈ outer → ¬ (0 ≤ h ∧ h < loop.asCode.code.length)) :
    loop.Inside outer height ⟨0, outer, height⟩ where
  blocks := ⟨[], rfl, (Code.fits_levelAt level_block.1).2, .nil⟩
  handlers := by
    intro h hmem hrange
    exact absurd hrange (houter h hmem)
  values := by
    intro _ hbalanced
    constructor
    · rw [(Code.fits_levelAt (level_height hbalanced).1).2, Int.sub_self]
    · intro h hmem hrange
      exact absurd hrange (houter h hmem)

/-- A step of the loop's code, and the handler it sets. -/
theorem follows_goto {pc l : Int} (hlevel : loop.asCode.levelAt blockWeight 0 s.pc = some l)
    (htame : loop.asCode.Tame blockWeight s (.goto pc)) (hread : loop.ReadRight s.pc)
    (hagain : loop.isWhile = true → ¬ loop.LeavesRound .continue s.pc)
    (hstep : s.step loop.asCode.code (.goto pc) = some s') :
    loop.Step s.pc s'.pc ∧ ∀ ins, insAt loop.asCode.code s.pc = some ins →
      ∀ j ∈ ins.handler s.pc, j ≠ loop.bodyPos := by
  obtain ⟨ins, hins, hnext, rfl, -, -⟩ := goto_cases hstep
  obtain ⟨m, hm, rfl, hpc, hl⟩ := Code.mark_of_insAt (W := blockWeight) hins 0
  have hfollows := loop.follows_code s.pc.toNat m hm
  rw [Nat.zero_add, Follows, ← hpc] at hfollows
  have hsome : m.level.isSome := by
    rw [← hl, hlevel]
    rfl
  obtain ⟨hsteps, hhandlers⟩ := hfollows hsome (htame m hm) hread hagain
  refine ⟨hsteps _ hnext, ?_⟩
  intro ins hins'
  rw [hins] at hins'
  cases hins'
  exact hhandlers

theorem Inside.level (h : loop.Inside outer height s) :
    ∃ l, loop.asCode.levelAt blockWeight 0 s.pc = some l := by
  obtain ⟨inner, -, hlevel, -⟩ := h.blocks
  exact ⟨_, hlevel⟩

theorem Inside.goto {is : List Instruction} {pc : Int} (h : loop.Inside outer height s)
    (hregular : loop.Regular is s (.goto pc))
    (hstep : s.step loop.asCode.code (.goto pc) = some s') :
    loop.Inside outer height s' where
  blocks := openBlocks_goto level_block.1 hregular.blocks hstep h.blocks
  handlers := by
    obtain ⟨l, hlevel⟩ := h.level
    obtain ⟨-, hhandlers⟩ := follows_goto hlevel hregular.blocks hregular.readRight hregular.again
      hstep
    obtain ⟨ins, hins, -, -, hblocks, -⟩ := goto_cases hstep
    intro j hmem hrange
    rcases mem_of_blocks hblocks hmem with hold | hnew
    · exact h.handlers j hold hrange
    · exact hhandlers ins hins j hnew
  values := by
    intro hforeach hbalanced
    obtain ⟨-, htame, -⟩ := hregular.values hforeach
    obtain ⟨hlevel, hhandlers⟩ := h.values hforeach hbalanced
    have hc := (level_height hbalanced).1
    refine ⟨JeffVm.level_height hc s (.goto pc) s' hlevel ⟨trivial, htame⟩ hstep, ?_⟩
    obtain ⟨ins, -, -, hcatch, hblocks, -⟩ := Code.level_goto hc htame hstep hlevel
    intro j hmem hrange
    rcases mem_of_blocks hblocks hmem with hold | hnew
    · exact hhandlers j hold hrange
    · exact ⟨_, hcatch j hnew⟩

theorem Inside.raise {is : List Instruction} {taken : Nat}
    (houter : ∀ h : Int, some h ∈ outer → ¬ (0 ≤ h ∧ h < loop.asCode.code.length))
    (h : loop.Inside outer height s) (hregular : loop.Regular is s (.raise taken))
    (hstep : s.step loop.asCode.code (.raise taken) = some s') :
    loop.Inside outer height s' ∧ s'.pc ≠ loop.bodyPos := by
  obtain ⟨hcatch, hrange⟩ := raise_cases hstep
  obtain ⟨pre, rest, hcontexts, -, hrest⟩ := catchError_cases hcatch
  have hmem : some s'.pc ∈ s.contexts := by
    rw [hcontexts]
    simp
  have hkept : ∀ j : Int, some j ∈ s'.contexts → some j ∈ s.contexts := by
    intro j hj
    rw [hrest] at hj
    rw [hcontexts]
    simp only [List.mem_cons, reduceCtorEq, false_or] at hj
    simp [hj]
  refine ⟨⟨openBlocks_raise houter hstep h.blocks, ?_, ?_⟩, h.handlers _ hmem hrange⟩
  · intro j hj
    exact h.handlers j (hkept j hj)
  · intro hforeach hbalanced
    obtain ⟨-, -, hcaught⟩ := hregular.values hforeach
    obtain ⟨hlevel, hhandlers⟩ := h.values hforeach hbalanced
    obtain ⟨l, hl⟩ := hhandlers _ hmem hrange
    refine ⟨?_, fun j hj => hhandlers j (hkept j hj)⟩
    rw [hl, hcaught _ _ _ _ hcatch hlevel hl, raise_height hstep]
    congr 1
    omega

/-- The step lemma. -/
theorem Inside.step {is : List Instruction}
    (houter : ∀ h : Int, some h ∈ outer → ¬ (0 ≤ h ∧ h < loop.asCode.code.length))
    (hlength : is.length = loop.asCode.code.length) (move : Move)
    (h : loop.Inside outer height s) (hregular : loop.Regular is s move)
    (hstep : s.step is move = some s') : loop.Inside outer height s' := by
  rw [step_congr hregular.kept hlength] at hstep
  cases move with
  | goto pc => exact h.goto hregular hstep
  | raise taken => exact (h.raise houter hregular hstep).1

/-- Code that differs from the code of the loop only where a patch loop has rewritten a jump. -/
theorem control_of_length {is : List Instruction} (hlength : is.length = loop.asCode.code.length) :
    LoopControl loop is (loop.Regular is) := by
  have hruns : ∀ (outer : List (Option Int)) (height : Int) (s : PathState),
      (∀ h : Int, some h ∈ outer → ¬ (0 ≤ h ∧ h < is.length)) →
      RunsIn (PathState.step is) (loop.Regular is) ⟨0, outer, height⟩ s →
      loop.Inside outer height s := by
    intro outer height s houter hrun
    rw [hlength] at houter
    exact hrun.invariant (fun s move s' h => h.step houter hlength move) (Inside.start houter)
  constructor
  · intro outer height s s' pc houter hrun hregular hstep
    obtain ⟨l, hlevel⟩ := (hruns outer height s houter hrun).level
    rw [step_congr hregular.kept hlength] at hstep
    exact (follows_goto hlevel hregular.blocks hregular.readRight hregular.again hstep).1
  · intro outer height s s' move houter hrun hregular hstep hbody hpc
    have hinside := hruns outer height s houter hrun
    rw [step_congr hregular.kept hlength] at hstep
    cases move with
    | goto pc =>
      obtain ⟨l, hlevel⟩ := hinside.level
      have hsteps := (follows_goto hlevel hregular.blocks hregular.readRight hregular.again hstep).1
      rw [hpc] at hsteps
      exact hsteps.enters hbody
    | raise taken =>
      rw [hlength] at houter
      exact absurd hpc (hinside.raise houter hregular hstep).2
  · intro outer height s houter hrun hpc
    have hinside := hruns outer height s houter hrun
    constructor
    · obtain ⟨inner, hcontexts, hlevel, -⟩ := hinside.blocks
      rw [hpc, Code.levelAt_size, level_block.2] at hlevel
      have hinner : inner = [] := List.length_eq_zero_iff.mp (by simpa using hlevel.symm)
      rw [hcontexts, hinner, List.nil_append]
    · intro hforeach
      cases hrun with
      | refl => rfl
      | tail _ hregular _ =>
        obtain ⟨hbalanced, -, -⟩ := hregular.values hforeach
        obtain ⟨hlevel, -⟩ := hinside.values hforeach hbalanced
        rw [hpc, Code.levelAt_size, (level_height hbalanced).2] at hlevel
        have hheight := Option.some.inj hlevel
        omega

theorem mark_at {i : Nat} {m : Mark} (hm : (loop.repeated.marks blockWeight 1)[i]? = some m) :
    ∃ m', (loop.asCode.marks blockWeight 0)[loop.bodyPos + i]? = some m' ∧
      m'.item.ins = patchIns loop.breakOffset loop.continueOffset i m.item.ins := by
  have hlt := (List.getElem?_eq_some_iff.mp hm).1
  have hpos : loop.bodyPos + i = (loop.init.marks blockWeight 1).length +
      ((loop.test.marks blockWeight 1).length + (i + 1)) + 1 := by
    simp only [Code.length_marks, bodyPos, branchPos, testPos, Code.size]
    omega
  rw [marks_code, Mark.settleAll, List.getElem?_map, hpos, List.getElem?_cons_succ,
    List.getElem?_append_right (Nat.le_add_right _ _), Nat.add_sub_cancel_left,
    List.getElem?_append_right (Nat.le_add_right _ _), Nat.add_sub_cancel_left,
    List.getElem?_cons_succ,
    List.getElem?_append_left (by rw [Mark.length_patchAll]; exact hlt), Mark.patchAll,
    List.getElem?_mapIdx, hm]
  exact ⟨_, rfl, rfl⟩

/-- The `continue` of a `while` goes to the first instruction of the body. -/
theorem continue_of_while (hwhile : loop.isWhile = true) {pc : Int}
    (hleaves : loop.LeavesRound .continue s.pc)
    (hstep : s.step loop.asCode.code (.goto pc) = some s') : s'.pc = loop.bodyPos := by
  obtain ⟨i, item, hpc, hitem, hown⟩ := hleaves
  rw [← Code.marks_item (W := blockWeight) loop.repeated 1, List.getElem?_map] at hitem
  obtain ⟨m, hm, rfl⟩ := Option.map_eq_some_iff.mp hitem
  obtain ⟨m', hm', hins'⟩ := mark_at hm
  obtain ⟨ins, hins, hnext, rfl, -, -⟩ := goto_cases hstep
  obtain ⟨m'', hm'', rfl, -, -⟩ := Code.mark_of_insAt (W := blockWeight) hins 0
  have hnat : s.pc.toNat = loop.bodyPos + i := by omega
  rw [hnat, hm'] at hm''
  cases hm''
  have hmem : m.item ∈ loop.repeated.emit := by
    rw [← Code.marks_item (W := blockWeight) loop.repeated 1]
    exact List.mem_map_of_mem (List.mem_of_getElem? hm)
  rw [hins', Code.marked_emit _ _ hmem .continue hown] at hnext
  have hto := List.mem_singleton.mp hnext
  rw [hto, hpc]
  cases loop with
  | whileLoop whileToken condition body =>
    change _ + 1 + (whileLoop whileToken condition body).continueOffset i = _
    simp only [continueOffset, patchedPos]
    omega
  | forLoop _ _ _ _ _ => cases hwhile
  | foreachLoop _ _ _ _ _ => cases hwhile

/-- That is no step of the loop. -/
theorem not_step_of_continue (hwhile : loop.isWhile = true) {p : Int}
    (hleaves : loop.LeavesRound .continue p) : ¬ loop.Step p loop.bodyPos := by
  intro h
  obtain ⟨i, item, hp, hitem, hown⟩ := id hleaves
  have hlt := (List.getElem?_eq_some_iff.mp hitem).1
  have hsize : loop.repeated.emit.length = loop.body.size + loop.inc.size := loop.size_repeated
  have hbodyPos : loop.bodyPos = loop.branchPos + 1 := rfl
  have hbranch : loop.branchPos = loop.testPos + loop.test.size := rfl
  have hinc : loop.incPos = loop.bodyPos + loop.body.size := rfl
  have hback : loop.backPos = loop.incPos + loop.inc.size := rfl
  have hexit : loop.exitPos = loop.backPos + 1 := rfl
  generalize hq : (loop.bodyPos : Int) = q at h
  cases h with
  | init hp' _ => omega
  | test hp' _ => omega
  | succeeds => omega
  | fails => omega
  | body _ _ hstays => exact hstays _ hleaves
  | inc _ _ hstays => exact hstays _ hleaves
  | «break» _ => omega
  | «continue» _ =>
    cases loop with
    | whileLoop _ _ _ =>
      simp only [continuePos] at hq
      omega
    | forLoop _ _ _ _ _ => cases hwhile
    | foreachLoop _ _ _ _ _ => cases hwhile
  | back => omega
  | leave hp' => omega

end LoopStatement

/-- `for y in z { if a { continue } if b { break } y }` -/
def foreachWithJumps : LoopStatement :=
  .foreachLoop (.word "for" 1) (.word "in" 1) (.var false (.word "y" 1))
    (.identifier (.word "z" 1)) (.compoundStatement [
      .selectionStatement ⟨⟨.word "if" 2, .identifier (.word "a" 2),
        .breakStatement (.word "continue" 2) .continue⟩, [], none⟩,
      .selectionStatement ⟨⟨.word "if" 3, .identifier (.word "b" 3),
        .breakStatement (.word "break" 3) .break⟩, [], none⟩,
      .identifier (.word "y" 4)])

def foreachInWhile : RegisteredTree :=
  .expression (.whileStatement (.word "while" 0) (.identifier (.word "x" 0)) foreachWithJumps.tree)

theorem foreachInWhile_piece : foreachWithJumps.asCode.PieceAt 3 (lowerTree foreachInWhile) := by
  have hpiece : foreachWithJumps.asCode.PieceAt (1 + (lowerIdentifier (.word "x" 0)).size + 1 + 0)
      (lowerTree foreachInWhile) := .whileBody .whole
  exact hpiece

/-- `while x { continue }` -/
def continueInWhile : LoopStatement :=
  .whileLoop (.word "while" 1) (.identifier (.word "x" 1))
    (.breakStatement (.word "continue" 2) .continue)

end JeffVm
