import JeffVm.StackDiscipline

/-!
# Pieces of code inside other code

Where a piece of structured code lies in the code around it, and what the patch loops around
it leave of it. Control never goes from an instruction of a piece to its first one.
-/

set_option autoImplicit false

namespace JeffVm

/-! ## Lists by position -/

/-- `R` holds of each entry and its position, counted from `off`. -/
def EachFrom {α : Type} (R : Nat → α → Prop) (off : Nat) (xs : List α) : Prop :=
  ∀ (i : Nat) (x : α), xs[i]? = some x → R (off + i) x

namespace EachFrom

variable {α β : Type} {R : Nat → α → Prop} {off : Nat} {x : α} {xs ys : List α}

@[simp] theorem nil : EachFrom R off [] := by
  intro i x h
  cases h

@[simp] theorem cons_iff : EachFrom R off (x :: xs) ↔ R off x ∧ EachFrom R (off + 1) xs := by
  constructor
  · intro h
    refine ⟨h 0 x rfl, ?_⟩
    intro i y hy
    have hat := h (i + 1) y hy
    rwa [show off + (i + 1) = off + 1 + i by omega] at hat
  · rintro ⟨hx, hxs⟩ i y hy
    cases i with
    | zero =>
      cases hy
      exact hx
    | succ i =>
      have hat := hxs i y hy
      rwa [show off + 1 + i = off + (i + 1) by omega] at hat

@[simp] theorem append_iff : EachFrom R off (xs ++ ys) ↔
    EachFrom R off xs ∧ EachFrom R (off + xs.length) ys := by
  induction xs generalizing off with
  | nil => simp
  | cons x xs ih =>
    rw [List.cons_append, cons_iff, cons_iff, ih, List.length_cons, and_assoc]
    rw [show off + 1 + xs.length = off + (xs.length + 1) by omega]

theorem map_iff {R : Nat → β → Prop} (f : α → β) :
    EachFrom R off (xs.map f) ↔ EachFrom (fun i y => R i (f y)) off xs := by
  constructor
  · intro h i y hy
    exact h i (f y) (by rw [List.getElem?_map, hy]; rfl)
  · intro h i z hz
    rw [List.getElem?_map] at hz
    obtain ⟨y, hy, rfl⟩ := Option.map_eq_some_iff.mp hz
    exact h i y hy

end EachFrom

/-! ## No jump goes back to the start -/

namespace Instruction

variable {ins : Instruction} {i j k : Int}

theorem mem_target_add : j ∈ ins.target (i + k) ↔ j - k ∈ ins.target i := by
  unfold target
  split
  · simp only [List.mem_singleton]
    omega
  · simp

/-- Jumps are relative. -/
theorem mem_nexts_add : j ∈ ins.nexts (i + k) ↔ j - k ∈ ins.nexts i := by
  have hnext : j = i + k + 1 ↔ j - k = i + 1 := by omega
  unfold nexts
  split <;> simp only [List.mem_cons, mem_target_add, hnext, List.not_mem_nil]

theorem mem_handler_add : j ∈ ins.handler (i + k) ↔ j - k ∈ ins.handler i := by
  unfold handler
  split
  · exact mem_target_add
  · simp

end Instruction

namespace Item

/-- Control does not go from the item at position `i` to the start. -/
def Ahead (i : Nat) (item : Item) : Prop :=
  ∀ j ∈ item.ins.nexts i ++ item.ins.handler i, 0 < j

variable {i : Nat}

theorem ahead_plain {ins : Instruction} (h : ins.isPlain = true) : (plain ins).Ahead i := by
  intro j hj
  rw [plain_ins, Instruction.handler_of_plain h, List.append_nil] at hj
  rw [Instruction.nexts_of_plain h hj]
  omega

theorem ahead_jump {op : Op} {n : Int} (h : 0 < (i : Int) + 1 + n) : (jump op n).Ahead i := by
  intro j hj
  cases op <;>
    simp only [jump, plain_ins, Instruction.nexts, Instruction.handler, Instruction.target,
      List.append_nil, List.nil_append, List.cons_append, List.mem_cons, List.not_mem_nil,
      or_false] at hj <;>
    omega

theorem ahead_op {op : Op} (h : op.isJump = false) : (Item.op op).Ahead i := by
  intro j hj
  cases op <;> simp_all [Item.op, Instruction.nexts, Instruction.handler, Op.isJump]

theorem ahead_named {op : Op} {id : String} (h : op.isJump = false) : (named op id).Ahead i := by
  intro j hj
  cases op <;> simp_all [named, Instruction.nexts, Instruction.handler, Op.isJump]

/-- The same code further down. -/
theorem ahead_inside {items : List Item} {off : Nat} (h : EachFrom Ahead 0 items) :
    EachFrom Ahead off items := by
  intro i item hitem j hj
  have hat := h i item hitem (j - off)
  rw [Nat.zero_add, List.mem_append] at hat
  rw [List.mem_append, Nat.add_comm, Int.natCast_add, Instruction.mem_nexts_add,
    Instruction.mem_handler_add] at hj
  have hpos := hat hj
  omega

theorem ahead_settleAll {items : List Item} {off : Nat} (h : EachFrom Ahead off items) :
    EachFrom Ahead off (settleAll items) :=
  (EachFrom.map_iff settle).mpr h

/-- A patched jump goes on to the break or continue position. -/
theorem ahead_patch {items : List Item} {brk cont : Nat → Int} {off : Nat}
    (h : EachFrom Ahead 0 items)
    (hbrk : ∀ i < items.length, 0 < ((off + i : Nat) : Int) + 1 + brk i)
    (hcont : ∀ i < items.length, 0 < ((off + i : Nat) : Int) + 1 + cont i) :
    EachFrom Ahead off (patchItems brk cont items) := by
  intro i item hitem
  rw [patchItems, List.getElem?_mapIdx] at hitem
  obtain ⟨old, hold, rfl⟩ := Option.map_eq_some_iff.mp hitem
  have hlt := (List.getElem?_eq_some_iff.mp hold).1
  have hins : (patchItem brk cont i old).ins = patchIns brk cont i old.ins := rfl
  unfold Ahead
  rw [hins]
  rcases patchIns_cases brk cont i old.ins with ⟨-, hsame⟩ | ⟨-, -, hpatched | hpatched⟩
  · rw [hsame]
    exact ahead_inside h i old hold
  · rw [hpatched]
    exact ahead_jump (hbrk i hlt)
  · rw [hpatched]
    exact ahead_jump (hcont i hlt)

end Item

namespace Code

open Item

mutual

/-- Control never goes from an instruction of the code to the first one. -/
theorem ahead_emit : ∀ c : Code, c.allPlain Instruction.isPlain = true →
    EachFrom Ahead 0 c.emit
  | nil, _ => .nil
  | plain ins, h => by
    rw [emit, EachFrom.cons_iff]
    exact ⟨ahead_plain h, .nil⟩
  | brk type, _ => by
    rw [emit, EachFrom.cons_iff]
    have hpos : 0 < ((0 : Nat) : Int) + 1 + breakOperand type := by cases type <;> decide
    have hjump : (jump .JMP (breakOperand type)).Ahead 0 := ahead_jump hpos
    exact ⟨hjump, .nil⟩
  | seq a b, h => by
    rw [allPlain, Bool.and_eq_true] at h
    rw [emit, EachFrom.append_iff]
    exact ⟨ahead_emit a h.1, ahead_inside (ahead_emit b h.2)⟩
  | skip test body, h => by
    rw [emit, EachFrom.cons_iff]
    exact ⟨ahead_jump (by omega), ahead_inside (ahead_emit body h)⟩
  | choice test a b, h => by
    rw [allPlain, Bool.and_eq_true] at h
    rw [emit, List.cons_append, EachFrom.cons_iff, EachFrom.append_iff, EachFrom.cons_iff]
    exact ⟨ahead_jump (by omega), ahead_inside (ahead_emit a h.1), ahead_jump (by omega),
      ahead_inside (ahead_emit b h.2)⟩
  | ifThen branches, h => by
    rw [emit]
    exact ahead_emitBranches branches 0 0 false h
  | ifElse branches otherwise, h => by
    rw [allPlain, Bool.and_eq_true] at h
    rw [emit, EachFrom.append_iff]
    exact ⟨ahead_emitBranches branches _ _ _ h.1, ahead_inside (ahead_emit otherwise h.2)⟩
  | func body, h => by
    rw [emit, EachFrom.cons_iff]
    exact ⟨ahead_jump (by omega), ahead_inside (ahead_emit body h)⟩
  | tryCatch body assign handler, h => by
    simp only [allPlain, Bool.and_eq_true] at h
    simp only [emit, EachFrom.append_iff, EachFrom.cons_iff, EachFrom.nil, and_true]
    refine ⟨⟨⟨⟨⟨⟨ahead_op rfl, ahead_jump ?_⟩, ahead_inside (ahead_emit body h.1.1)⟩,
      ahead_jump ?_⟩, ahead_inside (ahead_emit assign h.1.2)⟩,
      ahead_inside (ahead_emit handler h.2)⟩, ahead_op rfl, ahead_named rfl, ahead_op rfl⟩
    all_goals omega
  | whileLoop condition body, h => by
    simp only [allPlain, Bool.and_eq_true] at h
    rw [emit]
    refine ahead_settleAll ?_
    simp only [EachFrom.append_iff, EachFrom.cons_iff, EachFrom.nil, and_true]
    refine ⟨⟨⟨⟨ahead_op rfl, ahead_inside (ahead_emit condition h.1)⟩, ahead_jump ?_⟩,
      ahead_patch (ahead_emit body h.2) ?_ ?_⟩, ahead_jump ?_, ahead_op rfl⟩
    all_goals simp only [List.length_append, List.length_cons, List.length_nil, length_patchItems]
    all_goals omega
  | forLoop init condition inc body, h => by
    simp only [allPlain, Bool.and_eq_true] at h
    have hrepeated : EachFrom Ahead 0 (emit body ++ emit inc) := by
      rw [EachFrom.append_iff]
      exact ⟨ahead_emit body h.2, ahead_inside (ahead_emit inc h.1.2)⟩
    rw [emit]
    refine ahead_settleAll ?_
    simp only [EachFrom.append_iff, EachFrom.cons_iff, EachFrom.nil, and_true]
    refine ⟨⟨⟨⟨⟨ahead_op rfl, ahead_inside (ahead_emit init h.1.1.1)⟩,
      ahead_inside (ahead_emit condition h.1.1.2)⟩, ahead_jump ?_⟩,
      ahead_patch hrepeated ?_ ?_⟩, ahead_jump ?_, ahead_op rfl⟩
    all_goals simp only [List.length_append, List.length_cons, List.length_nil, length_patchItems]
    all_goals omega
  | foreachLoop iterable lhs body, h => by
    simp only [allPlain, Bool.and_eq_true] at h
    have hrepeated : EachFrom Ahead 0
        ([Item.op .DUP, .named .CALL nextFnName] ++ emit lhs ++ emit body) := by
      simp only [EachFrom.append_iff, EachFrom.cons_iff, EachFrom.nil, and_true]
      exact ⟨⟨⟨ahead_op rfl, ahead_named rfl⟩, ahead_inside (ahead_emit lhs h.1.2)⟩,
        ahead_inside (ahead_emit body h.2)⟩
    rw [emit]
    refine ahead_settleAll ?_
    rw [EachFrom.append_iff, EachFrom.append_iff]
    refine ⟨⟨?_, ahead_patch hrepeated ?_ ?_⟩, ?_⟩
    · simp only [EachFrom.append_iff, EachFrom.cons_iff, EachFrom.nil, and_true]
      refine ⟨⟨⟨ahead_op rfl, ahead_inside (ahead_emit iterable h.1.1)⟩, ahead_op rfl,
        ahead_named rfl, ahead_op rfl⟩, ahead_op rfl, ahead_named rfl, ahead_jump ?_⟩
      omega
    · intro i hi
      omega
    · intro i hi
      simp only [List.length_append, List.length_cons, List.length_nil]
      omega
    · simp only [EachFrom.cons_iff, EachFrom.nil, and_true, List.length_append, List.length_cons,
        List.length_nil, length_patchItems]
      exact ⟨ahead_jump (by omega), ahead_op rfl, ahead_op rfl⟩

theorem ahead_emitBranches : ∀ (br : Branches) (tail after : Nat) (jumps : Bool),
    allPlainBranches Instruction.isPlain br = true →
      EachFrom Ahead 0 (emitBranches br tail after jumps)
  | .last condition body, tail, after, jumps, h => by
    simp only [allPlainBranches, Bool.and_eq_true] at h
    rw [emitBranches, EachFrom.append_iff, EachFrom.append_iff, EachFrom.cons_iff]
    refine ⟨⟨ahead_emit condition h.1, ahead_jump (by omega),
      ahead_inside (ahead_emit body h.2)⟩, ?_⟩
    cases jumps with
    | false => exact .nil
    | true => exact EachFrom.cons_iff.mpr ⟨ahead_jump (by omega), .nil⟩
  | .more condition body rest, tail, after, jumps, h => by
    simp only [allPlainBranches, Bool.and_eq_true] at h
    rw [emitBranches, EachFrom.append_iff, EachFrom.append_iff, EachFrom.append_iff,
      EachFrom.cons_iff]
    refine ⟨⟨⟨ahead_emit condition h.1.1, ahead_jump (by omega),
      ahead_inside (ahead_emitBranches rest _ _ _ h.2)⟩, ahead_inside (ahead_emit body h.1.2)⟩, ?_⟩
    cases jumps with
    | false => exact .nil
    | true => exact EachFrom.cons_iff.mpr ⟨ahead_jump (by omega), .nil⟩

end

end Code

/-- Control that a tame step passes on stays in the code. -/
theorem Code.stays {W : Weight} {c : Code} {l : Int} (h : c.HasLevel W l) {i : Nat} {m : Mark}
    (hm : (c.marks W l)[i]? = some m) (hlevel : m.level.isSome) (hwild : m.wild = false) :
    ∀ j ∈ m.item.ins.nexts i ++ m.item.ins.handler i, 0 ≤ j ∧ j ≤ c.size := by
  intro j hj
  obtain ⟨l', hl'⟩ := Option.isSome_iff_exists.mp hlevel
  have hfits := Fits.iff_getElem.mp (Code.fits_levelAt h).1 i m hm l' hl'
  rw [Int.zero_add] at hfits
  exact Code.levelAt_range (hfits.2 hwild j hj)

/-! ## What is left of a piece of code -/

/-- The items `xs` are those of `ys` from position `o` on, up to the jumps that a patch loop
may have taken for one of its own. -/
def Kept (xs : List Item) (o : Nat) (ys : List Item) : Prop :=
  ∀ (i : Nat) (x : Item), xs[i]? = some x →
    ∃ y, ys[o + i]? = some y ∧ (y.ins = x.ins ∨ x.ins.looksLikeBreak = true)

namespace Kept

variable {xs ys zs : List Item} {o o' : Nat}

theorem refl (xs : List Item) : Kept xs 0 xs := by
  intro i x hx
  rw [Nat.zero_add]
  exact ⟨x, hx, .inl rfl⟩

theorem left (h : Kept xs o ys) : Kept xs o (ys ++ zs) := by
  intro i x hx
  obtain ⟨y, hy, hkept⟩ := h i x hx
  have hlt := (List.getElem?_eq_some_iff.mp hy).1
  exact ⟨y, by rw [List.getElem?_append_left hlt, hy], hkept⟩

theorem right (h : Kept xs o zs) (ho : o' = ys.length + o) : Kept xs o' (ys ++ zs) := by
  intro i x hx
  obtain ⟨y, hy, hkept⟩ := h i x hx
  refine ⟨y, ?_, hkept⟩
  rw [ho, Nat.add_assoc, List.getElem?_append_right (Nat.le_add_right _ _), Nat.add_sub_cancel_left,
    hy]

theorem cons {z : Item} (h : Kept xs o zs) : Kept xs (1 + o) (z :: zs) := by
  have hright : Kept xs (1 + o) ([z] ++ zs) := h.right rfl
  exact hright

theorem settleAll (h : Kept xs o ys) : Kept xs o (Item.settleAll ys) := by
  intro i x hx
  obtain ⟨y, hy, hkept⟩ := h i x hx
  exact ⟨y.settle, by rw [Item.settleAll, List.getElem?_map, hy]; rfl, hkept⟩

theorem patch (h : Kept xs o ys) (brk cont : Nat → Int) : Kept xs o (patchItems brk cont ys) := by
  intro i x hx
  obtain ⟨y, hy, hkept⟩ := h i x hx
  refine ⟨patchItem brk cont (o + i) y, by rw [patchItems, List.getElem?_mapIdx, hy]; rfl, ?_⟩
  rcases hkept with hsame | hlooks
  · rcases patchIns_cases brk cont (o + i) y.ins with ⟨-, hpatched⟩ | ⟨hlooks, -⟩
    · exact .inl (hpatched.trans hsame)
    · rw [hsame] at hlooks
      exact .inr hlooks
  · exact .inr hlooks

end Kept

namespace Code

mutual

/-- The code `c` is the piece of the other code that starts at this position. -/
inductive PieceAt (c : Code) : Nat → Code → Prop where
  | whole : PieceAt c 0 c
  | left {o : Nat} {a b : Code} (h : PieceAt c o a) : PieceAt c o (seq a b)
  | right {o : Nat} {a b : Code} (h : PieceAt c o b) : PieceAt c (a.size + o) (seq a b)
  | skip {o : Nat} {test : Test} {body : Code} (h : PieceAt c o body) :
      PieceAt c (1 + o) (skip test body)
  | choiceLeft {o : Nat} {test : Test} {a b : Code} (h : PieceAt c o a) :
      PieceAt c (1 + o) (choice test a b)
  | choiceRight {o : Nat} {test : Test} {a b : Code} (h : PieceAt c o b) :
      PieceAt c (1 + a.size + 1 + o) (choice test a b)
  | ifThen {o : Nat} {branches : Branches} (h : BranchPieceAt c o branches 0 0 false) :
      PieceAt c o (ifThen branches)
  | ifElse {o : Nat} {branches : Branches} {otherwise : Code}
      (h : BranchPieceAt c o branches 0 otherwise.size true) :
      PieceAt c o (ifElse branches otherwise)
  | otherwise {o : Nat} {branches : Branches} {otherwise : Code} (h : PieceAt c o otherwise) :
      PieceAt c ((emitBranches branches 0 otherwise.size true).length + o)
        (ifElse branches otherwise)
  | func {o : Nat} {body : Code} (h : PieceAt c o body) : PieceAt c (1 + o) (func body)
  | tryBody {o : Nat} {body assign handler : Code} (h : PieceAt c o body) :
      PieceAt c (2 + o) (tryCatch body assign handler)
  | tryAssign {o : Nat} {body assign handler : Code} (h : PieceAt c o assign) :
      PieceAt c (2 + body.size + 1 + o) (tryCatch body assign handler)
  | tryHandler {o : Nat} {body assign handler : Code} (h : PieceAt c o handler) :
      PieceAt c (2 + body.size + 1 + assign.size + o) (tryCatch body assign handler)
  | whileCondition {o : Nat} {condition body : Code} (h : PieceAt c o condition) :
      PieceAt c (1 + o) (whileLoop condition body)
  | whileBody {o : Nat} {condition body : Code} (h : PieceAt c o body) :
      PieceAt c (1 + condition.size + 1 + o) (whileLoop condition body)
  | forInit {o : Nat} {init condition inc body : Code} (h : PieceAt c o init) :
      PieceAt c (1 + o) (forLoop init condition inc body)
  | forCondition {o : Nat} {init condition inc body : Code} (h : PieceAt c o condition) :
      PieceAt c (1 + init.size + o) (forLoop init condition inc body)
  | forBody {o : Nat} {init condition inc body : Code} (h : PieceAt c o body) :
      PieceAt c (1 + init.size + condition.size + 1 + o) (forLoop init condition inc body)
  | forInc {o : Nat} {init condition inc body : Code} (h : PieceAt c o inc) :
      PieceAt c (1 + init.size + condition.size + 1 + body.size + o)
        (forLoop init condition inc body)
  | foreachIterable {o : Nat} {iterable lhs body : Code} (h : PieceAt c o iterable) :
      PieceAt c (1 + o) (foreachLoop iterable lhs body)
  | foreachLhs {o : Nat} {iterable lhs body : Code} (h : PieceAt c o lhs) :
      PieceAt c (1 + iterable.size + 8 + o) (foreachLoop iterable lhs body)
  | foreachBody {o : Nat} {iterable lhs body : Code} (h : PieceAt c o body) :
      PieceAt c (1 + iterable.size + 8 + lhs.size + o) (foreachLoop iterable lhs body)

inductive BranchPieceAt (c : Code) : Nat → Branches → Nat → Nat → Bool → Prop where
  | lastCondition {o tail after : Nat} {jumps : Bool} {condition body : Code}
      (h : PieceAt c o condition) : BranchPieceAt c o (.last condition body) tail after jumps
  | lastBody {o tail after : Nat} {jumps : Bool} {condition body : Code} (h : PieceAt c o body) :
      BranchPieceAt c (condition.size + 1 + o) (.last condition body) tail after jumps
  | condition {o tail after : Nat} {jumps : Bool} {condition body : Code} {rest : Branches}
      (h : PieceAt c o condition) : BranchPieceAt c o (.more condition body rest) tail after jumps
  | rest {o tail after : Nat} {jumps : Bool} {condition body : Code} {rest : Branches}
      (h : BranchPieceAt c o rest (body.size + jumps.toNat + tail)
        (body.size + jumps.toNat + after) true) :
      BranchPieceAt c (condition.size + 1 + o) (.more condition body rest) tail after jumps
  | body {o tail after : Nat} {jumps : Bool} {condition body : Code} {rest : Branches}
      (h : PieceAt c o body) :
      BranchPieceAt c (condition.size + 1 + (emitBranches rest (body.size + jumps.toNat + tail)
        (body.size + jumps.toNat + after) true).length + o)
        (.more condition body rest) tail after jumps

end

mutual

/-- A piece of code stands where it lies, but for the jumps that a patch loop around it takes
for its own. -/
theorem PieceAt.kept {c d : Code} {o : Nat} : PieceAt c o d → Kept c.emit o d.emit
  | .whole => .refl _
  | .left h => by
    rw [emit]
    exact h.kept.left
  | .right h => by
    rw [emit]
    exact h.kept.right rfl
  | .skip h => by
    rw [emit]
    exact h.kept.cons
  | .choiceLeft h => by
    rw [emit]
    exact h.kept.cons.left
  | .choiceRight h => by
    rw [emit]
    exact h.kept.cons.right (by simp [size]; omega)
  | .ifThen h => by
    rw [emit]
    exact h.kept
  | .ifElse h => by
    rw [emit]
    exact h.kept.left
  | .otherwise h => by
    rw [emit]
    exact h.kept.right rfl
  | .func h => by
    rw [emit]
    exact h.kept.cons
  | .tryBody h => by
    rw [emit]
    exact (((h.kept.right rfl).left.left).left).left
  | .tryAssign h => by
    rw [emit]
    exact ((h.kept.right (by simp [size]; omega)).left).left
  | .tryHandler h => by
    rw [emit]
    exact (h.kept.right (by simp [size]; omega)).left
  | .whileCondition h => by
    rw [emit]
    exact ((h.kept.right rfl).left.left.left).settleAll
  | .whileBody h => by
    rw [emit]
    exact ((h.kept.patch _ _).right (by simp [size]; omega)).left.settleAll
  | .forInit h => by
    rw [emit]
    exact ((h.kept.right rfl).left.left.left.left).settleAll
  | .forCondition h => by
    rw [emit]
    exact ((h.kept.right (by simp [size]; omega)).left.left.left).settleAll
  | .forBody h => by
    rw [emit]
    exact ((h.kept.left.patch _ _).right (by simp [size]; omega)).left.settleAll
  | .forInc h => by
    rw [emit]
    exact (((h.kept.right rfl).patch _ _).right (by simp [size]; omega)).left.settleAll
  | .foreachIterable h => by
    rw [emit]
    exact ((h.kept.right rfl).left.left.left.left).settleAll
  | .foreachLhs h => by
    rw [emit]
    exact (((h.kept.right rfl).left.patch _ _).right (by simp [size]; omega)).left.settleAll
  | .foreachBody h => by
    rw [emit]
    exact (((h.kept.right rfl).patch _ _).right (by simp [size]; omega)).left.settleAll

theorem BranchPieceAt.kept {c : Code} {o tail after : Nat} {br : Branches} {jumps : Bool} :
    BranchPieceAt c o br tail after jumps → Kept c.emit o (emitBranches br tail after jumps)
  | .lastCondition h => by
    rw [emitBranches]
    exact h.kept.left.left
  | .lastBody h => by
    rw [emitBranches]
    exact (h.kept.cons.right (by simp [size]; omega)).left
  | .condition h => by
    rw [emitBranches]
    exact h.kept.left.left.left
  | .rest h => by
    rw [emitBranches]
    exact (h.kept.cons.right (by simp [size]; omega)).left.left
  | .body h => by
    rw [emitBranches]
    exact (h.kept.right (by simp [size]; omega)).left

end

/-- The instructions from `o` on that the code takes up. -/
def stretch (c : Code) (o : Nat) (is : List Instruction) : List Instruction :=
  (is.drop o).take c.size

variable {c d : Code} {o : Nat}

theorem PieceAt.stretch_kept (h : c.PieceAt o d) {i : Nat} {item : Item}
    (hitem : c.emit[i]? = some item) : ∃ ins, (c.stretch o d.code)[i]? = some ins ∧
      (ins = item.ins ∨ item.ins.looksLikeBreak = true) := by
  obtain ⟨item', hitem', hkept⟩ := h.kept i item hitem
  have hlt : i < c.size := (List.getElem?_eq_some_iff.mp hitem).1
  refine ⟨item'.ins, ?_, hkept⟩
  rw [stretch, List.getElem?_take_of_lt hlt, List.getElem?_drop, code, List.getElem?_map, hitem']
  rfl

theorem PieceAt.length_stretch (h : c.PieceAt o d) :
    (c.stretch o d.code).length = c.code.length := by
  have hle : (c.stretch o d.code).length ≤ c.size := List.length_take_le _ _
  have hge : ∀ i < c.size, i < (c.stretch o d.code).length := by
    intro i hi
    obtain ⟨ins, hins, -⟩ := h.stretch_kept (List.getElem?_eq_getElem hi)
    exact (List.getElem?_eq_some_iff.mp hins).1
  rw [length_code]
  by_contra hne
  exact absurd (hge (c.stretch o d.code).length (by omega)) (Nat.lt_irrefl _)

/-- Only a jump that looks like a `break` is not what the piece has been compiled to. -/
theorem PieceAt.insAt_stretch (h : c.PieceAt o d) {pc : Int} {ins : Instruction}
    (hins : insAt c.code pc = some ins) (hlooks : ins.looksLikeBreak = false) :
    insAt (c.stretch o d.code) pc = some ins := by
  obtain ⟨i, rfl, hi⟩ := insAt_some hins
  rw [code, List.getElem?_map] at hi
  obtain ⟨item, hitem, rfl⟩ := Option.map_eq_some_iff.mp hi
  obtain ⟨ins', hins', hkept⟩ := h.stretch_kept hitem
  have hsame : ins' = item.ins := by
    rcases hkept with hsame | hbreak
    · exact hsame
    · rw [hlooks] at hbreak
      cases hbreak
  rw [insAt, if_neg (by omega), Int.toNat_natCast, hins', hsame]

end Code

/-! ## Steps through a piece -/

/-- What the level of a position says of its instruction. -/
theorem Code.fits_insAt {W : Weight} {c : Code} (h : c.HasLevel W 0) {pc l : Int}
    {ins : Instruction} (hins : insAt c.code pc = some ins)
    (hlevel : c.levelAt W 0 pc = some l) : W.need ins ≤ l ∧
      ((∀ m, (c.marks W 0)[pc.toNat]? = some m → m.wild = false) →
        ∀ j ∈ ins.nexts pc ++ ins.handler pc, c.levelAt W 0 j = some (l + W.gain ins)) := by
  obtain ⟨m, hm, rfl, hpc, hl⟩ := Code.mark_of_insAt (W := W) hins 0
  rw [hlevel] at hl
  have hfits := Fits.iff_getElem.mp (Code.fits_levelAt h).1 _ m hm l hl.symm
  rw [Int.zero_add, ← hpc] at hfits
  exact ⟨hfits.1, fun htame => hfits.2 (htame m hm)⟩

/-- An error that is caught in the code comes from an instruction that has taken what lies on
the stack above the height of the handler. -/
def CaughtLevel (c : Code) (s : PathState) : Move → Prop
  | .goto _ => True
  | .raise taken => ∀ (h : Int) (rest : List (Option Int)) (l l' : Int),
      catchError s.contexts = some (h, rest) → c.levelAt heightWeight 0 s.pc = some l →
        c.levelAt heightWeight 0 h = some l' → l' = l - taken

theorem step_congr {is is' : List Instruction} {s : PathState} {move : Move}
    (hins : insAt is s.pc = insAt is' s.pc) (hlength : is.length = is'.length) :
    s.step is move = s.step is' move := by
  cases move with
  | goto pc => simp only [PathState.step, hins]
  | raise taken => simp only [PathState.step, hins, hlength]

/-- A handler in the contexts after an instruction was there before, or it sets it. -/
theorem mem_of_blocks {ins : Instruction} {i h : Int} {contexts contexts' : List (Option Int)}
    (hblocks : ins.blocks i contexts = some contexts') (hmem : some h ∈ contexts') :
    some h ∈ contexts ∨ h ∈ ins.handler i := by
  obtain ⟨op, arg⟩ := ins
  cases op with
  | NBLK =>
    cases hblocks
    exact .inl (by simpa using hmem)
  | BBLK =>
    cases contexts with
    | nil => cases hblocks
    | cons x rest =>
      cases hblocks
      exact .inl (List.mem_cons_of_mem x hmem)
  | CTCH =>
    cases contexts with
    | nil => cases hblocks
    | cons x rest =>
      cases hblocks
      rcases List.mem_cons.mp hmem with hhead | hrest
      · exact .inr (List.mem_of_head? hhead.symm)
      · exact .inl (List.mem_cons_of_mem x hrest)
  | _ =>
    cases hblocks
    exact .inl hmem

theorem raise_height {is : List Instruction} {s s' : PathState} {taken : Nat}
    (h : s.step is (.raise taken) = some s') : s'.height = s.height - taken := by
  unfold PathState.step at h
  cases hins : insAt is s.pc with
  | none => simp [hins] at h
  | some ins =>
    cases hcatch : catchError s.contexts with
    | none => simp [hins, hcatch] at h
    | some caught =>
      simp only [hins, hcatch] at h
      split at h
      · cases h
        rfl
      · cases h

end JeffVm
