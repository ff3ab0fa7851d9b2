import JeffVm.ProduceCode

/-!
# What the patch loops rewrite

A patch loop recognises `break` and `continue` by their operands. It rewrites exactly the
jumps of its own loop unless some other jump of the repeated part has such an operand.
-/

set_option autoImplicit false

namespace JeffVm

open Producer

namespace Instruction

@[simp] theorem jmpOffset_jmp (n : Int) :
    (⟨.JMP, .val (.int n)⟩ : Instruction).jmpOffset = some n := rfl

/-- What the patch loops take for a `break` or a `continue`. -/
def looksLikeBreak (ins : Instruction) : Bool :=
  decide (ins.jmpOffset = some 0 ∨ ins.jmpOffset = some intMax)

def looksLikeContinue (ins : Instruction) : Bool := decide (ins.jmpOffset = some intMax)

end Instruction

namespace Item

/-- A jump of another statement that the patch loops take for one of their own. -/
def misread (item : Item) : Bool := item.own.isNone && item.ins.looksLikeBreak

def lastIsContinue (items : List Item) : Bool :=
  items.getLast?.any (fun item => item.ins.looksLikeContinue)

end Item

namespace Code

mutual

/-- A `break` or `continue` for the loop around the code. -/
def hasBreak : Code → Bool
  | nil => false
  | plain _ => false
  | brk _ => true
  | seq a b => hasBreak a || hasBreak b
  | skip _ body => hasBreak body
  | choice _ a b => hasBreak a || hasBreak b
  | ifThen branches => hasBreakBranches branches
  | ifElse branches otherwise => hasBreakBranches branches || hasBreak otherwise
  | func body => hasBreak body
  | tryCatch body assign handler => hasBreak body || hasBreak assign || hasBreak handler
  | whileLoop _ _ => false
  | forLoop _ _ _ _ => false
  | foreachLoop _ _ _ => false

def hasBreakBranches : Branches → Bool
  | .last condition body => hasBreak condition || hasBreak body
  | .more condition body rest => hasBreak condition || hasBreak body || hasBreakBranches rest

end

mutual

/-- The last instruction is a `continue` of the loop around the code. -/
def endsInContinue : Code → Bool
  | nil => false
  | plain ins => ins.looksLikeContinue
  | brk type => type == .continue
  | seq a b => if b.size = 0 then endsInContinue a else endsInContinue b
  | skip _ body => endsInContinue body
  | choice _ _ b => endsInContinue b
  | ifThen branches => endsInContinueBranches branches
  | ifElse _ otherwise => endsInContinue otherwise
  | func body => endsInContinue body
  | tryCatch _ _ _ => false
  | whileLoop _ _ => false
  | forLoop _ _ _ _ => false
  | foreachLoop _ _ _ => false

/-- The body of the first branch comes last. -/
def endsInContinueBranches : Branches → Bool
  | .last _ body => endsInContinue body
  | .more _ body _ => endsInContinue body

end

/-- The jump over the first body of several is empty when that body is. -/
def emptyFirstBody : Branches → Bool
  | .last _ _ => false
  | .more _ body _ => decide (body.size = 0)

mutual

/-- Some jump of another statement looks like a `break` or `continue`: a jump over nothing,
one that an inner loop does not patch, or an inner `continue` that is patched to zero. -/
def hasMisread : Code → Bool
  | nil => false
  | plain ins => ins.looksLikeBreak
  | brk _ => false
  | seq a b => hasMisread a || hasMisread b
  | skip _ body => hasMisread body
  | choice _ a b => decide (b.size = 0) || hasMisread a || hasMisread b
  | ifThen branches => emptyFirstBody branches || hasMisreadBranches branches
  | ifElse branches otherwise =>
    decide (otherwise.size = 0) || hasMisreadBranches branches || hasMisread otherwise
  | func body => decide (body.size = 0) || hasMisread body
  | tryCatch body assign handler =>
    decide (assign.size + handler.size = 0) || hasMisread body || hasMisread assign ||
      hasMisread handler
  | whileLoop condition _ => hasMisread condition || hasBreak condition
  | forLoop init condition _ body =>
    hasMisread init || hasBreak init || hasMisread condition || hasBreak condition ||
      endsInContinue body
  | foreachLoop iterable lhs body =>
    hasMisread iterable || hasBreak iterable || endsInContinue (foreachBody lhs body)

def hasMisreadBranches : Branches → Bool
  | .last condition body => hasMisread condition || hasMisread body
  | .more condition body rest =>
    hasMisread condition || hasMisread body || hasMisreadBranches rest

end

/-! ## Items of the layout -/

@[simp] theorem looksLikeBreak_jump (op : Op) (n : Int) :
    (Item.jump op n).ins.looksLikeBreak = decide (op = .JMP ∧ (n = 0 ∨ n = intMax)) := by
  cases op <;> simp [Item.jump, Instruction.looksLikeBreak, Instruction.jmpOffset]

@[simp] theorem looksLikeContinue_jump (op : Op) (n : Int) :
    (Item.jump op n).ins.looksLikeContinue = decide (op = .JMP ∧ n = intMax) := by
  cases op <;> simp [Item.jump, Instruction.looksLikeContinue, Instruction.jmpOffset]

theorem looksLikeBreak_IFN (n : Int) : (Item.jump .IFN n).ins.looksLikeBreak = false := by
  simp

@[simp] theorem looksLikeBreak_op (op : Op) : (Item.op op).ins.looksLikeBreak = false := by
  cases op <;> rfl

@[simp] theorem looksLikeBreak_named (op : Op) (id : String) :
    (Item.named op id).ins.looksLikeBreak = false := by
  cases op <;> rfl

@[simp] theorem jump_own (op : Op) (n : Int) : (Item.jump op n).own = none := rfl
@[simp] theorem op_own (op : Op) : (Item.op op).own = none := rfl
@[simp] theorem named_own (op : Op) (id : String) : (Item.named op id).own = none := rfl
@[simp] theorem test_op_ne (test : Test) : test.op ≠ .JMP := by cases test <;> simp [Test.op]

/-! ## Breaks of the loop around the code -/

mutual

theorem any_own : ∀ c : Code, c.emit.any (fun item => item.own.isSome) = c.hasBreak
  | nil => rfl
  | plain _ => rfl
  | brk _ => rfl
  | seq a b => by simp [emit, hasBreak, any_own a, any_own b]
  | skip test body => by simp [emit, hasBreak, any_own body]
  | choice test a b => by simp [emit, hasBreak, any_own a, any_own b]
  | ifThen branches => by rw [emit, hasBreak, any_own_branches]
  | ifElse branches otherwise => by
    rw [emit, hasBreak, List.any_append, any_own_branches, any_own otherwise]
  | func body => by simp [emit, hasBreak, any_own body]
  | tryCatch body assign handler => by
    simp [emit, hasBreak, any_own body, any_own assign, any_own handler, Bool.or_assoc]
  | whileLoop _ _ => by simp [emit, hasBreak, Item.settleAll]
  | forLoop _ _ _ _ => by simp [emit, hasBreak, Item.settleAll]
  | foreachLoop _ _ _ => by simp [emit, hasBreak, Item.settleAll]

theorem any_own_branches : ∀ (br : Branches) (tail after : Nat) (jumps : Bool),
    (emitBranches br tail after jumps).any (fun item => item.own.isSome) = hasBreakBranches br
  | .last condition body, tail, after, jumps => by
    cases jumps <;> simp [emitBranches, hasBreakBranches, any_own condition, any_own body]
  | .more condition body rest, tail, after, jumps => by
    cases jumps <;>
      simp [emitBranches, hasBreakBranches, any_own condition, any_own body,
        any_own_branches rest, Bool.or_assoc, Bool.or_comm]

end

/-- An owned item is the jump that its `break` statement emits. -/
def Marked (items : List Item) : Prop :=
  ∀ item ∈ items, ∀ type, item.own = some type → item.ins = ⟨.JMP, .val (.int (breakOperand type))⟩

theorem Marked.append {xs ys : List Item} (hx : Marked xs) (hy : Marked ys) : Marked (xs ++ ys) := by
  intro item hmem
  rcases List.mem_append.mp hmem with h | h
  · exact hx item h
  · exact hy item h

theorem Marked.cons {x : Item} {xs : List Item} (hx : x.own = none) (hxs : Marked xs) :
    Marked (x :: xs) := by
  intro item hmem type hown
  rcases List.mem_cons.mp hmem with rfl | h
  · simp [hx] at hown
  · exact hxs item h type hown

theorem Marked.nil : Marked [] := by
  intro item hmem
  cases hmem

theorem Marked.settleAll (items : List Item) : Marked (Item.settleAll items) := by
  intro item hmem type hown
  obtain ⟨x, _, rfl⟩ := List.mem_map.mp hmem
  cases hown

mutual

theorem marked_emit : ∀ c : Code, Marked c.emit
  | nil => Marked.nil
  | plain ins => Marked.cons rfl Marked.nil
  | brk type => by
    intro item hmem t hown
    rw [emit, List.mem_singleton] at hmem
    subst hmem
    cases hown
    rfl
  | seq a b => by
    rw [emit]
    exact (marked_emit a).append (marked_emit b)
  | skip test body => by
    rw [emit]
    exact Marked.cons rfl (marked_emit body)
  | choice test a b => by
    rw [emit]
    exact (Marked.cons rfl (marked_emit a)).append (Marked.cons rfl (marked_emit b))
  | ifThen branches => by
    rw [emit]
    exact marked_emitBranches branches 0 0 false
  | ifElse branches otherwise => by
    rw [emit]
    exact (marked_emitBranches branches _ _ _).append (marked_emit otherwise)
  | func body => by
    rw [emit]
    exact Marked.cons rfl (marked_emit body)
  | tryCatch body assign handler => by
    rw [emit]
    refine Marked.append ((((Marked.append ?_ (marked_emit body)).append ?_).append
      (marked_emit assign)).append (marked_emit handler)) ?_
    · exact Marked.cons rfl (Marked.cons rfl Marked.nil)
    · exact Marked.cons rfl Marked.nil
    · exact Marked.cons rfl (Marked.cons rfl (Marked.cons rfl Marked.nil))
  | whileLoop _ _ => by
    rw [emit]
    exact Marked.settleAll _
  | forLoop _ _ _ _ => by
    rw [emit]
    exact Marked.settleAll _
  | foreachLoop _ _ _ => by
    rw [emit]
    exact Marked.settleAll _

theorem marked_emitBranches : ∀ (br : Branches) (tail after : Nat) (jumps : Bool),
    Marked (emitBranches br tail after jumps)
  | .last condition body, tail, after, jumps => by
    rw [emitBranches]
    refine ((marked_emit condition).append (Marked.cons rfl (marked_emit body))).append ?_
    cases jumps with
    | false => exact Marked.nil
    | true => exact Marked.cons rfl Marked.nil
  | .more condition body rest, tail, after, jumps => by
    rw [emitBranches]
    refine (((marked_emit condition).append (Marked.cons rfl
      (marked_emitBranches rest _ _ _))).append (marked_emit body)).append ?_
    cases jumps with
    | false => exact Marked.nil
    | true => exact Marked.cons rfl Marked.nil

end

/-- Outside the loop an own break counts as misread too. -/
theorem looksLikeBreak_of_own {c : Code} {item : Item} (hmem : item ∈ c.emit)
    (hown : item.own.isSome) : item.ins.looksLikeBreak := by
  obtain ⟨type, htype⟩ := Option.isSome_iff_exists.mp hown
  rw [marked_emit c item hmem type htype]
  cases type <;> rfl

/-! ## The last instruction -/

theorem lastIsContinue_append (xs ys : List Item) :
    Item.lastIsContinue (xs ++ ys) =
      if ys.length = 0 then Item.lastIsContinue xs else Item.lastIsContinue ys := by
  cases ys with
  | nil => simp
  | cons y ys =>
    rw [Item.lastIsContinue, List.getLast?_append_of_ne_nil xs (List.cons_ne_nil y ys)]
    simp [Item.lastIsContinue]

/-- A jump over `ys`. -/
theorem lastIsContinue_jump (op : Op) (ys : List Item) :
    Item.lastIsContinue (.jump op ys.length :: ys) = Item.lastIsContinue ys := by
  cases ys with
  | nil => simp [Item.lastIsContinue, intMax]
  | cons y ys => simp [Item.lastIsContinue]

theorem lastIsContinue_concat (xs : List Item) {y : Item} (hy : y.ins.looksLikeContinue = false) :
    Item.lastIsContinue (xs ++ [y]) = false := by
  simp [Item.lastIsContinue, hy]

theorem emitBranches_jumps (br : Branches) (tail after : Nat) :
    ∃ items, emitBranches br tail after true = items ++ [.jump .JMP after] := by
  cases br with
  | last condition body => exact ⟨_, by rw [emitBranches, if_pos rfl]⟩
  | more condition body rest => exact ⟨_, by rw [emitBranches, if_pos rfl]⟩

mutual

theorem lastIsContinue_emit : ∀ c : Code, Item.lastIsContinue c.emit = c.endsInContinue
  | nil => rfl
  | plain ins => by simp [emit, endsInContinue, Item.lastIsContinue, Item.plain]
  | brk type => by cases type <;> rfl
  | seq a b => by
    rw [emit, endsInContinue, lastIsContinue_append, lastIsContinue_emit a, lastIsContinue_emit b]
    rfl
  | skip test body => by
    rw [emit, endsInContinue, lastIsContinue_jump, lastIsContinue_emit body]
  | choice test a b => by
    rw [emit, endsInContinue, lastIsContinue_append, lastIsContinue_jump, lastIsContinue_emit b]
    simp
  | ifThen branches => by
    rw [emit, endsInContinue, lastIsContinue_branches]
  | ifElse branches otherwise => by
    obtain ⟨items, hitems⟩ := emitBranches_jumps branches 0 otherwise.emit.length
    rw [emit, endsInContinue, hitems, lastIsContinue_append]
    split
    · rename_i hempty
      rw [← lastIsContinue_emit otherwise, List.length_eq_zero_iff.mp hempty,
        lastIsContinue_concat items (by simp [intMax])]
      rfl
    · exact lastIsContinue_emit otherwise
  | func body => by
    rw [emit, endsInContinue, lastIsContinue_jump, lastIsContinue_emit body]
  | tryCatch body assign handler => by
    rw [emit, lastIsContinue_append]
    rfl
  | whileLoop _ _ => by
    rw [emit, Item.settleAll, List.map_append, lastIsContinue_append]
    rfl
  | forLoop _ _ _ _ => by
    rw [emit, Item.settleAll, List.map_append, lastIsContinue_append]
    rfl
  | foreachLoop _ _ _ => by
    rw [emit, Item.settleAll, List.map_append, lastIsContinue_append]
    rfl

theorem lastIsContinue_branches : ∀ br : Branches,
    Item.lastIsContinue (emitBranches br 0 0 false) = endsInContinueBranches br
  | .last condition body => by
    have h := lastIsContinue_emit body
    simp only [emitBranches, endsInContinueBranches, Bool.toNat_false, Nat.cast_zero, add_zero,
      Bool.false_eq_true, if_false, List.append_nil]
    rw [lastIsContinue_append, lastIsContinue_jump, h]
    simp
  | .more condition body rest => by
    have h := lastIsContinue_emit body
    simp only [emitBranches, endsInContinueBranches, Bool.toNat_false, add_zero,
      Bool.false_eq_true, if_false, List.append_nil]
    rw [lastIsContinue_append, h]
    split
    · rename_i hempty
      have hnil : body.emit = [] := List.length_eq_zero_iff.mp hempty
      obtain ⟨items, hitems⟩ := emitBranches_jumps rest body.emit.length body.emit.length
      rw [hitems, ← List.cons_append, ← List.append_assoc, hnil,
        lastIsContinue_concat _ (by simp [intMax]), ← h, hnil]
      rfl
    · rfl

end

/-! ## Misread jumps -/

/-- Every jump of a patched part is nonzero, but for the last `continue` of a `for` body or
of the repeated part of a `foreach`. -/
theorem looksLikeBreak_patchItem (brk cont : Nat → Int) (i : Nat) (item : Item)
    (hbrk : brk i ≠ 0 ∧ brk i ≠ intMax) (hcont : cont i ≠ intMax) :
    (patchItem brk cont i item).ins.looksLikeBreak =
      (item.ins.looksLikeContinue && decide (cont i = 0)) := by
  unfold patchItem patchIns
  split
  · rename_i h
    simp [Instruction.looksLikeBreak, Instruction.looksLikeContinue, h]
  · rename_i n h
    split
    · rename_i hn
      have hne : (0 : Int) ≠ intMax := by decide
      simp [Instruction.looksLikeBreak, Instruction.looksLikeContinue, h, hn, hbrk, hne]
    · split
      · rename_i hn
        simp [Instruction.looksLikeBreak, Instruction.looksLikeContinue, h, hn, hcont]
      · rename_i h0 hmax
        simp [Instruction.looksLikeBreak, Instruction.looksLikeContinue, h, h0, hmax]

/-- Outside the loop nobody owns what is left. -/
theorem any_misread_settleAll (items : List Item) :
    (Item.settleAll items).any Item.misread = items.any (fun item => item.ins.looksLikeBreak) := by
  simp [Item.settleAll, Item.misread, Function.comp_def]

theorem any_looksLikeBreak (c : Code) :
    c.emit.any (fun item => item.ins.looksLikeBreak) = (c.emit.any Item.misread || c.hasBreak) := by
  rw [← any_own, Bool.eq_iff_iff, Bool.or_eq_true]
  simp only [List.any_eq_true]
  constructor
  · rintro ⟨item, hmem, hlooks⟩
    by_cases hown : item.own.isSome
    · exact .inr ⟨item, hmem, hown⟩
    · refine .inl ⟨item, hmem, ?_⟩
      simp [Item.misread, hlooks, Option.not_isSome_iff_eq_none.mp hown]
  · rintro (⟨item, hmem, hmisread⟩ | ⟨item, hmem, hown⟩)
    · exact ⟨item, hmem, (Bool.and_eq_true_iff.mp hmisread).2⟩
    · exact ⟨item, hmem, looksLikeBreak_of_own hmem hown⟩

/-- The patched part of a loop, whose break distances are `total - i`. -/
theorem any_patchItems {items : List Item} {brk cont : Nat → Int}
    (hbrk : ∀ i < items.length, brk i ≠ 0 ∧ brk i ≠ intMax)
    (hcont : ∀ i < items.length, cont i ≠ intMax) :
    (patchItems brk cont items).any (fun item => item.ins.looksLikeBreak) = true ↔
      ∃ i item, items[i]? = some item ∧ item.ins.looksLikeContinue ∧ cont i = 0 := by
  have hat : ∀ i, (patchItems brk cont items)[i]? = items[i]?.map (patchItem brk cont i) := by
    intro i
    simp [patchItems]
  have hlt : ∀ {i item}, items[i]? = some item → i < items.length := by
    intro i item h
    exact (List.getElem?_eq_some_iff.mp h).1
  rw [List.any_eq_true]
  constructor
  · rintro ⟨x, hmem, hlooks⟩
    obtain ⟨i, hi⟩ := List.mem_iff_getElem?.mp hmem
    rw [hat] at hi
    obtain ⟨item, hitem, rfl⟩ := Option.map_eq_some_iff.mp hi
    rw [looksLikeBreak_patchItem _ _ _ _ (hbrk i (hlt hitem)) (hcont i (hlt hitem)),
      Bool.and_eq_true, decide_eq_true_iff] at hlooks
    exact ⟨i, item, hitem, hlooks⟩
  · rintro ⟨i, item, hitem, hlooks⟩
    refine ⟨patchItem brk cont i item, List.mem_iff_getElem?.mpr ⟨i, by rw [hat, hitem]; rfl⟩, ?_⟩
    rw [looksLikeBreak_patchItem _ _ _ _ (hbrk i (hlt hitem)) (hcont i (hlt hitem))]
    simpa using hlooks

/-- A `continue` operand that is zero at the last position of the first `len` items. -/
theorem exists_continue_iff (xs ys : List Item) :
    (∃ (i : Nat) (item : Item), (xs ++ ys)[i]? = some item ∧ item.ins.looksLikeContinue ∧
      (xs.length : Int) - i - 1 = 0) ↔ Item.lastIsContinue xs = true := by
  constructor
  · rintro ⟨i, item, hitem, hlooks, hi⟩
    have hlast : i = xs.length - 1 ∧ i < xs.length := by omega
    rw [List.getElem?_append_left hlast.2, hlast.1, ← List.getLast?_eq_getElem?] at hitem
    simp [Item.lastIsContinue, hitem, hlooks]
  · intro h
    cases hlast : xs.getLast? with
    | none => simp [Item.lastIsContinue, hlast] at h
    | some item =>
      simp only [Item.lastIsContinue, hlast, Option.any_some] at h
      have hpos : xs.length ≠ 0 := by
        intro h0
        simp [List.length_eq_zero_iff.mp h0] at hlast
      refine ⟨xs.length - 1, item, ?_, h, by omega⟩
      rw [List.getElem?_append_left (by omega), ← List.getLast?_eq_getElem?, hlast]

/-- The body of a `while` loop has no such jump left. -/
theorem any_patchItems_while (items : List Item) (h : (items.length : Int) < intMax) :
    (patchItems (fun i => items.length - i) (fun i => -(i + 1)) items).any
      (fun item => item.ins.looksLikeBreak) = false := by
  have hmax : (0 : Int) < intMax := by decide
  rw [Bool.eq_false_iff, Ne, any_patchItems]
  · intro hcontinue
    obtain ⟨i, item, -, -, hi⟩ := hcontinue
    omega
  · intro i hi
    omega
  · intro i hi
    omega

/-- The other two loops keep the last `continue` of `xs`, as a jump to the next instruction. -/
theorem any_patchItems_last (xs ys : List Item) (h : ((xs ++ ys).length : Int) < intMax) :
    (patchItems (fun i => (xs ++ ys).length - i) (fun i => xs.length - i - 1) (xs ++ ys)).any
      (fun item => item.ins.looksLikeBreak) = Item.lastIsContinue xs := by
  have hlen : (xs ++ ys).length = xs.length + ys.length := List.length_append
  rw [Bool.eq_iff_iff, any_patchItems, exists_continue_iff]
  · intro i hi
    omega
  · intro i hi
    omega

theorem misread_jump_of_ne {op : Op} (hop : op ≠ .JMP) (n : Int) :
    (Item.jump op n).misread = false := by
  simp [Item.misread, hop]

theorem misread_jump_test (test : Test) (n : Int) : (Item.jump test.op n).misread = false :=
  misread_jump_of_ne (test_op_ne test) n

@[simp] theorem misread_jump_IF (n : Int) : (Item.jump .IF n).misread = false :=
  misread_jump_of_ne (by decide) n

@[simp] theorem misread_jump_IFN (n : Int) : (Item.jump .IFN n).misread = false :=
  misread_jump_of_ne (by decide) n

@[simp] theorem misread_jump_CTCH (n : Int) : (Item.jump .CTCH n).misread = false :=
  misread_jump_of_ne (by decide) n

@[simp] theorem misread_op (op : Op) : (Item.op op).misread = false := by
  simp [Item.misread]

@[simp] theorem misread_named (op : Op) (id : String) : (Item.named op id).misread = false := by
  simp [Item.misread]

theorem misread_jump (n : Nat) (hn : (n : Int) < intMax) :
    (Item.jump .JMP n).misread = decide (n = 0) := by
  have hne : (n : Int) ≠ intMax := by omega
  simp [Item.misread, hne]

theorem looksLikeBreak_back (n : Nat) :
    (Item.jump .JMP (-(n + 1))).ins.looksLikeBreak = false := by
  rw [looksLikeBreak_jump, decide_eq_false_iff_not, intMax]
  omega

mutual

theorem any_misread : ∀ c : Code, (c.emit.length : Int) < intMax →
    c.emit.any Item.misread = c.hasMisread
  | nil => by
    intro h
    rfl
  | plain ins => by
    intro h
    simp [emit, hasMisread, Item.misread, Item.plain]
  | brk _ => by
    intro h
    rfl
  | seq a b => by
    intro h
    rw [emit, List.length_append] at h
    rw [emit, hasMisread, List.any_append, any_misread a (by omega), any_misread b (by omega)]
  | skip test body => by
    intro h
    rw [emit, List.length_cons] at h
    rw [emit, hasMisread, List.any_cons, misread_jump_test, any_misread body (by omega)]
    rfl
  | choice test a b => by
    intro h
    rw [emit, List.length_append, List.length_cons, List.length_cons] at h
    rw [emit, hasMisread, List.any_append, List.any_cons, List.any_cons, misread_jump_test,
      misread_jump _ (by omega), any_misread a (by omega), any_misread b (by omega), size]
    simp only [Bool.false_or, Bool.or_assoc, Bool.or_left_comm]
  | ifThen (.last condition body) => by
    intro h
    simp only [emit, emitBranches, List.length_append, List.length_cons] at h
    simp [emit, emitBranches, hasMisread, hasMisreadBranches, emptyFirstBody,
      any_misread condition (by omega), any_misread body (by omega)]
  | ifThen (.more condition body rest) => by
    intro h
    simp only [emit, emitBranches, List.length_append, List.length_cons] at h
    have hrest := any_misread_branches rest body.emit.length body.emit.length
    simp only [Bool.toNat_false, add_zero] at h
    simp only [emit, emitBranches, hasMisread, hasMisreadBranches, emptyFirstBody, size,
      Bool.toNat_false, add_zero, List.any_append, List.any_cons, misread_jump_IF,
      any_misread condition (by omega), any_misread body (by omega), hrest (by omega)]
    simp [Bool.or_assoc, Bool.or_comm, Bool.or_left_comm]
  | ifElse branches otherwise => by
    intro h
    rw [emit, List.length_append] at h
    rw [emit, hasMisread, List.any_append, any_misread_branches branches _ _ (by omega),
      any_misread otherwise (by omega), size]
  | func body => by
    intro h
    rw [emit, List.length_cons] at h
    rw [emit, hasMisread, List.any_cons, misread_jump _ (by omega), any_misread body (by omega)]
    rfl
  | tryCatch body assign handler => by
    intro h
    simp only [emit, List.length_append, List.length_cons, List.length_nil] at h
    have hjump := misread_jump (assign.emit.length + handler.emit.length) (by omega)
    push_cast at hjump
    simp [emit, hasMisread, size, hjump, any_misread body (by omega), any_misread assign (by omega),
      any_misread handler (by omega)]
    simp only [Bool.or_assoc, Bool.or_left_comm]
  | whileLoop condition body => by
    intro h
    simp only [emit, Item.length_settleAll, List.length_append, List.length_cons, List.length_nil,
      length_patchItems] at h
    have hbody := any_patchItems_while body.emit (by omega)
    have hback := looksLikeBreak_back (1 + condition.emit.length + body.emit.length)
    push_cast at hback
    rw [emit, any_misread_settleAll]
    simp only [List.any_append, List.any_cons, List.any_nil, looksLikeBreak_op, hbody, hback,
      looksLikeBreak_IFN, any_looksLikeBreak, any_misread condition (by omega), hasMisread,
      Bool.or_false, Bool.false_or]
  | forLoop init condition inc body => by
    intro h
    simp only [emit, Item.length_settleAll, List.length_append, List.length_cons, List.length_nil,
      length_patchItems] at h
    have hbody := any_patchItems_last body.emit inc.emit (by rw [List.length_append]; omega)
    rw [List.length_append] at hbody
    have hback := looksLikeBreak_back
      (body.emit.length + condition.emit.length + inc.emit.length + 1)
    push_cast at hback hbody
    rw [emit, any_misread_settleAll]
    simp only [List.any_append, List.any_cons, List.any_nil, looksLikeBreak_op, hbody, hback,
      looksLikeBreak_IFN, any_looksLikeBreak, any_misread init (by omega),
      any_misread condition (by omega), lastIsContinue_emit, hasMisread, Bool.or_false,
      Bool.false_or, Bool.or_assoc]
  | foreachLoop iterable lhs body => by
    intro h
    simp only [emit, Item.length_settleAll, List.length_append, List.length_cons, List.length_nil,
      length_patchItems] at h
    have hregion := emit_foreachBody lhs body
    have hbody := any_patchItems_last (foreachBody lhs body).emit []
      (by simp only [hregion, List.length_append, List.length_cons, List.length_nil]; omega)
    rw [List.append_nil] at hbody
    have hback := looksLikeBreak_back (3 + (foreachBody lhs body).emit.length)
    push_cast at hback
    rw [emit, any_misread_settleAll]
    simp only [← hregion, List.any_append, List.any_cons, List.any_nil, looksLikeBreak_op,
      looksLikeBreak_named, hbody, hback, looksLikeBreak_IFN, any_looksLikeBreak,
      any_misread iterable (by omega), lastIsContinue_emit, hasMisread, Bool.or_false,
      Bool.false_or, Bool.or_assoc]

theorem any_misread_branches : ∀ (br : Branches) (tail after : Nat),
    ((emitBranches br tail after true).length + after : Int) < intMax →
      (emitBranches br tail after true).any Item.misread =
        (decide (after = 0) || hasMisreadBranches br)
  | .last condition body, tail, after => by
    intro h
    simp only [emitBranches, if_true, List.length_append, List.length_cons, List.length_nil] at h
    simp [emitBranches, hasMisreadBranches, misread_jump after (by omega),
      any_misread condition (by omega), any_misread body (by omega), Bool.or_comm, Bool.or_left_comm]
  | .more condition body rest, tail, after => by
    intro h
    simp only [emitBranches, if_true, List.length_append, List.length_cons, List.length_nil,
      Bool.toNat_true] at h
    have hrest := any_misread_branches rest (body.emit.length + 1 + tail)
      (body.emit.length + 1 + after)
    have hpos : body.emit.length + 1 + after ≠ 0 := by omega
    simp only [emitBranches, if_true, Bool.toNat_true, List.any_append, List.any_cons, List.any_nil,
      misread_jump_IF, hasMisreadBranches, hrest (by omega), misread_jump after (by omega), hpos,
      any_misread condition (by omega), any_misread body (by omega)]
    simp [Bool.or_assoc, Bool.or_comm, Bool.or_left_comm]

end

end Code

/-! ## The patch loops -/

/-- A pass over the layout of `c` changes exactly the jumps that the `break` statements of
the loop around `c` emitted. -/
def RewritesOwnBreaks (c : Code) (before after : List Instruction) : Prop :=
  before = c.code ∧ after.length = before.length ∧
    ∀ (i : Nat) (item : Item), c.emit[i]? = some item →
      (after[i]? ≠ before[i]? ↔ item.own.isSome)

/-- A patch changes an instruction just when it looks like a `break`. -/
theorem patchIns_ne_iff (brk cont : Nat → Int) (i : Nat) (ins : Instruction)
    (hbrk : brk i ≠ 0) (hcont : cont i ≠ intMax) :
    patchIns brk cont i ins ≠ ins ↔ ins.looksLikeBreak := by
  have hjmp : ∀ {n : Int}, ins.jmpOffset = some n → ins = ⟨.JMP, .val (.int n)⟩ := by
    intro n h
    unfold Instruction.jmpOffset at h
    split at h
    · cases h
      rfl
    · cases h
  unfold patchIns Instruction.looksLikeBreak
  split
  · rename_i h
    simp [h]
  · rename_i n h
    split
    · rename_i hn
      rw [hjmp h, hn]
      simp [hbrk]
    · split
      · rename_i hn
        rw [hjmp h, hn]
        simp [hcont]
      · rename_i h0 hmax
        simp [h, h0, hmax]

theorem rewritesOwnBreaks_iff (c : Code) {brk cont : Nat → Int} (tmp : Tape)
    (htmp : tmp.ins = c.code) (hsize : (c.size : Int) < intMax) (hbrk : ∀ i < c.size, brk i ≠ 0)
    (hcont : ∀ i < c.size, cont i ≠ intMax) :
    RewritesOwnBreaks c tmp.ins (tmp.patch brk cont).ins ↔ c.hasMisread = false := by
  have hafter : ∀ {i : Nat} {item : Item}, c.emit[i]? = some item →
      ((tmp.patch brk cont).ins[i]? ≠ tmp.ins[i]? ↔ item.ins.looksLikeBreak) := by
    intro i item hitem
    have hi : i < c.size := (List.getElem?_eq_some_iff.mp hitem).1
    rw [← patchIns_ne_iff brk cont i item.ins (hbrk i hi) (hcont i hi)]
    simp [Tape.patch, htmp, Code.code, hitem]
  rw [← Code.any_misread c hsize, List.any_eq_false]
  constructor
  · intro h item hmem hmisread
    obtain ⟨i, hitem⟩ := List.mem_iff_getElem?.mp hmem
    obtain ⟨hnone, hlooks⟩ := Bool.and_eq_true_iff.mp hmisread
    have hsome := (h.2.2 i item hitem).mp ((hafter hitem).mpr hlooks)
    simp [Option.isNone_iff_eq_none.mp hnone] at hsome
  · intro h
    refine ⟨htmp, by simp [Tape.patch], ?_⟩
    intro i item hitem
    have hmem := List.mem_of_getElem? hitem
    rw [hafter hitem]
    constructor
    · intro hlooks
      by_contra hown
      apply h item hmem
      simp [Item.misread, hlooks, Option.not_isSome_iff_eq_none.mp hown]
    · exact Code.looksLikeBreak_of_own hmem

/-- The repeated part of a loop statement. -/
inductive LoopPart where
  | whileBody (body : ExpressionTree)
  | forBody (body inc : ExpressionTree)
  | foreachBody (forToken inToken : Token) (assignmentLhs : Assignment) (body : ExpressionTree)

namespace LoopPart

def lower : LoopPart → Code
  | whileBody body => JeffVm.lower body
  | forBody body inc => JeffVm.lower body ++ JeffVm.lower inc
  | foreachBody _ _ assignmentLhs body =>
    Code.foreachBody (lowerAssignment assignmentLhs) (JeffVm.lower body)

/-- The tape of the repeated part, before and after the patch loop of its producer. -/
def patched : LoopPart → Option (Tape × Tape)
  | whileBody body =>
    (produceInstructions body Tape.create).map fun (linesForBody, tmp) =>
      (tmp, tmp.patchWhile linesForBody)
  | forBody body inc =>
    (produceInstructions body Tape.create).bind fun (bodyIns, tmp) =>
      (produceInstructions inc tmp).map fun (incIns, tmp) => (tmp, tmp.patchFor bodyIns incIns)
  | foreachBody forToken inToken assignmentLhs body =>
    ((insNoArg .DUP forToken + insText .CALL nextFnName inToken +
      produceAssignment inToken assignmentLhs + produceInstructions body) Tape.create).map
        fun (bodyIns, tmp) => (tmp, tmp.patchForeach bodyIns)

end LoopPart

/-- Exactly when the patch loop of a loop statement changes only the breaks of its own loop:
no other jump of the repeated part may look like one. -/
theorem patch_rewrites_own_breaks_iff (loop : LoopPart) (before after : Tape)
    (hrun : loop.patched = some (before, after)) (hmax : (before.size : Int) < intMax) :
    RewritesOwnBreaks loop.lower before.ins after.ins ↔ loop.lower.hasMisread = false := by
  have hsize : ∀ {c : Code}, before.ins = c.code → (c.size : Int) < intMax := by
    intro c h
    rwa [Tape.size, h, Code.length_code] at hmax
  have hpos : 0 < intMax := by decide
  cases loop with
  | whileBody body =>
    obtain ⟨⟨n, tmp⟩, hbody, heq⟩ := Option.map_eq_some_iff.mp hrun
    cases heq
    obtain ⟨rfl, hins⟩ := (generates_instructions body).create hbody
    apply rewritesOwnBreaks_iff _ _ hins (hsize hins)
    · intro i hi
      omega
    · intro i hi
      omega
  | forBody body inc =>
    obtain ⟨⟨n, tmp⟩, hbody, hrest⟩ := Option.bind_eq_some_iff.mp hrun
    obtain ⟨⟨m, tmp'⟩, hinc, heq⟩ := Option.map_eq_some_iff.mp hrest
    cases heq
    obtain ⟨rfl, hins⟩ := (generates_instructions body).create hbody
    obtain ⟨rfl, hins'⟩ := generates_instructions inc tmp m _ hinc
    rw [hins, ← Code.code_append] at hins'
    have hcode := hsize hins'
    rw [Code.size_append] at hcode
    apply rewritesOwnBreaks_iff _ _ hins' (hsize hins')
    · intro i hi
      rw [Code.size_append] at hi
      rw [Code.length_code]
      omega
    · intro i hi
      omega
  | foreachBody forToken inToken assignmentLhs body =>
    obtain ⟨⟨n, tmp⟩, hbody, heq⟩ := Option.map_eq_some_iff.mp hrun
    cases heq
    obtain ⟨rfl, hins⟩ := (generates_foreachBody forToken inToken
      (generates_assignment inToken assignmentLhs) (generates_instructions body)).create hbody
    have hcode := hsize hins
    apply rewritesOwnBreaks_iff _ _ hins hcode
    · intro i hi
      omega
    · intro i hi
      omega

/-- `for (..; ..; x) { break }` -/
theorem patch_rewrites_own_breaks_break :
    RewritesOwnBreaks (.brk .break ++ tokenCode .RES (.word "x" 1))
      [⟨.JMP, .val (.int 0)⟩, ⟨.RES, .id "x"⟩] [⟨.JMP, .val (.int 2)⟩, ⟨.RES, .id "x"⟩] :=
  (patch_rewrites_own_breaks_iff
    (.forBody (.breakStatement (.word "break" 1) .break) (.identifier (.word "x" 1))) _ _ rfl
    (by decide)).mpr (by decide)

/-- `if (x) { y } else {}` -/
def emptyElse : ExpressionTree :=
  .selectionStatement ⟨⟨.word "if" 1, .identifier (.word "x" 1), .identifier (.word "y" 1)⟩, [],
    some (.compoundStatement [])⟩

/-- The jump over the empty `else` becomes a `break` of the loop around it. -/
theorem not_patch_rewrites_own_breaks : ¬ ∀ (loop : LoopPart) (before after : Tape),
    loop.patched = some (before, after) → (before.size : Int) < intMax →
      RewritesOwnBreaks loop.lower before.ins after.ins := by
  intro h
  obtain ⟨-, -, hrewrites⟩ := h (.whileBody emptyElse) _ _ rfl (by decide)
  have hjump := (hrewrites 3 (.jump .JMP 0) rfl).mp (by decide)
  cases hjump

end JeffVm
