import JeffVm.Code

/-!
# Producers emit structured code

Every producer counts exactly the instructions it appends, and appends the layout of the
lowered tree, whatever tape it is given. The jump distances of `if` statements, which the C
code computes from running totals, are those of the nested layout.
-/

set_option autoImplicit false

namespace JeffVm

open Producer

/-- A successful run of `p` appends `is` and counts them. -/
def Emits (p : Producer) (is : List Instruction) : Prop :=
  ∀ tape n tape', p tape = some (n, tape') →
    n = (is.length : Int) ∧ tape'.ins = tape.ins ++ is

namespace Emits

variable {p q : Producer} {is js : List Instruction}

theorem zero : Emits 0 [] := by
  intro tape n tape' h
  cases h
  simp

theorem fail (is : List Instruction) : Emits Producer.fail is := by
  intro tape n tape' h
  cases h

theorem withCount {k : Int → Producer} (hp : Emits p is) (hk : Emits (k is.length) js) :
    Emits (withCount p k) (is ++ js) := by
  intro tape n tape' h
  unfold Producer.withCount at h
  cases hrun : p tape with
  | none => simp [hrun] at h
  | some r =>
    obtain ⟨n₁, tape₁⟩ := r
    obtain ⟨rfl, hins₁⟩ := hp tape n₁ tape₁ hrun
    cases hrun' : k is.length tape₁ with
    | none => simp [hrun, hrun'] at h
    | some r =>
      obtain ⟨n₂, tape₂⟩ := r
      simp only [hrun, hrun', Option.some.injEq, Prod.mk.injEq] at h
      obtain ⟨rfl, rfl⟩ := h
      obtain ⟨rfl, hins₂⟩ := hk tape₁ n₂ tape₂ hrun'
      rw [hins₂, hins₁, List.length_append, List.append_assoc]
      exact ⟨by push_cast; rfl, rfl⟩

theorem add (hp : Emits p is) (hq : Emits q js) : Emits (p + q) (is ++ js) := withCount hp hq

theorem onTape {k : Int → Tape → Producer} {tmp : Tape}
    (hk : ∀ n tmp', p tmp = some (n, tmp') → Emits (k n tmp') is) : Emits (onTape p tmp k) is := by
  intro tape n tape' h
  unfold Producer.onTape at h
  cases hrun : p tmp with
  | none => simp [hrun] at h
  | some r =>
    obtain ⟨m, tmp'⟩ := r
    simp only [hrun] at h
    exact hk m tmp' hrun tape n tape' h

theorem given {α : Type} {o : Option α} {k : α → Producer}
    (hk : ∀ a, o = some a → Emits (k a) is) : Emits (given o k) is := by
  cases o with
  | none => exact fail is
  | some a => exact hk a rfl

theorem insNoArg (op : Op) (token : Token) : Emits (Producer.insNoArg op token) [⟨op, .noArg⟩] := by
  intro tape n tape' h
  cases h
  exact ⟨rfl, rfl⟩

theorem insInt (op : Op) (val : Int) (token : Token) :
    Emits (Producer.insInt op val token) [⟨op, .val (.int val)⟩] := by
  intro tape n tape' h
  cases h
  exact ⟨rfl, rfl⟩

theorem insText (op : Op) (text : String) (token : Token) :
    Emits (Producer.insText op text token) [⟨op, .id text⟩] := by
  intro tape n tape' h
  cases h
  exact ⟨rfl, rfl⟩

theorem insToken (op : Op) (token : Token) :
    Emits (Producer.insToken op token) [⟨op, Tape.argOfToken token⟩] := by
  intro tape n tape' h
  cases h
  exact ⟨rfl, rfl⟩

theorem append {n : Int} {tail : Tape} (hn : n = (is.length : Int)) (htail : tail.ins = is) :
    Emits (Producer.append n tail) is := by
  intro tape m tape' h
  cases h
  exact ⟨hn, by rw [Tape.append_ins, htail]⟩

theorem label (name : String) (isAsync : Bool) : Emits (Producer.label name isAsync) [] := by
  intro tape n tape' h
  obtain ⟨t, hstart, heq⟩ := Option.map_eq_some_iff.mp h
  cases heq
  refine ⟨rfl, ?_⟩
  rw [List.append_nil]
  exact Tape.startFuncAtIndex_ins hstart

/-- On a new tape the code is all there is. -/
theorem create (hp : Emits p is) {n : Int} {tape : Tape} (h : p Tape.create = some (n, tape)) :
    n = (is.length : Int) ∧ tape.ins = is := by
  obtain ⟨hn, hins⟩ := hp _ _ _ h
  exact ⟨hn, by rw [hins]; rfl⟩

end Emits

/-- `p` produces the layout of `c`. -/
def Generates (p : Producer) (c : Code) : Prop := Emits p c.code

namespace Generates

variable {p q : Producer} {a b : Code}

theorem add (hp : Generates p a) (hq : Generates q b) : Generates (p + q) (a ++ b) := by
  unfold Generates
  rw [Code.code_append]
  exact Emits.add hp hq

theorem zero : Generates 0 .nil := Emits.zero
theorem fail (c : Code) : Generates fail c := Emits.fail _
theorem op (op : Op) (token : Token) : Generates (insNoArg op token) (opCode op) :=
  Emits.insNoArg op token
theorem int (op : Op) (n : Int) (token : Token) : Generates (insInt op n token) (intCode op n) :=
  Emits.insInt op n token
theorem text (op : Op) (text : String) (token : Token) :
    Generates (insText op text token) (idCode op text) := Emits.insText op text token
theorem token (op : Op) (token : Token) : Generates (insToken op token) (tokenCode op token) :=
  Emits.insToken op token

end Generates

/-! ## Layouts -/

namespace Code

@[simp] theorem code_nil : nil.code = [] := rfl

@[simp] theorem code_plain (ins : Instruction) : (plain ins).code = [ins] := rfl

theorem code_skip (test : Test) (body : Code) :
    (skip test body).code = ⟨test.op, .val (.int body.size)⟩ :: body.code := rfl

theorem code_func (body : Code) :
    (func body).code = ⟨.JMP, .val (.int body.size)⟩ :: body.code := rfl

theorem code_choice (test : Test) (a b : Code) :
    (choice test a b).code = ⟨test.op, .val (.int (a.size + 1))⟩ ::
      (a.code ++ ⟨.JMP, .val (.int b.size)⟩ :: b.code) := by
  simp [code, emit, size, Item.jump]

theorem code_tryCatch (body assign handler : Code) :
    (tryCatch body assign handler).code =
      [⟨.NBLK, .noArg⟩] ++ [⟨.CTCH, .val (.int (body.size + 1))⟩] ++ body.code ++
        [⟨.JMP, .val (.int (handler.size + assign.size))⟩] ++ assign.code ++ handler.code ++
        [⟨.RNIL, .noArg⟩] ++ [⟨.SET, .id "$try_goto"⟩] ++ [⟨.BBLK, .noArg⟩] := by
  simp [code, emit, size, Item.jump, Item.op, Item.named, Int.add_comm]

theorem map_settleAll (items : List Item) :
    (Item.settleAll items).map Item.ins = items.map Item.ins := by
  simp [Item.settleAll, Function.comp_def]

theorem map_patchItems (brk cont : Nat → Int) (items : List Item) :
    (patchItems brk cont items).map Item.ins =
      (items.map Item.ins).mapIdx (patchIns brk cont) := by
  apply List.ext_getElem?
  intro i
  simp only [patchItems, List.getElem?_map, List.getElem?_mapIdx]
  cases items[i]? <;> rfl

theorem code_whileLoop (condition body : Code) :
    (whileLoop condition body).code =
      [⟨.NBLK, .noArg⟩] ++ condition.code ++ [⟨.IFN, .val (.int (body.size + 1))⟩] ++
        body.code.mapIdx (patchIns (fun i => body.size - i) (fun i => -(i + 1))) ++
        [⟨.JMP, .val (.int (-(1 + condition.size + body.size + 1)))⟩] ++ [⟨.BBLK, .noArg⟩] := by
  simp [code, emit, size, map_settleAll, map_patchItems, Item.jump, Item.op]

theorem code_forLoop (init condition inc body : Code) :
    (forLoop init condition inc body).code =
      [⟨.NBLK, .noArg⟩] ++ init.code ++ condition.code ++
        [⟨.IFN, .val (.int (body.size + inc.size + 1))⟩] ++
        (body.code ++ inc.code).mapIdx
          (patchIns (fun i => body.size + inc.size - i) (fun i => body.size - i - 1)) ++
        [⟨.JMP, .val (.int (-(body.size + condition.size + inc.size + 1 + 1)))⟩] ++
        [⟨.BBLK, .noArg⟩] := by
  simp [code, emit, size, map_settleAll, map_patchItems, Item.jump, Item.op]

/-- The repeated part of a `foreach` loop. -/
def foreachBody (lhs body : Code) : Code := opCode .DUP ++ idCode .CALL nextFnName ++ lhs ++ body

theorem emit_foreachBody (lhs body : Code) : (foreachBody lhs body).emit =
    [Item.op .DUP, .named .CALL nextFnName] ++ lhs.emit ++ body.emit := by
  simp [foreachBody, opCode, idCode, emit, Item.op, Item.named]

theorem code_foreachLoop (iterable lhs body : Code) :
    (foreachLoop iterable lhs body).code =
      [⟨.NBLK, .noArg⟩] ++ iterable.code ++
        [⟨.PUSH, .noArg⟩] ++ [⟨.CALL, .id iterFnName⟩] ++ [⟨.PUSH, .noArg⟩] ++
        [⟨.DUP, .noArg⟩] ++ [⟨.CALL, .id hasNextFnName⟩] ++
        [⟨.IFN, .val (.int ((foreachBody lhs body).size + 1))⟩] ++
        (foreachBody lhs body).code.mapIdx
          (patchIns (fun i => (foreachBody lhs body).size - i)
            (fun i => (foreachBody lhs body).size - i - 1)) ++
        [⟨.JMP, .val (.int (-(3 + (foreachBody lhs body).size + 1)))⟩] ++
        [⟨.RES, .noArg⟩] ++ [⟨.BBLK, .noArg⟩] := by
  simp only [code, size, emit_foreachBody]
  simp [emit, map_settleAll, map_patchItems, Item.jump, Item.op, Item.named]

end Code

/-! ## Chains -/

theorem size_chain (test : Test) (cs : List Code) :
    (Code.chain test cs).size = (cs.map Code.size).sum + cs.length := by
  induction cs with
  | nil => rfl
  | cons c cs ih =>
    have hskip : (Code.chain test (c :: cs)).size = (c ++ Code.chain test cs).size + 1 := rfl
    rw [hskip, Code.size_append, ih]
    simp
    omega

/-- The tapes hold the code of the suffixes. -/
def HoldSuffixes (bodies : List (Token × Tape)) (cs : List Code) : Prop :=
  List.Forall₂ (fun body c => body.2.ins = c.code) bodies cs

theorem generates_chain (test : Test) {bodies : List (Token × Tape)} {cs : List Code}
    (hold : HoldSuffixes bodies cs) :
    Generates (produceChain test.op bodies (cs.map Code.size).sum) (Code.chain test cs) := by
  induction hold with
  | nil => exact Generates.zero
  | @cons body c bodies cs hbody hold ih =>
    obtain ⟨token, suffix⟩ := body
    have hsize : suffix.size = c.size := by
      rw [Tape.size, hbody, Code.length_code]
    have hrest : bodies.length = cs.length := hold.length_eq
    have hcount : (((c :: cs).map Code.size).sum : Int) + bodies.length =
        ((c ++ Code.chain test cs).size : Int) := by
      rw [Code.size_append, size_chain, hrest]
      simp
      omega
    have hleft : (((c :: cs).map Code.size).sum : Int) - suffix.size = (cs.map Code.size).sum := by
      rw [hsize]
      simp
    unfold Generates
    rw [produceChain, Code.chain, Code.code_skip, Code.code_append, hcount, hleft]
    exact ((Emits.insInt _ _ _).add
      (Emits.append (by rw [hsize, Code.length_code]) hbody)).add ih

/-! ## Branches -/

namespace Code

def conditionSize : Branches → Nat
  | .last c _ => c.size
  | .more c _ rest => c.size + conditionSize rest

def bodySize : Branches → Nat
  | .last _ b => b.size
  | .more _ b rest => b.size + bodySize rest

def branchCount : Branches → Nat
  | .last _ _ => 1
  | .more _ _ rest => 1 + branchCount rest

theorem length_emitBranches : ∀ (br : Branches) (tail after : Nat) (jumps : Bool),
    (emitBranches br tail after jumps).length + 1 =
      conditionSize br + bodySize br + 2 * branchCount br + jumps.toNat
  | .last c b, tail, after, jumps => by
    cases jumps <;>
      simp [emitBranches, conditionSize, bodySize, branchCount, size] <;> omega
  | .more c b rest, tail, after, jumps => by
    have hrest := length_emitBranches rest (b.size + jumps.toNat + tail)
      (b.size + jumps.toNat + after) true
    cases jumps <;>
      simp [emitBranches, conditionSize, bodySize, branchCount, size] at hrest ⊢ <;> omega

/-- All conditions with their jumps, in the order of the source. -/
def conditionsCode : Branches → Nat → Bool → List Instruction
  | .last c b, tail, jumps => c.code ++ [⟨.IFN, .val (.int (b.size + jumps.toNat + tail))⟩]
  | .more c b rest, tail, jumps =>
    c.code ++ [⟨.IF, .val (.int (conditionSize rest + bodySize rest + 2 * branchCount rest))⟩] ++
      conditionsCode rest (b.size + jumps.toNat + tail) true

def bodyCode (b : Code) (after : Nat) (jumps : Bool) : List Instruction :=
  b.code ++ if jumps then [⟨.JMP, .val (.int after)⟩] else []

/-- All bodies with their jumps, the last body first. -/
def bodiesCode : Branches → Nat → Bool → List Instruction
  | .last _ b, after, jumps => bodyCode b after jumps
  | .more _ b rest, after, jumps =>
    bodiesCode rest (b.size + jumps.toNat + after) true ++ bodyCode b after jumps

theorem code_emitBranches : ∀ (br : Branches) (tail after : Nat) (jumps : Bool),
    (emitBranches br tail after jumps).map Item.ins =
      conditionsCode br tail jumps ++ bodiesCode br after jumps
  | .last c b, tail, after, jumps => by
    cases jumps <;>
      simp [emitBranches, conditionsCode, bodiesCode, bodyCode, code, size, Item.jump]
  | .more c b rest, tail, after, jumps => by
    have hrest := code_emitBranches rest (b.size + jumps.toNat + tail)
      (b.size + jumps.toNat + after) true
    have hlen := length_emitBranches rest (b.size + jumps.toNat + tail)
      (b.size + jumps.toNat + after) true
    have hjump : ((emitBranches rest (b.size + jumps.toNat + tail)
        (b.size + jumps.toNat + after) true).length : Int) =
        conditionSize rest + bodySize rest + 2 * branchCount rest := by
      simp only [Bool.toNat_true] at hlen
      omega
    simp only [emitBranches, List.map_append, List.map_cons, conditionsCode, bodiesCode, bodyCode]
    simp only [size] at hrest hjump
    rw [hrest, Item.jump, hjump]
    cases jumps <;> simp [code, size, Item.jump]

theorem code_ifThen (br : Branches) :
    (ifThen br).code = conditionsCode br 0 false ++ bodiesCode br 0 false :=
  code_emitBranches br 0 0 false

theorem code_ifElse (br : Branches) (otherwise : Code) :
    (ifElse br otherwise).code =
      conditionsCode br 0 true ++ bodiesCode br otherwise.size true ++ otherwise.code := by
  rw [← code_emitBranches, code, emit, List.map_append]
  rfl

end Code

/-- The tapes of a branch hold the code of its condition and body. -/
def HoldBranch (b : Branch) (p : Code × Code) : Prop :=
  b.condition.ins = p.1.code ∧ b.body.ins = p.2.code

theorem HoldBranch.sizes {b : Branch} {p : Code × Code} (h : HoldBranch b p) :
    b.condition.size = p.1.size ∧ b.body.size = p.2.size :=
  ⟨by rw [Tape.size, h.1, Code.length_code], by rw [Tape.size, h.2, Code.length_code]⟩

@[simp] theorem Tape.insInt_ins (tape : Tape) (op : Op) (val : Int) (token : Token) :
    (tape.insInt op val token).ins = tape.ins ++ [⟨op, .val (.int val)⟩] := rfl

theorem conditionSize_branches (p : Code × Code) (ps : List (Code × Code)) :
    Code.conditionSize (Code.branches p ps) = p.1.size + (ps.map (fun q => q.1.size)).sum := by
  induction ps generalizing p with
  | nil => simp [Code.branches, Code.conditionSize]
  | cons q qs ih => simp [Code.branches, Code.conditionSize, ih]

theorem bodySize_branches (p : Code × Code) (ps : List (Code × Code)) :
    Code.bodySize (Code.branches p ps) = p.2.size + (ps.map (fun q => q.2.size)).sum := by
  induction ps generalizing p with
  | nil => simp [Code.branches, Code.bodySize]
  | cons q qs ih => simp [Code.branches, Code.bodySize, ih]

theorem branchCount_branches (p : Code × Code) (ps : List (Code × Code)) :
    Code.branchCount (Code.branches p ps) = ps.length + 1 := by
  induction ps generalizing p with
  | nil => rfl
  | cons q qs ih =>
    simp only [Code.branches, Code.branchCount, ih, List.length_cons]
    omega

/-- The forward loop: `tail` and `jumps` describe what follows the body of the first branch
still to write. -/
theorem writeConditions_ins {numBodyIns numConds : Int} {hasElse : Bool} {bs : List Branch}
    {ps : List (Code × Code)} (hold : List.Forall₂ HoldBranch bs ps) :
    ∀ {b : Branch} {p : Code × Code} {tail : Nat} {jumps : Bool} {tape : Tape},
      HoldBranch b p →
      numBodyIns + numConds + (if hasElse then 0 else -1) + 1 =
        Code.bodySize (Code.branches p ps) + Code.branchCount (Code.branches p ps) +
          jumps.toNat + tail →
      (writeConditions numBodyIns numConds hasElse (b :: bs)
          (Code.conditionSize (Code.branches p ps)) (Code.bodySize (Code.branches p ps)) tape).ins =
        tape.ins ++ Code.conditionsCode (Code.branches p ps) tail jumps := by
  induction hold with
  | nil =>
    intro b p tail jumps tape hb hcount
    have hjump : numBodyIns + numConds + (if hasElse then 0 else -1) =
        (p.2.size + jumps.toNat + tail : Int) := by
      simp only [Code.branches, Code.bodySize, Code.branchCount] at hcount
      omega
    simp [writeConditions, Code.branches, Code.conditionsCode, hb.1, hjump]
  | @cons b' p' bs ps hb' hold ih =>
    intro b p tail jumps tape hb hcount
    obtain ⟨hcond, hbody⟩ := hb.sizes
    have hlen : bs.length = ps.length := hold.length_eq
    have hnext := @ih b' p' (p.2.size + jumps.toNat + tail) true
      ((tape.append b.condition).insInt .IF
        (Code.conditionSize (Code.branches p' ps) + Code.bodySize (Code.branches p' ps) +
          2 * (b' :: bs).length) b.token) hb' (by
        simp only [Code.branches, Code.bodySize, Code.branchCount, Bool.toNat_true] at hcount ⊢
        push_cast at hcount ⊢
        omega)
    have hleft : ((Code.conditionSize (Code.branches p (p' :: ps)) : Int) - b.condition.size) =
        Code.conditionSize (Code.branches p' ps) := by
      simp [Code.branches, Code.conditionSize, hcond]
    have hleft' : ((Code.bodySize (Code.branches p (p' :: ps)) : Int) - b.body.size) =
        Code.bodySize (Code.branches p' ps) := by
      simp [Code.branches, Code.bodySize, hbody]
    rw [writeConditions]
    simp only [hleft, hleft']
    rw [hnext]
    simp [Code.branches, Code.conditionsCode, hb.1, branchCount_branches, hlen]

/-- One round of the backward loop; `before` are the branches it still has to write. -/
theorem writeBodies_step {numElseIns : Int} {hasElse : Bool} {b : Branch} {p : Code × Code}
    {before : List Branch} {beforeIns : Int} {after : Nat} {jumps : Bool} (tape : Tape)
    (hb : HoldBranch b p) (hjumps : jumps = decide (0 < before.length ∨ hasElse = true))
    (hafter : (after : Int) =
      numElseIns + beforeIns + before.length + (if jumps then 0 else 1)) :
    ∃ tape', writeBodies numElseIns hasElse (b :: before) (p.2.size + beforeIns) tape =
        writeBodies numElseIns hasElse before beforeIns tape' ∧
      tape'.ins = tape.ins ++ Code.bodyCode p.2 after jumps := by
  have hleft : ((p.2.size : Int) + beforeIns - b.body.size) = beforeIns := by
    rw [hb.sizes.2]
    omega
  rw [writeBodies]
  simp only [hleft]
  refine ⟨_, rfl, ?_⟩
  by_cases hj : 0 < before.length ∨ hasElse = true
  · have htrue : jumps = true := by rw [hjumps, decide_eq_true hj]
    have hval : numElseIns + beforeIns + before.length = after := by
      rw [hafter, htrue]
      simp
    rw [if_pos hj, hval]
    simp [Code.bodyCode, htrue, hb.2]
  · have hfalse : jumps = false := by rw [hjumps, decide_eq_false hj]
    rw [if_neg hj]
    simp [Code.bodyCode, hfalse, hb.2]

theorem writeBodies_ins {numElseIns : Int} {hasElse : Bool} {bs : List Branch}
    {ps : List (Code × Code)} (hold : List.Forall₂ HoldBranch bs ps) :
    ∀ {b : Branch} {p : Code × Code} {before : List Branch} {beforeIns : Int} {after : Nat}
      {jumps : Bool} (tape : Tape),
      HoldBranch b p →
      jumps = decide (0 < before.length ∨ hasElse = true) →
      (after : Int) = numElseIns + beforeIns + before.length + (if jumps then 0 else 1) →
      ∃ tape', writeBodies numElseIns hasElse ((b :: bs).reverse ++ before)
          (Code.bodySize (Code.branches p ps) + beforeIns) tape =
          writeBodies numElseIns hasElse before beforeIns tape' ∧
        tape'.ins = tape.ins ++ Code.bodiesCode (Code.branches p ps) after jumps := by
  induction hold with
  | nil =>
    intro b p before beforeIns after jumps tape hb hjumps hafter
    exact writeBodies_step tape hb hjumps hafter
  | @cons b' p' bs ps hb' hold ih =>
    intro b p before beforeIns after jumps tape hb hjumps hafter
    obtain ⟨tape₁, hrun₁, hins₁⟩ := @ih b' p' (b :: before) (p.2.size + beforeIns)
      (p.2.size + jumps.toNat + after) true tape hb' (by simp) (by
        cases jumps <;> simp at hafter ⊢ <;> omega)
    obtain ⟨tape₂, hrun₂, hins₂⟩ := writeBodies_step tape₁ hb hjumps hafter
    refine ⟨tape₂, ?_, ?_⟩
    · have hlist : (b :: b' :: bs).reverse ++ before = (b' :: bs).reverse ++ b :: before := by simp
      have hcount : (Code.bodySize (Code.branches p (p' :: ps)) : Int) + beforeIns =
          Code.bodySize (Code.branches p' ps) + (p.2.size + beforeIns) := by
        simp only [Code.branches, Code.bodySize]
        push_cast
        omega
      rw [hlist, hcount, hrun₁, hrun₂]
    · rw [hins₂, hins₁]
      simp [Code.branches, Code.bodiesCode]

/-- `produce_if_else` without an else part. -/
theorem generates_ifThen {b : Branch} {p : Code × Code} {bs : List Branch}
    {ps : List (Code × Code)} (hb : HoldBranch b p) (hold : List.Forall₂ HoldBranch bs ps) :
    Generates (produceBranches (b :: bs) (Code.conditionSize (Code.branches p ps))
      (Code.bodySize (Code.branches p ps)) none) (.ifThen (Code.branches p ps)) := by
  intro tape n tape' h
  have hlen : bs.length = ps.length := hold.length_eq
  have hcount := branchCount_branches p ps
  have hsize := Code.length_emitBranches (Code.branches p ps) 0 0 false
  have hconds := @writeConditions_ins (Code.bodySize (Code.branches p ps)) ((b :: bs).length)
    false bs ps hold b p 0 false tape hb (by
      simp [hcount, hlen])
  simp only [produceBranches, Option.isSome_none, Option.some.injEq, Prod.mk.injEq] at h
  obtain ⟨rfl, rfl⟩ := h
  obtain ⟨tape₁, hrun, hins⟩ := @writeBodies_ins (-1) false bs ps hold b p [] 0 0 false
    (writeConditions (Code.bodySize (Code.branches p ps)) ((b :: bs).length) false (b :: bs)
      (Code.conditionSize (Code.branches p ps)) (Code.bodySize (Code.branches p ps)) tape)
    hb (by simp) (by simp)
  rw [List.append_nil, Int.add_zero] at hrun
  constructor
  · rw [Code.length_code]
    change _ = (((Code.emitBranches (Code.branches p ps) 0 0 false).length : Nat) : Int)
    simp only [List.length_cons, hlen, Bool.toNat_false] at hcount hsize ⊢
    push_cast
    omega
  · rw [hrun, writeBodies, hins, hconds, Code.code_ifThen, List.append_assoc]

theorem generates_ifElse {b : Branch} {p : Code × Code} {bs : List Branch}
    {ps : List (Code × Code)} {e : Tape} {otherwise : Code} (hb : HoldBranch b p)
    (hold : List.Forall₂ HoldBranch bs ps) (he : e.ins = otherwise.code) :
    Generates (produceBranches (b :: bs) (Code.conditionSize (Code.branches p ps))
      (Code.bodySize (Code.branches p ps)) (some (otherwise.size, e)))
      (.ifElse (Code.branches p ps) otherwise) := by
  intro tape n tape' h
  have hlen : bs.length = ps.length := hold.length_eq
  have hcount := branchCount_branches p ps
  have hsize := Code.length_emitBranches (Code.branches p ps) 0 otherwise.size true
  have hconds := @writeConditions_ins (Code.bodySize (Code.branches p ps)) ((b :: bs).length)
    true bs ps hold b p 0 true tape hb (by
      simp [hcount, hlen])
  simp only [produceBranches, Option.isSome_some, Option.some.injEq, Prod.mk.injEq] at h
  obtain ⟨rfl, rfl⟩ := h
  obtain ⟨tape₁, hrun, hins⟩ := @writeBodies_ins otherwise.size true bs ps hold b p [] 0
    otherwise.size true
    (writeConditions (Code.bodySize (Code.branches p ps)) ((b :: bs).length) true (b :: bs)
      (Code.conditionSize (Code.branches p ps)) (Code.bodySize (Code.branches p ps)) tape)
    hb (by simp) (by simp)
  rw [List.append_nil, Int.add_zero] at hrun
  constructor
  · rw [Code.length_code]
    change _ = (((Code.emitBranches (Code.branches p ps) 0 otherwise.size true ++
      otherwise.emit).length : Nat) : Int)
    rw [List.length_append]
    simp only [List.length_cons, hlen, Bool.toNat_true] at hcount hsize ⊢
    simp only [Code.size] at hsize ⊢
    push_cast
    omega
  · rw [Tape.append_ins, hrun, writeBodies, hins, hconds, he, Code.code_ifElse]
    simp only [List.append_assoc]

/-! ## All trees -/

theorem Generates.create {p : Producer} {c : Code} (hp : Generates p c) {n : Int} {tape : Tape}
    (h : p Tape.create = some (n, tape)) : n = (c.size : Int) ∧ tape.ins = c.code := by
  obtain ⟨hn, hins⟩ := Emits.create hp h
  rw [Code.length_code] at hn
  exact ⟨hn, hins⟩

theorem generates_identifier (id : Token) :
    Generates (produceIdentifier id) (lowerIdentifier id) := by
  unfold produceIdentifier lowerIdentifier
  split
  · exact Generates.int .RES 1 id
  · split
    · exact Generates.op .RNIL id
    · exact Generates.token .RES id

theorem generates_argument (arg : Argument) :
    Generates (produceArgument arg) (lowerArgument arg) := by
  unfold produceArgument lowerArgument
  split
  · exact ((Generates.op .PUSH _).add (Generates.text .RES selfName _)).add (Generates.token _ _)
  · exact Generates.token _ _

theorem generates_unary (token : Token) (type : UnaryType) :
    Generates (produceUnary token type) (lowerUnary type) := by
  cases type with
  | not => exact Generates.op .NOT token
  | notc => exact Generates.op .NOTC token
  | negate =>
    exact ((Generates.op .PUSH token).add (Generates.int .PUSH (-1) token)).add
      (Generates.op .MULT token)
  | await => exact Generates.op .WAIT token
  | const => exact Generates.fail _
  | unknown => exact Generates.fail _

theorem generates_neg (token : Token) : Generates (insNeg .RES token) (lowerNeg token) := by
  intro tape n tape' h
  unfold insNeg Tape.insNeg at h
  unfold lowerNeg
  generalize tokenToPrimitive token = prim at h ⊢
  rcases prim with _ | (_ | m | _)
  · cases h
  · cases h
  · cases h
    exact ⟨rfl, rfl⟩
  · cases h

/-- A producer that runs on a new tape of its own sees the count and the code of `c`. -/
theorem Emits.onNewTape {p : Producer} {c : Code} {k : Int → Tape → Producer}
    {is : List Instruction} (hp : Generates p c)
    (hk : ∀ tmp : Tape, tmp.ins = c.code → Emits (k c.size tmp) is) :
    Emits (onNewTape p k) is := by
  apply Emits.onTape
  intro n tmp h
  obtain ⟨rfl, hins⟩ := hp.create h
  exact hk tmp hins

theorem emits_append {c : Code} {tail : Tape} (htail : tail.ins = c.code) :
    Emits (append c.size tail) c.code :=
  Emits.append (by rw [Code.length_code]) htail

theorem emits_patch {c : Code} {tmp : Tape} (brk cont : Nat → Int) (htmp : tmp.ins = c.code) :
    Emits (append c.size (tmp.patch brk cont)) (c.code.mapIdx (patchIns brk cont)) :=
  Emits.append (by simp) (by rw [Tape.patch, htmp])

theorem generates_while {condition body : Producer} {c b : Code} (token : Token)
    (hc : Generates condition c) (hb : Generates body b) :
    Generates (withCount (insNoArg .NBLK token + condition) fun numIns =>
      onNewTape body fun linesForBody tmp =>
        insInt .IFN (linesForBody + 1) token +
          append linesForBody (tmp.patchWhile linesForBody) +
          insInt .JMP (-(numIns + (linesForBody + 1))) token + insNoArg .BBLK token)
      (.whileLoop c b) := by
  unfold Generates
  rw [Code.code_whileLoop]
  simp only [List.append_assoc]
  rw [← List.append_assoc]
  refine Emits.withCount ((Emits.insNoArg .NBLK token).add hc) (Emits.onNewTape hb fun tmp htmp => ?_)
  have hback : -(([(⟨.NBLK, .noArg⟩ : Instruction)] ++ c.code).length + (b.size + 1 : Int)) =
      -(1 + c.size + b.size + 1) := by
    simp
    omega
  rw [hback]
  simp only [← List.append_assoc]
  exact (((Emits.insInt _ _ _).add (emits_patch _ _ htmp)).add (Emits.insInt _ _ _)).add
    (Emits.insNoArg _ _)

theorem generates_for {init condition inc body : Producer} {i c n b : Code} (token : Token)
    (hi : Generates init i) (hc : Generates condition c) (hn : Generates inc n)
    (hb : Generates body b) :
    Generates (insNoArg .NBLK token + init +
      withCount condition fun conditionIns =>
        onNewTape body fun bodyIns tmp =>
          onTape inc tmp fun incIns tmp =>
            insInt .IFN (bodyIns + incIns + 1) token +
              append (bodyIns + incIns) (tmp.patchFor bodyIns incIns) +
              insInt .JMP (-(bodyIns + conditionIns + incIns + 1 + 1)) token +
              insNoArg .BBLK token) (.forLoop i c n b) := by
  unfold Generates
  rw [Code.code_forLoop]
  have hassoc : ∀ (x a b c d e f g : List Instruction), x ++ a ++ b ++ c ++ d ++ e ++ f =
      (x ++ a) ++ (b ++ (c ++ d ++ e ++ f)) := by
    intros
    simp
  rw [hassoc _ _ _ _ _ _ _ []]
  refine ((Emits.insNoArg .NBLK token).add hi).add (Emits.withCount hc ?_)
  refine Emits.onNewTape hb fun tmp htmp => Emits.onTape fun incIns tmp' hinc => ?_
  obtain ⟨hcount, hins⟩ := hn tmp incIns tmp' hinc
  rw [Code.length_code] at hcount
  rw [hcount, Code.length_code]
  rw [htmp] at hins
  refine (((Emits.insInt _ _ _).add (Emits.append ?_ ?_)).add (Emits.insInt _ _ _)).add
    (Emits.insNoArg _ _)
  · simp
  · rw [Tape.patchFor, Tape.patch, hins]

theorem generates_foreachBody {lhs body : Producer} {l b : Code} (forToken inToken : Token)
    (hl : Generates lhs l) (hb : Generates body b) :
    Generates (insNoArg .DUP forToken + insText .CALL nextFnName inToken + lhs + body)
      (Code.foreachBody l b) :=
  (((Generates.op _ _).add (Generates.text _ _ _)).add hl).add hb

theorem generates_foreach {iterable lhs body : Producer} {i l b : Code} (forToken inToken : Token)
    (hi : Generates iterable i) (hl : Generates lhs l) (hb : Generates body b) :
    Generates (insNoArg .NBLK forToken + iterable + insNoArg .PUSH inToken +
      insText .CALL iterFnName inToken + insNoArg .PUSH inToken +
      onNewTape (insNoArg .DUP forToken + insText .CALL nextFnName inToken + lhs + body)
        fun bodyIns tmp =>
          withCount (insNoArg .DUP inToken + insText .CALL hasNextFnName inToken +
              insInt .IFN (bodyIns + 1) inToken) fun incLines =>
            append bodyIns (tmp.patchForeach bodyIns) +
              insInt .JMP (-(incLines + bodyIns + 1)) inToken + insNoArg .RES inToken +
              insNoArg .BBLK forToken) (.foreachLoop i l b) := by
  have hregion := generates_foreachBody forToken inToken hl hb
  unfold Generates
  rw [Code.code_foreachLoop]
  have hassoc : ∀ (a b c d e f g h i j k l : List Instruction),
      a ++ b ++ c ++ d ++ e ++ f ++ g ++ h ++ i ++ j ++ k ++ l =
      (a ++ b ++ c ++ d ++ e) ++ ((f ++ g ++ h) ++ (i ++ j ++ k ++ l)) := by
    intros
    simp
  rw [hassoc]
  refine (((((Emits.insNoArg _ _).add hi).add (Emits.insNoArg _ _)).add
    (Emits.insText _ _ _)).add (Emits.insNoArg _ _)).add (Emits.onNewTape hregion fun tmp htmp => ?_)
  refine Emits.withCount (((Emits.insNoArg _ _).add (Emits.insText _ _ _)).add
    (Emits.insInt _ _ _)) ?_
  exact (((emits_patch _ _ htmp).add (Emits.insInt _ _ _)).add (Emits.insNoArg _ _)).add
    (Emits.insNoArg _ _)

theorem generates_try {tryBody handler assign : Producer} {t h a : Code} (tryToken catchToken : Token)
    (ht : Generates tryBody t) (hh : Generates handler h) (ha : Generates assign a) :
    Generates (onNewTape tryBody fun tryIns tryBodyTape =>
      onNewTape handler fun catchIns catchBodyTape =>
        onNewTape assign fun numAssign errorAssignTape =>
          insNoArg .NBLK tryToken + insInt .CTCH (tryIns + 1) catchToken +
            append tryIns tryBodyTape + insInt .JMP (catchIns + numAssign) catchToken +
            append numAssign errorAssignTape + append catchIns catchBodyTape +
            insNoArg .RNIL catchToken + insText .SET "$try_goto" catchToken +
            insNoArg .BBLK tryToken) (.tryCatch t a h) := by
  unfold Generates
  rw [Code.code_tryCatch]
  refine Emits.onNewTape ht fun _ htt => Emits.onNewTape hh fun _ hht =>
    Emits.onNewTape ha fun _ hat => ?_
  exact ((((((((Emits.insNoArg _ _).add (Emits.insInt _ _ _)).add (emits_append htt)).add
    (Emits.insInt _ _ _)).add (emits_append hat)).add (emits_append hht)).add
    (Emits.insNoArg _ _)).add (Emits.insText _ _ _)).add (Emits.insNoArg _ _)

theorem generates_func {p : Producer} {c : Code} (isAsync : Bool) (defToken : Token)
    (hp : Generates p c) :
    Generates (onNewTape p fun funcIns tmp =>
      insInt .JMP funcIns defToken + label (Tape.anonFnForToken defToken) isAsync +
        append funcIns tmp + insAnon .RES defToken)
      (.func c ++ idCode .RES (Tape.anonFnForToken defToken)) := by
  unfold Generates
  rw [Code.code_append, Code.code_func]
  refine Emits.onNewTape hp fun tmp htmp => ?_
  exact (((Emits.insInt _ _ _).add (Emits.label _ _)).add (emits_append htmp)).add
    (Emits.insText _ _ _)

theorem generates_defaultsChoice {defaults nonDefaults : Producer} {a b : Code} (token : Token)
    (ha : Generates defaults a) (hb : Generates nonDefaults b) :
    Generates (onNewTape defaults fun defaultsIns tmp =>
      onNewTape nonDefaults fun nondefaultsIns tmp' =>
        onTape (insInt .JMP nondefaultsIns token) tmp fun n tmp =>
          insInt .IFN (defaultsIns + n) token + append (defaultsIns + n) tmp +
            append nondefaultsIns tmp') (.choice .IFN a b) := by
  unfold Generates
  rw [Code.code_choice]
  refine Emits.onNewTape ha fun tmp htmp => Emits.onNewTape hb fun tmp' htmp' =>
    Emits.onTape fun n tmp'' hjump => ?_
  obtain ⟨rfl, hins⟩ := Emits.insInt .JMP _ _ tmp n tmp'' hjump
  rw [htmp] at hins
  have htail : (a.size + 1 : Int) = (tmp''.ins.length : Int) := by
    rw [hins, List.length_append, Code.length_code]
    rfl
  have h := ((Emits.insInt .IFN (a.size + 1) token).add (Emits.append htail rfl)).add
    (emits_append htmp')
  rw [hins] at h
  simpa [Test.op] using h

mutual

theorem generates_instructions : ∀ e : ExpressionTree, Generates (produceInstructions e) (lower e)
  | .identifier id => by
    rw [produceInstructions, lower]
    exact generates_identifier id
  | .constant token => by
    rw [produceInstructions, lower]
    exact Generates.token .RES token
  | .stringLiteral token => by
    rw [produceInstructions, lower]
    exact Generates.token .RES token
  | .tupleExpression token list => by
    rw [produceInstructions, lower]
    exact (generates_tuple token list).add (Generates.int _ _ _)
  | .arrayDeclaration token none => by
    rw [produceInstructions, lower]
    exact Generates.op .ANEW token
  | .arrayDeclaration token (some exp) => by
    have hexp := ((generates_instructions exp).add (Generates.op .PUSH token)).add
      (Generates.int .ANEW 1 token)
    cases exp with
    | tupleExpression tupleToken list =>
      rw [produceInstructions, lower]
      exact (generates_tuple tupleToken list).add (Generates.int _ _ _)
    | _ => rw [produceInstructions, lower] <;> first | exact hexp | simp
  | .mapDeclaration lbrce [] => by
    rw [produceInstructions, lower]
    exact ((Generates.text _ _ _).add (Generates.text _ _ _)).add Generates.zero
  | .mapDeclaration lbrce (entry :: rest) => by
    rw [produceInstructions, lower]
    exact ((Generates.text _ _ _).add (Generates.text _ _ _)).add
      (((Generates.op _ _).add ((generates_entry entry).add (generates_entries rest))).add
        (Generates.op _ _))
  | .primaryExpression exp => by
    rw [produceInstructions, lower]
    exact generates_instructions exp
  | .primaryExpressionNoConstants exp => by
    rw [produceInstructions, lower]
    exact generates_instructions exp
  | .postfixExpression base suffixes => by
    have hbase := generates_instructions base
    have hsuffixes := generates_postfixes suffixes
    rw [produceInstructions, lower]
    cases suffixes with
    | nil => exact hbase.add (Generates.fail _)
    | cons _ _ => exact hbase.add hsuffixes
  | .rangeExpression token start none stop => by
    rw [produceInstructions, lower]
    exact (((((((Generates.text _ _ _).add Generates.zero).add
      (generates_instructions stop)).add (Generates.op _ _)).add
      (generates_instructions start)).add (Generates.op _ _)).add
      (Generates.int _ _ _)).add (Generates.op _ _)
  | .rangeExpression token start (some inc) stop => by
    rw [produceInstructions, lower]
    exact (((((((Generates.text _ _ _).add
      ((generates_instructions inc).add (Generates.op _ _))).add
      (generates_instructions stop)).add (Generates.op _ _)).add
      (generates_instructions start)).add (Generates.op _ _)).add
      (Generates.int _ _ _)).add (Generates.op _ _)
  | .unaryExpression token type exp => by
    have hexp := (generates_instructions exp).add (generates_unary token type)
    cases type with
    | negate =>
      cases exp with
      | constant constantToken =>
        rw [produceInstructions, lower]
        exact generates_neg constantToken
      | _ => rw [produceInstructions, lower] <;> first | exact hexp | simp
    | _ => rw [produceInstructions, lower] <;> first | exact hexp | simp
  | .biExpression level exp suffixes => by
    rw [produceInstructions, lower]
    exact (generates_instructions exp).add (generates_biSuffixes suffixes)
  | .andExpression exp suffixes => by
    rw [produceInstructions, lower]
    refine (generates_instructions exp).add (Emits.given fun (suffixIns, bodies) h => ?_)
    obtain ⟨rfl, hold⟩ := holds_suffixes suffixes (suffixIns, bodies) h
    exact generates_chain .IFN hold
  | .orExpression exp suffixes => by
    rw [produceInstructions, lower]
    refine (generates_instructions exp).add (Emits.given fun (suffixIns, bodies) h => ?_)
    obtain ⟨rfl, hold⟩ := holds_suffixes suffixes (suffixIns, bodies) h
    exact generates_chain .IF hold
  | .inExpression token isNot element collection => by
    rw [produceInstructions, lower]
    refine ((((generates_instructions collection).add (Generates.op _ _)).add
      (generates_instructions element)).add (Generates.text _ _ _)).add ?_
    cases isNot with
    | false => exact Generates.zero
    | true => exact Generates.op .NOT token
  | .isExpression token exp type => by
    rw [produceInstructions, lower]
    exact ((((generates_instructions exp).add (Generates.op _ _)).add
      (generates_instructions type)).add (Generates.op _ _)).add (Generates.op _ _)
  | .conditionalExpression ifElse => by
    rw [produceInstructions, lower]
    exact generates_ifElse_tree ifElse
  | .anonFunctionDefinition func => by
    rw [produceInstructions, lower]
    exact generates_anonFunction func
  | .assignmentExpression eqToken assignment rhs => by
    rw [produceInstructions, lower]
    exact (generates_instructions rhs).add (generates_assignment eqToken assignment)
  | .foreachStatement forToken inToken assignmentLhs iterable body => by
    rw [produceInstructions, lower]
    exact generates_foreach forToken inToken (generates_instructions iterable)
      (generates_assignment inToken assignmentLhs) (generates_instructions body)
  | .forStatement forToken init condition inc body => by
    rw [produceInstructions, lower]
    exact generates_for forToken (generates_instructions init) (generates_instructions condition)
      (generates_instructions inc) (generates_instructions body)
  | .whileStatement whileToken condition body => by
    rw [produceInstructions, lower]
    exact generates_while whileToken (generates_instructions condition)
      (generates_instructions body)
  | .compoundStatement expressions => by
    rw [produceInstructions, lower]
    exact generates_statements expressions
  | .tryStatement tryToken catchToken tryBody errorAssignmentLhs catchBody => by
    rw [produceInstructions, lower]
    exact generates_try tryToken catchToken (generates_instructions tryBody)
      (generates_instructions catchBody) (generates_assignment catchToken errorAssignmentLhs)
  | .raiseStatement raiseToken exp => by
    rw [produceInstructions, lower]
    exact (generates_instructions exp).add (Generates.op _ _)
  | .selectionStatement ifElse => by
    rw [produceInstructions, lower]
    exact generates_ifElse_tree ifElse
  | .jumpStatement returnToken none => by
    rw [produceInstructions, lower]
    exact Generates.zero.add (Generates.op _ _)
  | .jumpStatement returnToken (some exp) => by
    rw [produceInstructions, lower]
    exact (generates_instructions exp).add (Generates.op _ _)
  | .breakStatement token type => by
    rw [produceInstructions, lower]
    exact Emits.insInt _ _ _
  | .exitStatement token => by
    rw [produceInstructions, lower]
    exact Generates.op .EXIT token

theorem generates_tuple (token : Token) : ∀ list : List ExpressionTree,
    Generates (tupleExpressionHelper token list) (lowerTuple list)
  | [] => by
    rw [tupleExpressionHelper, lowerTuple]
    exact Generates.zero
  | elt :: rest => by
    rw [tupleExpressionHelper, lowerTuple]
    exact ((generates_tuple token rest).add (generates_instructions elt)).add (Generates.op _ _)

theorem generates_statements : ∀ trees : List ExpressionTree,
    Generates (produceStatements trees) (lowerStatements trees)
  | [] => by
    rw [produceStatements, lowerStatements]
    exact Generates.zero
  | tree :: rest => by
    rw [produceStatements, lowerStatements]
    exact (generates_instructions tree).add (generates_statements rest)

theorem generates_entry : ∀ entry : MapDecEntry,
    Generates (produceEntry entry) (lowerEntry entry)
  | ⟨colon, lhs, rhs⟩ => by
    rw [produceEntry, lowerEntry]
    exact ((((((Generates.op _ _).add (generates_instructions rhs)).add (Generates.op _ _)).add
      (generates_instructions lhs)).add (Generates.op _ _)).add (Generates.int _ _ _)).add
      (Generates.text _ _ _)

theorem generates_entries : ∀ entries : List MapDecEntry,
    Generates (produceEntries entries) (lowerEntries entries)
  | [] => by
    rw [produceEntries, lowerEntries]
    exact Generates.zero
  | entry :: rest => by
    rw [produceEntries, lowerEntries]
    exact (generates_entry entry).add (generates_entries rest)

theorem generates_callArgs : ∀ (exp : Option ExpressionTree) {call : Op → Producer}
    {callCode : Op → Code}, (∀ op, Generates (call op) (callCode op)) →
      Generates (produceCallArgs exp call) (lowerCallArgs exp callCode)
  | none, call, callCode, hcall => by
    rw [produceCallArgs, lowerCallArgs]
    exact hcall .CLLN
  | some exp, call, callCode, hcall => by
    rw [produceCallArgs, lowerCallArgs]
    exact (generates_instructions exp).add (hcall .CALL)

theorem generates_postfixes : ∀ suffixes : List Postfix,
    Generates (producePostfixes suffixes) (lowerPostfixes suffixes)
  | [] => by
    rw [producePostfixes, lowerPostfixes]
    exact Generates.zero
  | .fncall token exp :: rest => by
    rw [producePostfixes, lowerPostfixes]
    exact ((Generates.op _ _).add
      (generates_callArgs exp (fun op => Generates.op op token))).add (generates_postfixes rest)
  | .arrayIndex token exp :: rest => by
    rw [producePostfixes, lowerPostfixes]
    exact (((Generates.op _ _).add (generates_instructions exp)).add (Generates.op _ _)).add
      (generates_postfixes rest)
  | .field token id :: [] => by
    have hget := (Generates.token .GET id).add (generates_postfixes [])
    rw [producePostfixes, lowerPostfixes] <;> first | exact hget | simp
  | .field token id :: suffix :: rest => by
    have hget := (Generates.token .GET id).add (generates_postfixes (suffix :: rest))
    have hrest := generates_postfixes rest
    cases suffix with
    | fncall _ exp =>
      rw [producePostfixes, lowerPostfixes]
      exact ((Generates.op _ _).add
        (generates_callArgs exp (fun op => Generates.token op id))).add hrest
    | _ => rw [producePostfixes, lowerPostfixes] <;> first | exact hget | simp
  | .increment _ :: rest => by
    rw [producePostfixes, lowerPostfixes]
    exact generates_postfixes rest
  | .decrement _ :: rest => by
    rw [producePostfixes, lowerPostfixes]
    exact generates_postfixes rest
  | .none _ :: rest => by
    rw [producePostfixes, lowerPostfixes]
    exact Generates.fail _

theorem generates_biSuffixes : ∀ suffixes : List BiSuffix,
    Generates (produceBiSuffixes suffixes) (lowerBiSuffixes suffixes)
  | [] => by
    rw [produceBiSuffixes, lowerBiSuffixes]
    exact Generates.zero
  | ⟨token, type, exp⟩ :: rest => by
    rw [produceBiSuffixes, lowerBiSuffixes]
    cases biToIns type with
    | none => exact Generates.fail _
    | some op =>
      exact ((((Generates.op _ _).add (generates_instructions exp)).add (Generates.op _ _)).add
        (Generates.op _ _)).add (generates_biSuffixes rest)

theorem holds_suffixes : ∀ (suffixes : List BiSuffix) (bodies : Int × List (Token × Tape)),
    produceSuffixTapes suffixes = some bodies →
      bodies.1 = ((lowerSuffixes suffixes).map Code.size).sum ∧
        HoldSuffixes bodies.2 (lowerSuffixes suffixes)
  | [], bodies, h => by
    rw [produceSuffixTapes] at h
    cases h
    exact ⟨rfl, List.Forall₂.nil⟩
  | ⟨token, type, exp⟩ :: rest, bodies, h => by
    have hexp := generates_instructions exp
    rw [produceSuffixTapes] at h
    cases hrun : produceInstructions exp Tape.create with
    | none => simp [hrun] at h
    | some r =>
      obtain ⟨n, tape⟩ := r
      cases hrest : produceSuffixTapes rest with
      | none => simp [hrun, hrest] at h
      | some r =>
        obtain ⟨m, tapes⟩ := r
        simp only [hrun, hrest, Option.some.injEq] at h
        obtain ⟨hn, hins⟩ := hexp.create hrun
        obtain ⟨hm, hold⟩ := holds_suffixes rest (m, tapes) hrest
        subst h
        rw [lowerSuffixes]
        refine ⟨?_, List.Forall₂.cons hins hold⟩
        rw [List.map_cons, List.sum_cons, hn, Nat.cast_add]
        exact congrArg (_ + ·) hm

theorem holds_conditional : ∀ (cond : Conditional) (r : Int × Int × Branch),
    produceConditional cond = some r →
      r.1 = (lowerConditional cond).1.size ∧ r.2.1 = (lowerConditional cond).2.size ∧
        HoldBranch r.2.2 (lowerConditional cond)
  | ⟨ifToken, condition, body⟩, r, h => by
    have hcondition := generates_instructions condition
    have hbody := generates_instructions body
    rw [produceConditional] at h
    cases hc : produceInstructions condition Tape.create with
    | none => simp [hc] at h
    | some c =>
      cases hb : produceInstructions body Tape.create with
      | none => simp [hc, hb] at h
      | some b =>
        simp only [hc, hb, Option.some.injEq] at h
        subst h
        obtain ⟨hcn, hcins⟩ := hcondition.create hc
        obtain ⟨hbn, hbins⟩ := hbody.create hb
        rw [lowerConditional]
        exact ⟨hcn, hbn, hcins, hbins⟩

theorem holds_conditionals : ∀ (conds : List Conditional) (r : Int × Int × List Branch),
    produceConditionals conds = some r →
      r.1 = ((lowerConditionals conds).map (fun p => p.1.size)).sum ∧
        r.2.1 = ((lowerConditionals conds).map (fun p => p.2.size)).sum ∧
          List.Forall₂ HoldBranch r.2.2 (lowerConditionals conds)
  | [], r, h => by
    rw [produceConditionals] at h
    cases h
    exact ⟨rfl, rfl, List.Forall₂.nil⟩
  | cond :: rest, r, h => by
    have hfirst := holds_conditional cond
    have hothers := holds_conditionals rest
    rw [produceConditionals] at h
    cases hc : produceConditional cond with
    | none => simp [hc] at h
    | some c =>
      cases hr : produceConditionals rest with
      | none => simp [hc, hr] at h
      | some cs =>
        simp only [hc, hr, Option.some.injEq] at h
        subst h
        obtain ⟨hcn, hbn, hbranch⟩ := hfirst c hc
        obtain ⟨hcs, hbs, hold⟩ := hothers cs hr
        rw [lowerConditionals]
        refine ⟨?_, ?_, List.Forall₂.cons hbranch hold⟩
        · simp [hcn, hcs]
        · simp [hbn, hbs]

theorem generates_ifElse_tree : ∀ ifElse : IfElse,
    Generates (produceIfElse ifElse) (lowerIfElse ifElse)
  | ⟨first, rest, none⟩ => by
    rw [produceIfElse, lowerIfElse]
    refine Emits.given fun (c, b, branch) hr => Emits.given fun (cs, bs, branches) hrs => ?_
    obtain ⟨rfl, rfl, hbranch⟩ := holds_conditional first (c, b, branch) hr
    obtain ⟨rfl, rfl, hold⟩ := holds_conditionals rest (cs, bs, branches) hrs
    have hgen := generates_ifThen hbranch hold
    rw [conditionSize_branches, bodySize_branches, Nat.cast_add, Nat.cast_add] at hgen
    exact hgen
  | ⟨first, rest, some e⟩ => by
    rw [produceIfElse, lowerIfElse]
    refine Emits.given fun (c, b, branch) hr => Emits.given fun (cs, bs, branches) hrs => ?_
    obtain ⟨rfl, rfl, hbranch⟩ := holds_conditional first (c, b, branch) hr
    obtain ⟨rfl, rfl, hold⟩ := holds_conditionals rest (cs, bs, branches) hrs
    refine Emits.onNewTape (generates_instructions e) fun tmp htmp => ?_
    have hgen := generates_ifElse hbranch hold htmp
    rw [conditionSize_branches, bodySize_branches, Nat.cast_add, Nat.cast_add] at hgen
    exact hgen

theorem generates_tupleArgument (token : Token) (i : Nat) (isLast : Bool) : ∀ arg : Argument,
    Generates (produceTupleArgument token i isLast arg) (lowerTupleArgument i isLast arg)
  | ⟨isConst, isField, argName, some value⟩ => by
    rw [produceTupleArgument, lowerTupleArgument]
    refine (((Generates.op _ _).add (Generates.int _ _ _)).add
      (Emits.onNewTape (generates_instructions value) fun tmp htmp => ?_)).add
      (generates_argument _)
    rw [Code.code_choice]
    have h := ((((Emits.insInt .IFN 3 argName).add
      (Emits.insNoArg (if isLast then .RES else .PEEK) argName)).add
      (Emits.insInt .TGET i argName)).add (Emits.insInt .JMP (lower value).size argName)).add
      (emits_append htmp)
    simpa [opCode, intCode, Code.size, Code.emit, Test.op] using h
  | ⟨isConst, isField, argName, none⟩ => by
    rw [produceTupleArgument, lowerTupleArgument]
    refine (Generates.add ?_ (Generates.int _ _ _)).add (generates_argument _)
    cases isLast with
    | false => exact Generates.op _ _
    | true => exact Generates.op _ _

theorem generates_allArguments (token : Token) : ∀ (i : Nat) (args : List Argument),
    Generates (produceAllArguments token i args) (lowerAllArguments i args)
  | i, [] => by
    rw [produceAllArguments, lowerAllArguments]
    exact Generates.zero
  | i, arg :: rest => by
    rw [produceAllArguments, lowerAllArguments]
    exact (generates_tupleArgument token i _ arg).add (generates_allArguments token (i + 1) rest)

theorem generates_default : ∀ arg : Argument,
    Generates (produceDefault arg) (lowerDefault arg)
  | ⟨isConst, isField, argName, some value⟩ => by
    rw [produceDefault, lowerDefault]
    exact (generates_instructions value).add (generates_argument _)
  | ⟨isConst, isField, argName, none⟩ => by
    rw [produceDefault, lowerDefault]
    exact (Generates.op _ _).add (generates_argument _)

theorem generates_defaults : ∀ args : List Argument,
    Generates (produceDefaults args) (lowerDefaults args)
  | [] => by
    rw [produceDefaults, lowerDefaults]
    exact Generates.zero
  | arg :: rest => by
    rw [produceDefaults, lowerDefaults]
    exact (generates_default arg).add (generates_defaults rest)

theorem generates_onlyArgument : ∀ arg : Argument,
    Generates (produceOnlyArgument arg) (lowerOnlyArgument arg)
  | ⟨isConst, isField, argName, some value⟩ => by
    rw [produceOnlyArgument, lowerOnlyArgument]
    refine Generates.add ?_ (generates_argument _)
    refine Emits.onNewTape (generates_instructions value) fun tmp htmp => ?_
    have h := (((((((Emits.insNoArg .PUSH argName).add (Emits.insInt .TGTE 1 argName)).add
      (Emits.insInt .IF ((lower value).size + 1) argName)).add (emits_append htmp)).add
      (Emits.insInt .JMP 1 argName)).add (Emits.insNoArg .RES argName)).add
      (Emits.insInt .TGET 0 argName))
    simp only [Code.code_append, Code.code_choice]
    simpa [opCode, intCode, Code.size, Code.emit, Test.op] using h
  | ⟨isConst, isField, argName, none⟩ => by
    rw [produceOnlyArgument, lowerOnlyArgument]
    exact generates_argument _

theorem generates_arguments : ∀ args : Arguments,
    Generates (produceArguments args) (lowerArguments args)
  | ⟨token, first, []⟩ => by
    rw [produceArguments, lowerArguments]
    exact generates_onlyArgument first
  | ⟨token, first, second :: rest⟩ => by
    have hdefaults := ((Generates.op .RES first.argName).add (generates_argument first)).add
      (generates_defaults (second :: rest))
    have hnonDefaults := (generates_tupleArgument token 0 (second :: rest).isEmpty first).add
      (generates_allArguments token 1 (second :: rest))
    have hchoice := generates_defaultsChoice first.argName hdefaults hnonDefaults
    have hall := (((((Generates.op .PUSH token).add (Generates.op .TLEN first.argName)).add
      (Generates.op .PUSH first.argName)).add (Generates.int .PUSH (-1) first.argName)).add
      (Generates.op .EQ first.argName)).add hchoice
    rw [produceArguments, lowerArguments] <;> first | exact hall | simp

theorem generates_anonFunction : ∀ func : FunctionDef,
    Generates (produceAnonFunction func) (lowerAnonFunction func)
  | ⟨defToken, _, _, isAsync, some args, body⟩ => by
    rw [produceAnonFunction, lowerAnonFunction]
    exact generates_func isAsync defToken
      (((generates_arguments args).add (generates_instructions body)).add (Generates.op _ _))
  | ⟨defToken, _, _, isAsync, none, body⟩ => by
    rw [produceAnonFunction, lowerAnonFunction]
    exact generates_func isAsync defToken ((generates_instructions body).add (Generates.op _ _))

theorem generates_assignment (eqToken : Token) : ∀ assignment : Assignment,
    Generates (produceAssignment eqToken assignment) (lowerAssignment assignment)
  | .var isConst var => by
    rw [produceAssignment, lowerAssignment]
    exact Generates.token _ _
  | .complex prefixExp suffixes => by
    rw [produceAssignment, lowerAssignment]
    exact ((Generates.op _ _).add (generates_instructions prefixExp)).add
      (generates_setSuffixes suffixes)
  | .multi _ subargs => by
    rw [produceAssignment, lowerAssignment]
    exact (Generates.op _ _).add (generates_subargs eqToken subargs.length 0 subargs)

theorem generates_setSuffixes : ∀ suffixes : List Postfix,
    Generates (produceSetSuffixes suffixes) (lowerSetSuffixes suffixes)
  | [] => by
    rw [produceSetSuffixes]
    exact Generates.fail _
  | .fncall token exp :: rest => by
    have hrest := generates_setSuffixes rest
    rw [produceSetSuffixes, lowerSetSuffixes]
    split
    · exact Generates.fail _
    · exact ((Generates.op _ _).add
        (generates_callArgs exp (fun op => Generates.op op token))).add hrest
  | .arrayIndex token exp :: rest => by
    have hrest := generates_setSuffixes rest
    rw [produceSetSuffixes, lowerSetSuffixes]
    refine ((Generates.op _ _).add (generates_instructions exp)).add ?_
    split
    · exact Generates.op _ _
    · exact (Generates.op _ _).add hrest
  | .field token id :: [] => by
    rw [produceSetSuffixes, lowerSetSuffixes]
    exact Generates.token _ _
  | .field token id :: [suffix] => by
    have hget := (Generates.token .GET id).add (generates_setSuffixes [suffix])
    cases suffix <;> rw [produceSetSuffixes, lowerSetSuffixes] <;> first | exact hget | simp
  | .field token id :: suffix :: next :: rest => by
    have hget := (Generates.token .GET id).add (generates_setSuffixes (suffix :: next :: rest))
    have hrest := generates_setSuffixes (next :: rest)
    cases suffix with
    | fncall _ exp =>
      rw [produceSetSuffixes, lowerSetSuffixes]
      exact ((Generates.op _ _).add
        (generates_callArgs exp (fun op => Generates.token op id))).add hrest
    | _ => rw [produceSetSuffixes, lowerSetSuffixes] <;> first | exact hget | simp
  | .increment _ :: rest => by
    have hrest := generates_setSuffixes rest
    rw [produceSetSuffixes, lowerSetSuffixes]
    split
    · exact Generates.fail _
    · exact hrest
  | .decrement _ :: rest => by
    have hrest := generates_setSuffixes rest
    rw [produceSetSuffixes, lowerSetSuffixes]
    split
    · exact Generates.fail _
    · exact hrest
  | .none _ :: rest => by
    rw [produceSetSuffixes]
    exact Generates.fail _

theorem generates_subargs (eqToken : Token) (len : Nat) : ∀ (i : Nat) (subargs : List Assignment),
    Generates (produceSubargs eqToken len i subargs) (lowerSubargs len i subargs)
  | i, [] => by
    rw [produceSubargs, lowerSubargs]
    exact Generates.zero
  | i, assign :: rest => by
    rw [produceSubargs, lowerSubargs]
    exact (((((Generates.op _ _).add (Generates.op _ _)).add (Generates.int _ _ _)).add
      (Generates.op _ _)).add (generates_assignment eqToken assign)).add
      (generates_subargs eqToken len (i + 1) rest)

end

end JeffVm
