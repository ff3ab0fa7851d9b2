import JeffVm.BlockBalance

/-!
# Operand stack discipline

With single assignment targets, what a statement or an expression pushes it pops again. The
exception is a jump that the patch loop of an outer loop takes for its own `break`: it leaves
the iterator of an inner `foreach` on the stack.
-/

set_option autoImplicit false

namespace JeffVm

/-- The height of the operand stack. -/
def heightWeight : Weight where
  gain ins := ins.leaves - ins.takes
  need ins := ins.takes
  block := 0
  value := 1
  newBlock := ⟨rfl, rfl⟩
  backBlock := ⟨rfl, rfl⟩
  jump := by
    intro op n hjump hop
    cases op <;> first | exact ⟨rfl, rfl⟩ | cases hjump
  setCatch := fun _ => ⟨rfl, rfl⟩
  nil := ⟨rfl, rfl⟩
  set := fun _ => ⟨rfl, rfl⟩
  push := ⟨rfl, rfl⟩
  dup := ⟨rfl, rfl⟩
  call := fun _ => ⟨rfl, rfl⟩
  res := ⟨rfl, rfl⟩

/-! ## Single targets -/

/-- The suffixes of a target: fields, calls and indices, of which the last is no call. -/
def endsInTarget : List Postfix → Bool
  | [] => false
  | [.field _ _] => true
  | [.arrayIndex _ _] => true
  | .field _ _ :: rest => endsInTarget rest
  | .fncall _ _ :: rest => endsInTarget rest
  | .arrayIndex _ _ :: rest => endsInTarget rest
  | _ => false

/-- The target is a variable, a field or an indexed element. -/
def Assignment.isSingle : Assignment → Bool
  | .var _ _ => true
  | .complex _ suffixes => endsInTarget suffixes
  | .multi _ _ => false

/-- The targets that a tree assigns to by itself. -/
def ExpressionTree.targets : ExpressionTree → List Assignment
  | assignmentExpression _ assignment _ => [assignment]
  | foreachStatement _ _ assignmentLhs _ _ => [assignmentLhs]
  | tryStatement _ _ _ errorAssignmentLhs _ => [errorAssignmentLhs]
  | _ => []

/-- No part of the tree assigns to several targets at once. -/
inductive SingleTargets : ExpressionTree → Prop where
  | intro {e : ExpressionTree} (targets : ∀ a ∈ e.targets, a.isSingle = true)
      (parts : ∀ part ∈ e.parts, SingleTargets part) : SingleTargets e

/-! ## Flat code -/

namespace Code

section

variable {W : Weight} {l : Int}

@[simp] theorem net_append (a b : Code) : (a ++ b).net W = a.net W + b.net W := by
  simp only [HAppend.hAppend, Append.append]
  rw [net]

@[simp] theorem hasLevel_append (a b : Code) :
    (a ++ b).HasLevel W l ↔ a.HasLevel W l ∧ b.HasLevel W (l + a.net W) := by
  simp only [HAppend.hAppend, Append.append]
  rw [HasLevel]

@[simp] theorem net_nil : nil.net W = 0 := rfl
@[simp] theorem net_plain (ins : Instruction) : (plain ins).net W = W.gain ins := rfl
@[simp] theorem hasLevel_nil : nil.HasLevel W l ↔ 0 ≤ l := Iff.rfl
@[simp] theorem hasLevel_plain (ins : Instruction) :
    (plain ins).HasLevel W l ↔ W.need ins ≤ l ∧ ins.isPlain = true := Iff.rfl

end

/-- The code leaves `n` more values on a stack on which it needs `m`. -/
structure Adds (m : Nat) (n : Int) (c : Code) : Prop where
  level : ∀ l : Int, m ≤ l → c.HasLevel heightWeight l
  net : c.net heightWeight = n

/-- The code leaves as many values as there were, whatever is on the stack. -/
def Flat (c : Code) : Prop := c.Adds 0 0

namespace Adds

variable {m m' : Nat} {n n' : Int} {a b : Code}

theorem nil : Adds 0 0 nil := ⟨fun _ hl => hl, rfl⟩

/-- One piece of code after another that leaves what it needs. -/
theorem seq (ha : Adds m n a) (hb : Adds m' n' b) (h : m' ≤ m + n) : Adds m (n + n') (a ++ b) where
  level := by
    intro l hl
    rw [hasLevel_append, ha.net]
    exact ⟨ha.level l hl, hb.level _ (by omega)⟩
  net := by rw [net_append, ha.net, hb.net]

/-- An instruction after code that leaves what it takes. -/
theorem ins (ha : Adds m n a) {ins : Instruction} (h : ins.takes ≤ m + n)
    (hplain : ins.isPlain = true) (hn : n' = n - ins.takes + ins.leaves) :
    Adds m n' (a ++ plain ins) where
  level := by
    intro l hl
    rw [hasLevel_append, ha.net, hasLevel_plain]
    refine ⟨ha.level l hl, ?_, hplain⟩
    change (ins.takes : Int) ≤ l + n
    omega
  net := by
    rw [net_append, ha.net, net_plain, hn]
    change n + ((ins.leaves : Int) - ins.takes) = _
    omega

theorem push (ha : Adds m n a) (h : 0 ≤ m + n) : Adds m (n + 1) (a ++ opCode .PUSH) :=
  ha.ins h rfl (by simp [Instruction.takes, Instruction.leaves])

theorem one (ins : Instruction) (hplain : ins.isPlain = true) :
    Adds ins.takes (ins.leaves - ins.takes) (plain ins) :=
  ⟨fun _ hl => ⟨hl, hplain⟩, rfl⟩

theorem weaken (ha : Adds m n a) (h : m ≤ m') : Adds m' n a :=
  ⟨fun l hl => ha.level l (by omega), ha.net⟩

end Adds

end Code

theorem takes_argOfToken (token : Token) : (Instruction.takes ⟨.RES, Tape.argOfToken token⟩) = 0 := by
  unfold Tape.argOfToken
  split
  · rfl
  · split <;> rfl

theorem flat_res (token : Token) : (tokenCode .RES token).Flat := by
  have hone := Code.Adds.one ⟨.RES, Tape.argOfToken token⟩ rfl
  rw [takes_argOfToken] at hone
  exact hone

theorem flat_identifier (id : Token) : (lowerIdentifier id).Flat := by
  unfold lowerIdentifier
  split
  · exact .one ⟨.RES, .val (.int 1)⟩ rfl
  · split
    · exact .one ⟨.RNIL, .noArg⟩ rfl
    · exact flat_res id

theorem flat_unary (type : UnaryType) {c : Code} (h : c.Flat) : (c ++ lowerUnary type).Flat := by
  cases type with
  | not => exact h.ins (by decide) rfl rfl
  | notc => exact h.ins (by decide) rfl rfl
  | negate =>
    have hnegate : (opCode .PUSH ++ intCode .PUSH (-1) ++ opCode .MULT).Flat :=
      ((Code.Adds.one ⟨.PUSH, .noArg⟩ rfl).ins (by decide) rfl rfl).ins (by decide) rfl rfl
    exact h.seq hnegate (by decide)
  | await => exact h.ins (by decide) rfl rfl
  | const => exact h.seq .nil (by decide)
  | unknown => exact h.seq .nil (by decide)

theorem flat_neg (token : Token) : (lowerNeg token).Flat := by
  unfold lowerNeg
  split
  · exact .one ⟨.RES, .val (.int _)⟩ rfl
  · exact .nil

theorem flat_chain (test : Test) {cs : List Code} (h : ∀ c ∈ cs, c.Flat) :
    (Code.chain test cs).Flat := by
  induction cs with
  | nil => exact .nil
  | cons c cs ih =>
    have hbody : (c ++ Code.chain test cs).Flat :=
      (h c List.mem_cons_self).seq (ih fun c hc => h c (List.mem_cons_of_mem _ hc)) (by decide)
    exact ⟨fun l hl => ⟨hl, hbody.level l hl, hbody.net⟩, rfl⟩

theorem flat_branches {l : Int} (hl : 0 ≤ l) : ∀ {first : Code × Code} {rest : List (Code × Code)},
    (∀ q ∈ first :: rest, q.1.Flat ∧ q.2.Flat) →
      Code.HasLevelBranches heightWeight (Code.branches first rest) l
  | first, [], h => by
    obtain ⟨hc, hb⟩ := h first List.mem_cons_self
    exact ⟨hc.level l hl, hc.net, hb.level l hl, hb.net⟩
  | first, second :: rest, h => by
    obtain ⟨hc, hb⟩ := h first List.mem_cons_self
    exact ⟨hc.level l hl, hc.net, hb.level l hl, hb.net,
      flat_branches hl fun q hq => h q (List.mem_cons_of_mem _ hq)⟩

mutual

/-- The target is single, or a list of two or three targets that are so in turn. -/
def Assignment.isBalanced : Assignment → Bool
  | .var _ _ => true
  | .complex _ suffixes => endsInTarget suffixes
  | .multi _ subargs => (subargs.length == 2 || subargs.length == 3) && allBalanced subargs

def allBalanced : List Assignment → Bool
  | [] => true
  | target :: rest => target.isBalanced && allBalanced rest

end

/-- The lists of targets in a tree have two or three targets. -/
inductive BalancedTargets : ExpressionTree → Prop where
  | intro {e : ExpressionTree} (targets : ∀ a ∈ e.targets, a.isBalanced = true)
      (parts : ∀ part ∈ e.parts, BalancedTargets part) : BalancedTargets e

theorem BalancedTargets.target {e : ExpressionTree} (h : BalancedTargets e) :
    ∀ a ∈ e.targets, a.isBalanced = true := by
  cases h with
  | intro targets _ => exact targets

theorem BalancedTargets.part {e : ExpressionTree} (h : BalancedTargets e) :
    ∀ part ∈ e.parts, BalancedTargets part := by
  cases h with
  | intro _ parts => exact parts

theorem SingleTargets.balanced {e : ExpressionTree} (h : SingleTargets e) : BalancedTargets e := by
  induction h with
  | intro targets _ ih =>
    refine .intro (fun a ha => ?_) ih
    have hsingle := targets a ha
    cases a with
    | multi _ _ => cases hsingle
    | _ => exact hsingle

/-- The trees have only balanced targets. -/
def AllBalanced (trees : List ExpressionTree) : Prop := ∀ e ∈ trees, BalancedTargets e

namespace AllBalanced

variable {xs ys : List ExpressionTree} {e : ExpressionTree}

theorem head (h : AllBalanced (e :: xs)) : BalancedTargets e := h e List.mem_cons_self

theorem tail (h : AllBalanced (e :: xs)) : AllBalanced xs := fun d hd => h d (List.mem_cons_of_mem e hd)

theorem left (h : AllBalanced (xs ++ ys)) : AllBalanced xs :=
  fun d hd => h d (List.mem_append_left ys hd)

theorem right (h : AllBalanced (xs ++ ys)) : AllBalanced ys :=
  fun d hd => h d (List.mem_append_right xs hd)

end AllBalanced

/-- An instruction that collects the values of a tuple. -/
theorem flat_collect {op : Op} (hop : op = .TUPL ∨ op = .ANEW) {c : Code} {n : Nat}
    (h : c.Adds 0 n) : (c ++ intCode op n).Flat := by
  rcases hop with rfl | rfl
  · exact h.ins (by simp [Instruction.takes]) rfl (by simp [Instruction.takes, Instruction.leaves])
  · exact h.ins (by simp [Instruction.takes]) rfl (by simp [Instruction.takes, Instruction.leaves])

theorem flat_newMap : (idCode .PUSH "struct" ++ idCode .CLLN "Map").Flat :=
  (Code.Adds.one ⟨.PUSH, .id "struct"⟩ rfl).ins (by decide) rfl rfl

theorem flat_bi {type : BiType} {op : Op} (h : biToIns type = some op) :
    (Instruction.takes ⟨op, .noArg⟩) = 2 ∧ (Instruction.leaves ⟨op, .noArg⟩) = 0 := by
  cases type <;> cases h <;> exact ⟨rfl, rfl⟩

theorem adds_call (op : Op) (hop : op = .CALL ∨ op = .CLLN) : (opCode op).Adds 1 (-1) := by
  rcases hop with rfl | rfl
  · exact .one ⟨.CALL, .noArg⟩ rfl
  · exact .one ⟨.CLLN, .noArg⟩ rfl

theorem adds_callToken (id : Token) (op : Op) (hop : op = .CALL ∨ op = .CLLN) :
    (tokenCode op id).Adds 1 (-1) := by
  rcases hop with rfl | rfl
  · exact .one ⟨.CALL, _⟩ rfl
  · exact .one ⟨.CLLN, _⟩ rfl

theorem flat_get (id : Token) : (tokenCode .GET id).Flat := .one ⟨.GET, _⟩ rfl

theorem flat_func (body : Code) (id : String) : (Code.func body ++ idCode .RES id).Flat := by
  have hfunc : (Code.func body).Flat := ⟨fun _ hl => hl, rfl⟩
  have hres : (idCode .RES id).Flat := .one ⟨.RES, .id id⟩ rfl
  exact hfunc.seq hres (by decide)

theorem flat_anonFunction (func : FunctionDef) : (lowerAnonFunction func).Flat := by
  obtain ⟨defToken, fnName, specialMethod, isAsync, args, body⟩ := func
  cases args with
  | some args =>
    rw [lowerAnonFunction]
    exact flat_func _ _
  | none =>
    rw [lowerAnonFunction]
    exact flat_func _ _

/-- The reading of an element that does not pop the value. -/
theorem adds_peek (i : Int) {c : Code} (hc : c.Flat) :
    (opCode .PEEK ++ opCode .PUSH ++ intCode .RES i ++ opCode .AIDX ++ c).Adds 1 0 := by
  have hpush : (opCode .PEEK ++ opCode .PUSH).Adds 1 1 :=
    (Code.Adds.one ⟨.PEEK, .noArg⟩ rfl).push (by decide)
  have hindex : (opCode .PEEK ++ opCode .PUSH ++ intCode .RES i).Adds 1 1 :=
    hpush.ins (by simp [Instruction.takes]) rfl rfl
  have hread : (opCode .PEEK ++ opCode .PUSH ++ intCode .RES i ++ opCode .AIDX).Adds 1 0 :=
    hindex.ins (by decide) rfl rfl
  exact hread.seq hc (by decide)

/-- The reading of an element that pops the value. -/
theorem adds_pop (i : Int) {c : Code} (hc : c.Flat) :
    (opCode .RES ++ opCode .PUSH ++ intCode .RES i ++ opCode .AIDX ++ c).Adds 1 (-1) := by
  have hpush : (opCode .RES ++ opCode .PUSH).Adds 1 0 :=
    (Code.Adds.one ⟨.RES, .noArg⟩ rfl).push (by decide)
  have hindex : (opCode .RES ++ opCode .PUSH ++ intCode .RES i).Adds 1 0 :=
    hpush.ins (by simp [Instruction.takes]) rfl rfl
  have hread : (opCode .RES ++ opCode .PUSH ++ intCode .RES i ++ opCode .AIDX).Adds 1 (-1) :=
    hindex.ins (by decide) rfl rfl
  exact hread.seq hc (by decide)

/-- The value of two or three targets is popped once. -/
theorem flat_multi {subargs : List Assignment} (hfew : subargs.length = 2 ∨ subargs.length = 3)
    (hflat : ∀ target ∈ subargs, (lowerAssignment target).Flat) :
    (opCode .PUSH ++ lowerSubargs subargs.length 0 subargs).Flat := by
  have hpush : (opCode .PUSH).Adds 0 1 := .one ⟨.PUSH, .noArg⟩ rfl
  match subargs, hfew with
  | [a, b], _ =>
    have hb := (adds_pop 1 (hflat b (by simp))).seq .nil (by decide)
    have hab := (adds_peek 0 (hflat a (by simp))).seq hb (by decide)
    have hall := hpush.seq hab (by decide)
    simp only [lowerSubargs]
    exact hall
  | [a, b, c], _ =>
    have hc := (adds_pop 2 (hflat c (by simp))).seq .nil (by decide)
    have hbc := (adds_peek 1 (hflat b (by simp))).seq hc (by decide)
    have habc := (adds_peek 0 (hflat a (by simp))).seq hbc (by decide)
    have hall := hpush.seq habc (by decide)
    simp only [lowerSubargs]
    exact hall

mutual

theorem flat_lower : ∀ e : ExpressionTree, BalancedTargets e → (lower e).Flat
  | .identifier id, _ => by
    rw [lower]
    exact flat_identifier id
  | .constant token, _ => by
    rw [lower]
    exact flat_res token
  | .stringLiteral token, _ => by
    rw [lower]
    exact flat_res token
  | .tupleExpression _ list, h => by
    rw [lower]
    exact flat_collect (.inl rfl) (flat_tuple list h.part)
  | .arrayDeclaration _ none, _ => by
    rw [lower]
    exact .one ⟨.ANEW, .noArg⟩ rfl
  | .arrayDeclaration _ (some exp), h => by
    have hparts : AllBalanced [exp] := h.part
    have hexp := flat_lower exp hparts.head
    cases exp with
    | tupleExpression _ list =>
      rw [lower]
      exact flat_collect (.inr rfl) (flat_tuple list hparts.head.part)
    | _ =>
      rw [lower]
      · exact (hexp.ins (by decide) rfl rfl).ins (by decide) rfl rfl
      · simp
  | .mapDeclaration _ [], _ => by
    rw [lower]
    exact flat_newMap.seq .nil (by decide)
  | .mapDeclaration _ (entry :: rest), h => by
    have hparts : AllBalanced ([entry.lhs, entry.rhs] ++
        rest.flatMap fun entry => [entry.lhs, entry.rhs]) := h.part
    have hentries : (lowerEntry entry ++ lowerEntries rest).Adds 1 0 :=
      (flat_entry entry hparts.left).seq (flat_entries rest hparts.right) (by decide)
    have hset : (opCode .PUSH ++ (lowerEntry entry ++ lowerEntries rest) ++ opCode .RES).Flat :=
      ((Code.Adds.one ⟨.PUSH, .noArg⟩ rfl).seq hentries (by decide)).ins (by decide) rfl rfl
    rw [lower]
    exact flat_newMap.seq hset (by decide)
  | .primaryExpression exp, h => by
    have hparts : AllBalanced [exp] := h.part
    rw [lower]
    exact flat_lower exp hparts.head
  | .primaryExpressionNoConstants exp, h => by
    have hparts : AllBalanced [exp] := h.part
    rw [lower]
    exact flat_lower exp hparts.head
  | .postfixExpression base suffixes, h => by
    have hparts : AllBalanced (base :: suffixes.flatMap Postfix.parts) := h.part
    rw [lower]
    exact (flat_lower base hparts.head).seq (flat_postfixes suffixes hparts.tail) (by decide)
  | .rangeExpression _ start none stop, h => by
    have hparts : AllBalanced [start, stop] := h.part
    have hfn : (idCode .PUSH "range" ++ Code.nil).Adds 0 1 :=
      (Code.Adds.one ⟨.PUSH, .id "range"⟩ rfl).seq .nil (by decide)
    have hstop := (hfn.seq (flat_lower stop hparts.tail.head) (by decide)).push (by decide)
    have hstart := (hstop.seq (flat_lower start hparts.head) (by decide)).push (by decide)
    rw [lower]
    exact (hstart.ins (by decide) rfl rfl).ins (by decide) rfl rfl
  | .rangeExpression _ start (some inc) stop, h => by
    have hparts : AllBalanced [start, stop, inc] := h.part
    have hinc : (lower inc ++ opCode .PUSH).Adds 0 1 :=
      (flat_lower inc hparts.tail.tail.head).push (by decide)
    have hfn : (idCode .PUSH "range" ++ (lower inc ++ opCode .PUSH)).Adds 0 2 :=
      (Code.Adds.one ⟨.PUSH, .id "range"⟩ rfl).seq hinc (by decide)
    have hstop := (hfn.seq (flat_lower stop hparts.tail.head) (by decide)).push (by decide)
    have hstart := (hstop.seq (flat_lower start hparts.head) (by decide)).push (by decide)
    rw [lower, Option.isSome_some, if_pos rfl]
    exact (hstart.ins (by decide) rfl rfl).ins (by decide) rfl rfl
  | .unaryExpression _ type exp, h => by
    have hparts : AllBalanced [exp] := h.part
    have hexp := flat_lower exp hparts.head
    have hunary := flat_unary type hexp
    cases type with
    | negate =>
      cases exp with
      | constant token =>
        rw [lower]
        exact flat_neg token
      | _ =>
        rw [lower]
        · exact hunary
        · simp
    | _ =>
      rw [lower]
      · exact hunary
      · simp
  | .biExpression _ exp suffixes, h => by
    have hparts : AllBalanced (exp :: suffixes.map BiSuffix.exp) := h.part
    rw [lower]
    exact (flat_lower exp hparts.head).seq (flat_biSuffixes suffixes hparts.tail) (by decide)
  | .andExpression exp suffixes, h => by
    have hparts : AllBalanced (exp :: suffixes.map BiSuffix.exp) := h.part
    have hchain := flat_chain .IFN (flat_suffixes suffixes hparts.tail)
    rw [lower]
    exact (flat_lower exp hparts.head).seq hchain (by decide)
  | .orExpression exp suffixes, h => by
    have hparts : AllBalanced (exp :: suffixes.map BiSuffix.exp) := h.part
    have hchain := flat_chain .IF (flat_suffixes suffixes hparts.tail)
    rw [lower]
    exact (flat_lower exp hparts.head).seq hchain (by decide)
  | .inExpression _ isNot element collection, h => by
    have hparts : AllBalanced [element, collection] := h.part
    have hcall : (lower collection ++ opCode .PUSH ++ lower element ++ idCode .CALL inFnName).Flat :=
      (((flat_lower collection hparts.tail.head).ins (by decide) rfl rfl).seq
        (flat_lower element hparts.head) (by decide)).ins (by decide) rfl rfl
    rw [lower]
    cases isNot with
    | true => exact hcall.ins (by decide) rfl rfl
    | false => exact hcall.seq .nil (by decide)
  | .isExpression _ exp type, h => by
    have hparts : AllBalanced [exp, type] := h.part
    have hexp := flat_lower exp hparts.head
    have htype := flat_lower type hparts.tail.head
    rw [lower]
    exact (((hexp.ins (by decide) rfl rfl).seq htype (by decide)).ins (by decide) rfl rfl).ins
      (by decide) rfl rfl
  | .conditionalExpression ifElse, h => by
    rw [lower]
    exact flat_ifElse ifElse h.part
  | .anonFunctionDefinition func, _ => by
    rw [lower]
    exact flat_anonFunction func
  | .assignmentExpression _ assignment rhs, h => by
    have hparts : AllBalanced (rhs :: assignment.parts) := h.part
    have hassignment := flat_assignment assignment (h.target _ List.mem_cons_self) hparts.tail
    rw [lower]
    exact (flat_lower rhs hparts.head).seq hassignment (by decide)
  | .foreachStatement _ _ assignmentLhs iterable body, h => by
    have hparts : AllBalanced (iterable :: body :: assignmentLhs.parts) := h.part
    have hlhs := flat_assignment assignmentLhs (h.target _ List.mem_cons_self) hparts.tail.tail
    have hiterable := flat_lower iterable hparts.head
    have hbody := flat_lower body hparts.tail.head
    rw [lower]
    refine ⟨fun l hl => ?_, rfl⟩
    have hm : 0 ≤ l + heightWeight.block := Int.add_nonneg hl heightWeight.block_nonneg
    have hp := Int.add_nonneg hm heightWeight.value_nonneg
    exact ⟨hl, hiterable.level _ hm, hiterable.net, hlhs.level _ hp, hlhs.net, hbody.level _ hp,
      hbody.net⟩
  | .forStatement _ init condition inc body, h => by
    have hparts : AllBalanced [init, condition, inc, body] := h.part
    have hinit := flat_lower init hparts.head
    have hcondition := flat_lower condition hparts.tail.head
    have hinc := flat_lower inc hparts.tail.tail.head
    have hbody := flat_lower body hparts.tail.tail.tail.head
    rw [lower]
    refine ⟨fun l hl => ?_, rfl⟩
    have hm : 0 ≤ l + heightWeight.block := Int.add_nonneg hl heightWeight.block_nonneg
    exact ⟨hl, hinit.level _ hm, hinit.net, hcondition.level _ hm, hcondition.net,
      hinc.level _ hm, hinc.net, hbody.level _ hm, hbody.net⟩
  | .whileStatement _ condition body, h => by
    have hparts : AllBalanced [condition, body] := h.part
    have hcondition := flat_lower condition hparts.head
    have hbody := flat_lower body hparts.tail.head
    rw [lower]
    refine ⟨fun l hl => ?_, rfl⟩
    have hm : 0 ≤ l + heightWeight.block := Int.add_nonneg hl heightWeight.block_nonneg
    exact ⟨hl, hcondition.level _ hm, hcondition.net, hbody.level _ hm, hbody.net⟩
  | .compoundStatement expressions, h => by
    rw [lower]
    exact flat_statements expressions h.part
  | .tryStatement _ _ tryBody errorAssignmentLhs catchBody, h => by
    have hparts : AllBalanced (tryBody :: catchBody :: errorAssignmentLhs.parts) := h.part
    have hassign := flat_assignment errorAssignmentLhs (h.target _ List.mem_cons_self)
      hparts.tail.tail
    have hbody := flat_lower tryBody hparts.head
    have hcatch := flat_lower catchBody hparts.tail.head
    rw [lower]
    refine ⟨fun l hl => ?_, rfl⟩
    have hm : 0 ≤ l + heightWeight.block := Int.add_nonneg hl heightWeight.block_nonneg
    exact ⟨hl, hbody.level _ hm, hbody.net, hassign.level _ hm, hassign.net, hcatch.level _ hm,
      hcatch.net⟩
  | .raiseStatement _ exp, h => by
    have hparts : AllBalanced [exp] := h.part
    rw [lower]
    exact (flat_lower exp hparts.head).ins (by decide) rfl rfl
  | .selectionStatement ifElse, h => by
    rw [lower]
    exact flat_ifElse ifElse h.part
  | .jumpStatement _ none, _ => by
    rw [lower]
    exact Code.Adds.nil.ins (by decide) rfl rfl
  | .jumpStatement _ (some exp), h => by
    have hparts : AllBalanced [exp] := h.part
    rw [lower]
    exact (flat_lower exp hparts.head).ins (by decide) rfl rfl
  | .breakStatement _ type, _ => by
    rw [lower]
    exact ⟨fun l hl => hl, rfl⟩
  | .exitStatement _, _ => by
    rw [lower]
    exact .one ⟨.EXIT, .noArg⟩ rfl

theorem flat_tuple : ∀ list : List ExpressionTree, AllBalanced list →
    (lowerTuple list).Adds 0 list.length
  | [], _ => by
    rw [lowerTuple]
    exact .nil
  | elt :: rest, h => by
    rw [lowerTuple]
    refine ((flat_tuple rest h.tail).seq (flat_lower elt h.head) ?_).ins ?_ rfl ?_
    · simp
    · simp [Instruction.takes]
    · simp [Instruction.takes, Instruction.leaves]

theorem flat_statements : ∀ trees : List ExpressionTree, AllBalanced trees →
    (lowerStatements trees).Flat
  | [], _ => by
    rw [lowerStatements]
    exact .nil
  | tree :: rest, h => by
    rw [lowerStatements]
    exact (flat_lower tree h.head).seq (flat_statements rest h.tail) (by decide)

theorem flat_entry : ∀ entry : MapDecEntry, AllBalanced [entry.lhs, entry.rhs] →
    (lowerEntry entry).Adds 1 0
  | ⟨_, lhs, rhs⟩, h => by
    have hrhs := flat_lower rhs h.tail.head
    have hlhs := flat_lower lhs h.head
    have hvalue := ((Code.Adds.one ⟨.DUP, .noArg⟩ rfl).seq hrhs (by decide)).push (by decide)
    have hkey := (hvalue.seq hlhs (by decide)).push (by decide)
    rw [lowerEntry]
    exact (hkey.ins (by decide) rfl rfl).ins (by decide) rfl rfl

theorem flat_entries : ∀ entries : List MapDecEntry,
    AllBalanced (entries.flatMap fun entry => [entry.lhs, entry.rhs]) → (lowerEntries entries).Adds 1 0
  | [], _ => by
    rw [lowerEntries]
    exact Code.Adds.nil.weaken (by decide)
  | entry :: rest, h => by
    rw [List.flatMap_cons] at h
    rw [lowerEntries]
    exact (flat_entry entry h.left).seq (flat_entries rest h.right) (by decide)

theorem flat_callArgs : ∀ (exp : Option ExpressionTree) (call : Op → Code),
    (∀ op, op = .CALL ∨ op = .CLLN → (call op).Adds 1 (-1)) → AllBalanced exp.toList →
      (lowerCallArgs exp call).Adds 1 (-1)
  | none, call, hcall, _ => by
    rw [lowerCallArgs]
    exact hcall .CLLN (.inr rfl)
  | some exp, call, hcall, h => by
    have hexp : AllBalanced [exp] := h
    rw [lowerCallArgs]
    exact ((flat_lower exp hexp.head).weaken (by decide)).seq (hcall .CALL (.inl rfl)) (by decide)

theorem flat_postfixes : ∀ suffixes : List Postfix, AllBalanced (suffixes.flatMap Postfix.parts) →
    (lowerPostfixes suffixes).Flat
  | [], _ => by
    rw [lowerPostfixes]
    exact .nil
  | .fncall _ exp :: rest, h => by
    have hparts : AllBalanced (exp.toList ++ rest.flatMap Postfix.parts) := h
    have hcall := flat_callArgs exp opCode adds_call hparts.left
    rw [lowerPostfixes]
    exact ((Code.Adds.one ⟨.PUSH, .noArg⟩ rfl).seq hcall (by decide)).seq
      (flat_postfixes rest hparts.right) (by decide)
  | .arrayIndex _ exp :: rest, h => by
    have hparts : AllBalanced ([exp] ++ rest.flatMap Postfix.parts) := h
    have hindex : (opCode .PUSH ++ lower exp ++ opCode .AIDX).Flat :=
      ((Code.Adds.one ⟨.PUSH, .noArg⟩ rfl).seq (flat_lower exp hparts.left.head) (by decide)).ins
        (by decide) rfl rfl
    rw [lowerPostfixes]
    exact hindex.seq (flat_postfixes rest hparts.right) (by decide)
  | .field _ id :: [], _ => by
    rw [lowerPostfixes]
    · rw [lowerPostfixes]
      exact (flat_get id).seq .nil (by decide)
    · simp
  | .field _ id :: suffix :: rest, h => by
    have hget := flat_postfixes (suffix :: rest)
    have hrest := flat_postfixes rest
    cases suffix with
    | fncall _ exp =>
      have hparts : AllBalanced (exp.toList ++ rest.flatMap Postfix.parts) := h
      have hcall := flat_callArgs exp (fun op => tokenCode op id) (adds_callToken id) hparts.left
      rw [lowerPostfixes]
      exact ((Code.Adds.one ⟨.PUSH, .noArg⟩ rfl).seq hcall (by decide)).seq
        (hrest hparts.right) (by decide)
    | _ =>
      rw [lowerPostfixes]
      · exact (flat_get id).seq (hget h) (by decide)
      · simp
  | .increment _ :: rest, h => by
    rw [lowerPostfixes]
    exact flat_postfixes rest h
  | .decrement _ :: rest, h => by
    rw [lowerPostfixes]
    exact flat_postfixes rest h
  | .none _ :: rest, _ => by
    rw [lowerPostfixes]
    exact .nil

theorem flat_biSuffixes : ∀ suffixes : List BiSuffix, AllBalanced (suffixes.map BiSuffix.exp) →
    (lowerBiSuffixes suffixes).Flat
  | [], _ => by
    rw [lowerBiSuffixes]
    exact .nil
  | ⟨_, type, exp⟩ :: rest, h => by
    have hrest := flat_biSuffixes rest h.tail
    rw [lowerBiSuffixes]
    cases hop : biToIns type with
    | none => exact .nil
    | some op =>
      obtain ⟨htakes, hleaves⟩ := flat_bi hop
      have hexp : (opCode .PUSH ++ lower exp ++ opCode .PUSH).Adds 0 2 :=
        ((Code.Adds.one ⟨.PUSH, .noArg⟩ rfl).seq (flat_lower exp h.head) (by decide)).push (by decide)
      have hbi : (opCode .PUSH ++ lower exp ++ opCode .PUSH ++ opCode op).Flat :=
        hexp.ins (by rw [htakes]; decide) (by simp [Instruction.isPlain, isPlain_biToIns hop])
          (by rw [htakes, hleaves]; rfl)
      exact hbi.seq hrest (by decide)

theorem flat_suffixes : ∀ suffixes : List BiSuffix, AllBalanced (suffixes.map BiSuffix.exp) →
    ∀ c ∈ lowerSuffixes suffixes, c.Flat
  | [], _, c, hc => by
    rw [lowerSuffixes] at hc
    cases hc
  | ⟨_, _, exp⟩ :: rest, h, c, hc => by
    rw [lowerSuffixes] at hc
    rcases List.mem_cons.mp hc with rfl | hc
    · exact flat_lower exp h.head
    · exact flat_suffixes rest h.tail c hc

theorem flat_conditional : ∀ cond : Conditional, AllBalanced cond.parts →
    (lowerConditional cond).1.Flat ∧ (lowerConditional cond).2.Flat
  | ⟨_, condition, body⟩, h => by
    have hparts : AllBalanced [condition, body] := h
    rw [lowerConditional]
    exact ⟨flat_lower condition hparts.head, flat_lower body hparts.tail.head⟩

theorem flat_conditionals : ∀ conds : List Conditional, AllBalanced (conds.flatMap Conditional.parts) →
    ∀ q ∈ lowerConditionals conds, q.1.Flat ∧ q.2.Flat
  | [], _, q, hq => by
    rw [lowerConditionals] at hq
    cases hq
  | cond :: rest, h, q, hq => by
    rw [List.flatMap_cons] at h
    rw [lowerConditionals] at hq
    rcases List.mem_cons.mp hq with rfl | hq
    · exact flat_conditional cond h.left
    · exact flat_conditionals rest h.right q hq

theorem flat_ifElse : ∀ ifElse : IfElse, AllBalanced ifElse.parts → (lowerIfElse ifElse).Flat
  | ⟨first, rest, elseExp⟩, h => by
    have hparts : AllBalanced (first.parts ++ rest.flatMap Conditional.parts ++ elseExp.toList) := h
    have hconditions : ∀ q ∈ lowerConditional first :: lowerConditionals rest,
        q.1.Flat ∧ q.2.Flat := by
      intro q hq
      rcases List.mem_cons.mp hq with rfl | hq
      · exact flat_conditional first hparts.left.left
      · exact flat_conditionals rest hparts.left.right q hq
    cases elseExp with
    | none =>
      rw [lowerIfElse]
      exact ⟨fun l hl => ⟨hl, flat_branches hl hconditions⟩, rfl⟩
    | some e =>
      have helse : AllBalanced [e] := hparts.right
      have hotherwise := flat_lower e helse.head
      rw [lowerIfElse]
      exact ⟨fun l hl => ⟨hl, flat_branches hl hconditions, hotherwise.level l hl, hotherwise.net⟩,
        rfl⟩

theorem flat_assignment : ∀ assignment : Assignment, assignment.isBalanced = true →
    AllBalanced assignment.parts → (lowerAssignment assignment).Flat
  | .var isConst var, _, _ => by
    rw [lowerAssignment]
    cases isConst with
    | true => exact .one ⟨.SETC, _⟩ rfl
    | false => exact .one ⟨.SET, _⟩ rfl
  | .complex prefixExp suffixes, hbalanced, h => by
    have hparts : AllBalanced (prefixExp :: suffixes.flatMap Postfix.parts) := h
    have hset := flat_setSuffixes suffixes hbalanced hparts.tail
    rw [lowerAssignment]
    exact ((Code.Adds.one ⟨.PUSH, .noArg⟩ rfl).seq (flat_lower prefixExp hparts.head)
      (by decide)).seq hset (by decide)
  | .multi _ subargs, hbalanced, h => by
    obtain ⟨hfew, hall⟩ := Bool.and_eq_true_iff.mp hbalanced
    rw [lowerAssignment]
    exact flat_multi (by simpa using hfew) (flat_subargs subargs hall h)

theorem flat_subargs : ∀ subargs : List Assignment, allBalanced subargs = true →
    AllBalanced (subargParts subargs) → ∀ target ∈ subargs, (lowerAssignment target).Flat
  | [], _, _, _, hmem => absurd hmem List.not_mem_nil
  | first :: rest, hall, h, target, hmem => by
    obtain ⟨hfirst, hrest⟩ := Bool.and_eq_true_iff.mp hall
    have hparts : AllBalanced (first.parts ++ subargParts rest) := h
    cases List.mem_cons.mp hmem with
    | inl heq =>
      rw [heq]
      exact flat_assignment first hfirst hparts.left
    | inr hmem => exact flat_subargs rest hrest hparts.right target hmem

/-- The suffixes of a target take the value that was pushed for it. -/
theorem flat_setSuffixes : ∀ suffixes : List Postfix, endsInTarget suffixes = true →
    AllBalanced (suffixes.flatMap Postfix.parts) → (lowerSetSuffixes suffixes).Adds 1 (-1)
  | [], hbalanced, _ => by cases hbalanced
  | .fncall _ exp :: rest, hbalanced, h => by
    have hparts : AllBalanced (exp.toList ++ rest.flatMap Postfix.parts) := h
    have hcall : (opCode .PUSH ++ lowerCallArgs exp opCode).Flat :=
      (Code.Adds.one ⟨.PUSH, .noArg⟩ rfl).seq (flat_callArgs exp opCode adds_call hparts.left)
        (by decide)
    have hrest := flat_setSuffixes rest
    rw [lowerSetSuffixes]
    exact (hcall.weaken (by decide)).seq (hrest (by cases rest <;> exact hbalanced) hparts.right)
      (by decide)
  | .arrayIndex _ exp :: rest, hbalanced, h => by
    have hparts : AllBalanced ([exp] ++ rest.flatMap Postfix.parts) := h
    have hindex : (opCode .PUSH ++ lower exp).Adds 0 1 :=
      (Code.Adds.one ⟨.PUSH, .noArg⟩ rfl).seq (flat_lower exp hparts.left.head) (by decide)
    have hrest := flat_setSuffixes rest
    rw [lowerSetSuffixes]
    cases rest with
    | nil => exact (hindex.weaken (by decide)).ins (by decide) rfl rfl
    | cons next rest =>
      have hget : (opCode .AIDX).Adds 2 (-1) := (Code.Adds.one ⟨.AIDX, .noArg⟩ rfl).weaken (by decide)
      have hset : (opCode .AIDX ++ lowerSetSuffixes (next :: rest)).Adds 2 (-2) :=
        hget.seq (hrest hbalanced hparts.right) (by decide)
      exact (hindex.weaken (by decide)).seq hset (by decide)
  | .field _ id :: suffixes, hbalanced, h => by
    have hget : (tokenCode .GET id).Adds 1 0 := (flat_get id).weaken (by decide)
    match suffixes, hbalanced, h with
    | [], _, _ =>
      rw [lowerSetSuffixes]
      exact .one ⟨.FLD, _⟩ rfl
    | .fncall _ exp :: next :: rest, hbalanced, h =>
      have hparts : AllBalanced (exp.toList ++ (next :: rest).flatMap Postfix.parts) := h
      have hcall : (opCode .PUSH ++ lowerCallArgs exp fun op => tokenCode op id).Flat :=
        (Code.Adds.one ⟨.PUSH, .noArg⟩ rfl).seq
          (flat_callArgs exp _ (adds_callToken id) hparts.left) (by decide)
      rw [lowerSetSuffixes]
      exact (hcall.weaken (by decide)).seq
        (flat_setSuffixes (next :: rest) hbalanced hparts.right) (by decide)
    | [.fncall _ _], hbalanced, _ => cases hbalanced
    | .field token id' :: rest, hbalanced, h =>
      rw [lowerSetSuffixes]
      · exact hget.seq (flat_setSuffixes (.field token id' :: rest) hbalanced h) (by decide)
      · simp
      · simp
    | .arrayIndex token exp :: rest, hbalanced, h =>
      rw [lowerSetSuffixes]
      · exact hget.seq (flat_setSuffixes (.arrayIndex token exp :: rest) hbalanced h) (by decide)
      · simp
      · simp
    | .increment _ :: _, hbalanced, _ => cases hbalanced
    | .decrement _ :: _, hbalanced, _ => cases hbalanced
    | .none _ :: _, hbalanced, _ => cases hbalanced
  | .increment _ :: rest, hbalanced, _ => by cases hbalanced
  | .decrement _ :: rest, hbalanced, _ => by cases hbalanced
  | .none _ :: rest, hbalanced, _ => by cases hbalanced

end

/-! ## Heights along a path -/

/-- Steps that raise no error. -/
def NoRaise (_ : PathState) : Move → Prop
  | .goto _ => True
  | .raise _ => False

/-- On the paths through the code that `C` allows, the stack is as high as at the start when
control leaves the code, and no instruction reaches below. -/
structure StackBalanced (is : List Instruction) (C : PathState → Move → Prop) : Prop where
  leaves : ∀ (contexts : List (Option Int)) (height : Int) (s : PathState),
    RunsIn (PathState.step is) C ⟨0, contexts, height⟩ s →
    ¬ (0 ≤ s.pc ∧ s.pc < is.length) → s.height = height
  above : ∀ (contexts : List (Option Int)) (height : Int) (s : PathState) (ins : Instruction),
    RunsIn (PathState.step is) C ⟨0, contexts, height⟩ s →
    insAt is s.pc = some ins → height + ins.takes ≤ s.height

theorem level_height {c : Code} (hc : c.HasLevel heightWeight 0) {height : Int} (s : PathState)
    (move : Move) (s' : PathState)
    (hlevel : c.levelAt heightWeight 0 s.pc = some (s.height - height))
    (hmove : NoRaise s move ∧ c.Tame heightWeight s move) (hstep : s.step c.code move = some s') :
    c.levelAt heightWeight 0 s'.pc = some (s'.height - height) := by
  cases move with
  | goto pc =>
    obtain ⟨ins, -, hnext, -, -, hheight⟩ := Code.level_goto hc hmove.2 hstep hlevel
    rw [hnext, hheight]
    congr 1
    change s.height - height + ((ins.leaves : Int) - ins.takes) = _
    omega
  | raise taken => exact absurd hmove.1 id

/-- Paths through flat code on which no jump leaves an inner `foreach` keep the stack. -/
theorem stackBalanced_of_flat {c : Code} (h : c.Flat) :
    StackBalanced c.code (fun s move => NoRaise s move ∧ c.Tame heightWeight s move) := by
  obtain ⟨hlevel, hnet⟩ := h
  have hc := hlevel 0 (Int.le_refl 0)
  have hruns : ∀ (contexts : List (Option Int)) (height : Int) (s : PathState),
      RunsIn (PathState.step c.code)
        (fun s move => NoRaise s move ∧ c.Tame heightWeight s move)
        ⟨0, contexts, height⟩ s →
      c.levelAt heightWeight 0 s.pc = some (s.height - height) := by
    intro contexts height s hruns
    refine hruns.invariant (level_height hc) ?_
    rw [(Code.fits_levelAt hc).2, Int.sub_self]
  constructor
  · intro contexts height s hpath hleft
    have hs := hruns contexts height s hpath
    have hpc : s.pc = c.size := by
      obtain ⟨hlow, hhigh⟩ := Code.levelAt_range hs
      rw [Code.length_code] at hleft
      omega
    rw [hpc, Code.levelAt_size, hnet] at hs
    have hheight := Option.some.inj hs
    omega
  · intro contexts height s ins hpath hat
    have hs := hruns contexts height s hpath
    obtain ⟨m, hm, rfl, -, hml⟩ := Code.mark_of_insAt (W := heightWeight) hat 0
    rw [hs] at hml
    have hfits := Fits.iff_getElem.mp (Code.fits_levelAt hc).1 _ m hm _ hml.symm
    have hneed : (m.item.ins.takes : Int) ≤ s.height - height := hfits.1
    omega

/-- Paths on which no `break` or `continue` leaves an inner `foreach` keep the stack. -/
theorem stack_balanced (e : ExpressionTree) (tape tape' : Tape) (n : Int)
    (hsingle : SingleTargets e) (hrun : produceInstructions e tape = some (n, tape')) :
    ∃ is, tape'.ins = tape.ins ++ is ∧
      StackBalanced is (fun s move => NoRaise s move ∧ (lower e).Tame heightWeight s move) := by
  obtain ⟨-, hins⟩ := generates_tree (.expression e) tape n tape' hrun
  exact ⟨(lower e).code, hins, stackBalanced_of_flat (flat_lower e hsingle.balanced)⟩

theorem SingleTargets.leaf {e : ExpressionTree} (htargets : e.targets = []) (hparts : e.parts = []) :
    SingleTargets e := by
  refine .intro ?_ ?_
  · rw [htargets]
    simp
  · rw [hparts]
    simp

/-- `for (y in z) { a[i] = f(y) }` -/
def storeInForeach : ExpressionTree :=
  .foreachStatement (.word "for" 1) (.word "in" 1) (.var false (.word "y" 1))
    (.identifier (.word "z" 1)) (.assignmentExpression (.word "=" 1)
      (.complex (.identifier (.word "a" 1)) [.arrayIndex (.word "[" 1) (.identifier (.word "i" 1))])
      (.postfixExpression (.identifier (.word "f" 1))
        [.fncall (.word "(" 1) (some (.identifier (.word "y" 1)))]))

theorem storeInForeach_single : SingleTargets storeInForeach := by
  refine .intro (fun a ha => ?_) (fun part hpart => ?_)
  · obtain rfl := List.mem_singleton.mp ha
    rfl
  rcases List.mem_pair.mp hpart with rfl | rfl
  · exact .leaf rfl rfl
  refine .intro (fun a ha => ?_) (fun part hpart => ?_)
  · obtain rfl := List.mem_singleton.mp ha
    rfl
  rcases List.mem_cons.mp hpart with rfl | hpart
  · refine .intro (fun a ha => by cases ha) (fun part hpart => ?_)
    rcases List.mem_pair.mp hpart with rfl | rfl
    · exact .leaf rfl rfl
    · exact .leaf rfl rfl
  · rcases List.mem_pair.mp hpart with rfl | rfl
    · exact .leaf rfl rfl
    · exact .leaf rfl rfl

theorem stack_balanced_storeInForeach : ∃ n tape',
    produceInstructions storeInForeach .create = some (n, tape') ∧
    ∃ is, tape'.ins = Tape.create.ins ++ is ∧ StackBalanced is
      (fun s move => NoRaise s move ∧ (lower storeInForeach).Tame heightWeight s move) :=
  ⟨_, _, rfl, stack_balanced _ _ _ _ storeInForeach_single rfl⟩

/-- `while (x) { for (y in z) { continue } }` -/
def continueInForeach : ExpressionTree :=
  .whileStatement (.word "while" 1) (.identifier (.word "x" 1))
    (.foreachStatement (.word "for" 1) (.word "in" 1) (.var false (.word "y" 1))
      (.identifier (.word "z" 1)) (.breakStatement (.word "continue" 1) .continue))

theorem continueInForeach_single : SingleTargets continueInForeach := by
  refine .intro (fun _ h => by cases h) (fun part hpart => ?_)
  rcases List.mem_pair.mp hpart with rfl | rfl
  · exact .leaf rfl rfl
  refine .intro (fun a ha => ?_) (fun part hpart => ?_)
  · obtain rfl := List.mem_singleton.mp ha
    rfl
  · rcases List.mem_pair.mp hpart with rfl | rfl
    · exact .leaf rfl rfl
    · exact .leaf rfl rfl

/-- The `continue` is a jump over nothing, which the outer loop patches as its `break`. -/
theorem not_stack_balanced : ¬ ∀ (e : ExpressionTree) (tape tape' : Tape) (n : Int),
    SingleTargets e → produceInstructions e tape = some (n, tape') →
    ∃ is, tape'.ins = tape.ins ++ is ∧ StackBalanced is NoRaise := by
  intro h
  obtain ⟨is, hins, hbalanced⟩ := h continueInForeach .create _ _ continueInForeach_single rfl
  obtain rfl := List.nil_append is ▸ hins.symm
  have hsteps : runSteps (PathState.step (lower continueInForeach).code) ⟨0, [], 0⟩
      [.goto 1, .goto 2, .goto 3, .goto 4, .goto 5, .goto 6, .goto 7, .goto 8, .goto 9, .goto 10,
        .goto 11, .goto 12, .goto 13, .goto 14, .goto 19, .goto 20] =
        some ⟨20, [none], 1⟩ := by decide
  have hleaves := hbalanced.leaves [] 0 ⟨20, [none], 1⟩
    (runsIn_of_runSteps hsteps (by simp [NoRaise])) (by decide)
  cases hleaves

end JeffVm
