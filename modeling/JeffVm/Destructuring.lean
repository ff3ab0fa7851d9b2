import JeffVm.ArgumentBinding
import JeffVm.StackDiscipline

/-!
# Destructuring

The code of `produce_assignment_multi` reads the elements of an array or a tuple and assigns each
to its target. Of the code of a field or of an indexed element the object and the index are
evaluated as a whole. The instructions around them, the store at the end and the code of a
nested list are executed one by one.
-/

set_option autoImplicit false

namespace JeffVm

/-- The elements of an array or a tuple. -/
def Store.elements (s : Store) : Entity → Option (List Entity)
  | .obj o =>
    match s.cls o, s.internal o with
    | .Array, .array table => some table
    | .Tuple, .tuple table => some table
    | _, _ => none
  | _ => none

def Store.elementAt (s : Store) (e : Entity) (i : Nat) : Option Entity :=
  (s.elements e).bind (·[i]?)

/-- An element at the index can be set: by the array itself, or by the method of the class. -/
def Store.settable (s : Store) (arr index : Entity) : Bool :=
  match arr with
  | .obj o =>
    match s.cls o, s.internal o with
    | .Array, .array _ =>
      match index with
      | .prim (.int i) => decide (0 ≤ i)
      | _ => false
    | .Array, _ => false
    | cls, _ => (s.classGetFunction cls "__set__").isSome
  | _ => false

/-- `ASET` calls the method of the class. -/
def Frame.callsSet (f : Frame) : Bool :=
  match f.stack with
  | .obj o :: _ :: _ =>
    f.store.cls o != .Array && (f.store.classGetFunction (f.store.cls o) "__set__").isSome
  | _ => false

/-! ## The lists of targets -/

/-- The last suffix of a target as the parser makes it. -/
def Postfix.Stores : Postfix → Prop
  | .field _ id => id.isName = true
  | .arrayIndex _ exp => (lower exp).code ≠ []
  | _ => False

mutual

/-- The parser makes a variable an identifier; a field or an indexed element is an identifier
with suffixes. -/
def Assignment.WellFormed : Assignment → Prop
  | .var _ token => token.isName = true
  | .complex prefixExp suffixes => (∃ id, prefixExp = .identifier id) ∧
      endsInTarget suffixes = true ∧ ∀ last ∈ suffixes.getLast?, last.Stores
  | .multi _ subargs => AllWellFormed subargs

def AllWellFormed : List Assignment → Prop
  | [] => True
  | target :: rest => target.WellFormed ∧ AllWellFormed rest

end

mutual

/-- No variable is const, and every list has two or three targets. -/
def Assignment.isShort : Assignment → Bool
  | .var isConst _ => !isConst
  | .complex _ _ => true
  | .multi _ subargs => (subargs.length == 2 || subargs.length == 3) && allShort subargs

def allShort : List Assignment → Bool
  | [] => true
  | target :: rest => target.isShort && allShort rest

end

mutual

/-- The value has an element for every target of the list, and of the lists in it. -/
def Assignment.Fits (elements : Entity → Option (List Entity)) : Assignment → Entity → Prop
  | .var _ _, _ => True
  | .complex _ _, _ => True
  | .multi _ subargs, e => ∃ table, elements e = some table ∧ AllFit elements subargs table

def AllFit (elements : Entity → Option (List Entity)) : List Assignment → List Entity → Prop
  | [], _ => True
  | target :: rest, e :: table => target.Fits elements e ∧ AllFit elements rest table
  | _ :: _, [] => False

end

namespace Assignment

/-- The lists among these targets are short. -/
def listsShort : Assignment → Bool
  | .multi isArray subargs => (multi isArray subargs).isShort
  | _ => true

/-- The suffix that the target assigns to. -/
def lastSuffix : Assignment → Option Postfix
  | .complex _ suffixes => suffixes.getLast?
  | _ => none

end Assignment

/-! ## The pieces of the code -/

/-- The code of the object whose field or element is assigned. -/
def Assignment.objectCode (prefixExp : ExpressionTree) (suffixes : List Postfix) :
    List Instruction :=
  (lower prefixExp ++ lowerPostfixes suffixes.dropLast).code

/-- The code of the last suffix. -/
def Postfix.storePieces : Postfix → List Piece
  | .field _ id => [.own ⟨.FLD, Tape.argOfToken id⟩]
  | .arrayIndex _ exp =>
    [.own ⟨.PUSH, .noArg⟩, .part (lower exp).code, .own ⟨.ASET, .noArg⟩]
  | _ => []

mutual

def Assignment.targetPieces : Assignment → List Piece
  | .var isConst token => [.own ⟨if isConst then .SETC else .SET, Tape.argOfToken token⟩]
  | .complex prefixExp suffixes =>
    .own ⟨.PUSH, .noArg⟩ :: .part (Assignment.objectCode prefixExp suffixes) ::
      suffixes.getLast?.elim [] Postfix.storePieces
  | .multi _ subargs => .own ⟨.PUSH, .noArg⟩ :: subargPieces subargs.length 0 subargs

def subargPieces (len : Nat) : Nat → List Assignment → List Piece
  | _, [] => []
  | i, target :: rest =>
    [.own ⟨if i < len - i then .PEEK else .RES, .noArg⟩, .own ⟨.PUSH, .noArg⟩,
      .own ⟨.RES, .val (.int i)⟩, .own ⟨.AIDX, .noArg⟩] ++ target.targetPieces ++
      subargPieces len (i + 1) rest

end

/-- The suffixes before the last one are those of an expression. -/
theorem code_setSuffixes : ∀ suffixes : List Postfix, endsInTarget suffixes = true →
    (lowerSetSuffixes suffixes).code = (lowerPostfixes suffixes.dropLast).code ++
      Piece.codeAll (suffixes.getLast?.elim [] Postfix.storePieces)
  | [], h => by cases h
  | [.field _ id], _ => by
    simp [lowerSetSuffixes, lowerPostfixes, Postfix.storePieces, Piece.code, tokenCode]
  | [.arrayIndex _ exp], _ => by
    simp [lowerSetSuffixes, lowerPostfixes, Postfix.storePieces, Piece.code, opCode]
  | [.fncall _ _], h => by cases h
  | .fncall _ exp :: next :: rest, h => by
    have ih := code_setSuffixes (next :: rest) h
    rw [lowerSetSuffixes, List.dropLast_cons_cons, lowerPostfixes, List.getLast?_cons_cons]
    simp [ih]
  | .arrayIndex _ exp :: next :: rest, h => by
    have ih := code_setSuffixes (next :: rest) h
    rw [lowerSetSuffixes, List.dropLast_cons_cons, lowerPostfixes, List.getLast?_cons_cons]
    simp [ih]
  | .field _ id :: .fncall token exp :: [], h => by cases h
  | .field _ id :: .fncall token exp :: next :: rest, h => by
    have ih := code_setSuffixes (next :: rest) h
    rw [lowerSetSuffixes, List.dropLast_cons_cons, List.dropLast_cons_cons, lowerPostfixes,
      List.getLast?_cons_cons, List.getLast?_cons_cons]
    simp [ih]
  | .field _ id :: .field token id' :: rest, h => by
    have ih := code_setSuffixes (.field token id' :: rest) h
    rw [lowerSetSuffixes, List.dropLast_cons_cons, lowerPostfixes, List.getLast?_cons_cons]
    · simp [ih]
    · cases rest <;> simp
    · simp
    · simp
  | .field _ id :: .arrayIndex token exp :: rest, h => by
    have ih := code_setSuffixes (.arrayIndex token exp :: rest) h
    rw [lowerSetSuffixes, List.dropLast_cons_cons, lowerPostfixes, List.getLast?_cons_cons]
    · simp [ih]
    · cases rest <;> simp
    · simp
    · simp
  | .field _ _ :: .increment _ :: _, h => by cases h
  | .field _ _ :: .decrement _ :: _, h => by cases h
  | .field _ _ :: .none _ :: _, h => by cases h
  | .increment _ :: _, h => by cases h
  | .decrement _ :: _, h => by cases h
  | .none _ :: _, h => by cases h

theorem code_identifier_ne_nil (id : Token) : (lower (.identifier id)).code ≠ [] := by
  rw [lower]
  unfold lowerIdentifier
  split
  · simp [intCode]
  · split <;> simp [opCode, tokenCode]

mutual

theorem codeAll_target : ∀ target : Assignment, target.WellFormed →
    Piece.codeAll target.targetPieces = (lowerAssignment target).code
  | .var isConst token, _ => by
    simp [Assignment.targetPieces, lowerAssignment, Piece.code, tokenCode]
  | .complex prefixExp suffixes, hwf => by
    have hset := code_setSuffixes suffixes hwf.2.1
    simp [Assignment.targetPieces, Assignment.objectCode, lowerAssignment, hset, Piece.code,
      opCode]
  | .multi isArray subargs, hwf => by
    have hsubargs := codeAll_subargs subargs.length 0 subargs hwf
    simp [Assignment.targetPieces, lowerAssignment, hsubargs, Piece.code, opCode]

/-- The pieces are the code that `produce_assignment_multi` emits. -/
theorem codeAll_subargs (len : Nat) : ∀ (i : Nat) (subargs : List Assignment),
    AllWellFormed subargs →
      Piece.codeAll (subargPieces len i subargs) = (lowerSubargs len i subargs).code
  | i, [], _ => by simp [subargPieces, lowerSubargs]
  | i, target :: rest, hwf => by
    have htarget := codeAll_target target hwf.1
    have hrest := codeAll_subargs len (i + 1) rest hwf.2
    simp [subargPieces, lowerSubargs, htarget, hrest, Piece.code, opCode, intCode]

end

theorem solid_store {last : Postfix} (h : last.Stores) : .part [] ∉ last.storePieces := by
  cases last with
  | field token id => simp [Postfix.storePieces]
  | arrayIndex token exp =>
    have hcode : (lower exp).code ≠ [] := h
    simp [Postfix.storePieces, hcode.symm]
  | _ => exact h.elim

mutual

theorem solid_target : ∀ target : Assignment, target.WellFormed →
    .part [] ∉ target.targetPieces
  | .var isConst token, _ => by simp [Assignment.targetPieces]
  | .complex prefixExp suffixes, ⟨⟨id, hid⟩, _, hlast⟩ => by
    have hobject : Assignment.objectCode prefixExp suffixes ≠ [] := by
      rw [hid]
      simp [Assignment.objectCode, code_identifier_ne_nil]
    rw [Assignment.targetPieces]
    cases hsuffix : suffixes.getLast? with
    | none => simp [hobject.symm]
    | some last =>
      have hsolid := solid_store (hlast last hsuffix)
      simp [hobject.symm, hsolid]
  | .multi isArray subargs, hwf => by
    have hsubargs := solid_subargs subargs.length 0 subargs hwf
    simp [Assignment.targetPieces, hsubargs]

theorem solid_subargs (len : Nat) : ∀ (i : Nat) (subargs : List Assignment),
    AllWellFormed subargs → .part [] ∉ subargPieces len i subargs
  | i, [], _ => by simp [subargPieces]
  | i, target :: rest, hwf => by
    have htarget := solid_target target hwf.1
    have hrest := solid_subargs len (i + 1) rest hwf.2
    simp [subargPieces, htarget, hrest]

end

/-! ## The parts of the code -/

/-- The operand stack is kept on the paths through the code of some expression, as far as they
raise no error and leave no inner loop. -/
def KeepsStack (is : List Instruction) : Prop :=
  ∃ c : Code, c.code = is ∧
    StackBalanced is fun s move => NoRaise s move ∧ c.Tame heightWeight s move

theorem keepsStack_of_flat {c : Code} (h : c.Flat) : KeepsStack c.code :=
  ⟨c, rfl, stackBalanced_of_flat h⟩

theorem keepsStack_store {last : Postfix} (h : AllBalanced last.parts) {is : List Instruction}
    (hmem : .part is ∈ last.storePieces) : KeepsStack is := by
  cases last with
  | arrayIndex token exp =>
    obtain rfl : is = (lower exp).code := by simpa [Postfix.storePieces] using hmem
    exact keepsStack_of_flat (flat_lower exp (h exp (by simp [Postfix.parts])))
  | field token id => simp [Postfix.storePieces] at hmem
  | _ => cases hmem

mutual

/-- The objects and the indices keep the stack when the lists of targets in them have two or
three targets. -/
theorem keepsStack_target : ∀ target : Assignment, AllBalanced target.parts →
    ∀ is, .part is ∈ target.targetPieces → KeepsStack is
  | .var isConst token, _, is, hmem => by simp [Assignment.targetPieces] at hmem
  | .complex prefixExp suffixes, h, is, hmem => by
    have hprefix : BalancedTargets prefixExp := h prefixExp List.mem_cons_self
    have hsuffixes : ∀ suffix ∈ suffixes, AllBalanced suffix.parts := by
      intro suffix hsuffix e he
      exact h e (List.mem_cons_of_mem _ (List.mem_flatMap.mpr ⟨suffix, hsuffix, he⟩))
    have hpostfixes : AllBalanced (suffixes.dropLast.flatMap Postfix.parts) := by
      intro e he
      obtain ⟨suffix, hsuffix, he⟩ := List.mem_flatMap.mp he
      exact hsuffixes suffix (List.mem_of_mem_dropLast hsuffix) e he
    have hobject : (lower prefixExp ++ lowerPostfixes suffixes.dropLast).Flat :=
      (flat_lower prefixExp hprefix).seq (flat_postfixes _ hpostfixes) (by decide)
    rw [Assignment.targetPieces, List.mem_cons, List.mem_cons] at hmem
    obtain hpush | hpart | hstore := hmem
    · cases hpush
    · cases hpart
      exact keepsStack_of_flat hobject
    · cases hlast : suffixes.getLast? with
      | none =>
        rw [hlast] at hstore
        cases hstore
      | some last =>
        rw [hlast] at hstore
        exact keepsStack_store (hsuffixes last (List.mem_of_getLast? hlast)) hstore
  | .multi _ subargs, h, is, hmem => by
    rw [Assignment.targetPieces, List.mem_cons] at hmem
    obtain hpush | hrest := hmem
    · cases hpush
    · exact keepsStack_subargs subargs.length 0 subargs h is hrest

theorem keepsStack_subargs (len : Nat) : ∀ (i : Nat) (subargs : List Assignment),
    AllBalanced (subargParts subargs) → ∀ is, .part is ∈ subargPieces len i subargs → KeepsStack is
  | i, [], _, is, hmem => by cases hmem
  | i, target :: rest, h, is, hmem => by
    have hparts : AllBalanced (target.parts ++ subargParts rest) := h
    rw [subargPieces, List.mem_append, List.mem_append] at hmem
    obtain (hread | htarget) | hrest := hmem
    · simp at hread
    · exact keepsStack_target target hparts.left is htarget
    · exact keepsStack_subargs len (i + 1) rest hparts.right is hrest

end

/-! ## What is to be assigned -/

/-- Element `index` of `value` is to be assigned to `target`. -/
structure Todo where
  value : Entity
  index : Nat
  target : Assignment

def todosOf (v : Entity) : Nat → List Assignment → List Todo
  | _, [] => []
  | i, target :: rest => ⟨v, i, target⟩ :: todosOf v (i + 1) rest

/-- What has been done for the first target: the element `e` has been read, the object `o` and
the index `i` have been evaluated. -/
inductive Stage where
  | reading
  | given (e : Entity)
  | object (e o : Entity)
  | index (e o i : Entity)

/-- How far a run has come: it has done something wrong, it has come to what cannot be done (an
element is not there, an object has no fields or elements), or this is left. -/
inductive Progress where
  | wrong
  | excused
  | left (todos : List Todo) (stage : Stage)

/-- What is left when element `e` has been read for `todo`: it is taken apart in turn, or it is
about to be assigned. -/
def Todo.given (todo : Todo) (rest : List Todo) (e : Entity) : Progress :=
  match todo.target with
  | .multi _ subargs => .left (todosOf e 0 subargs ++ rest) .reading
  | _ => .left (todo :: rest) (.given e)

/-- The elements are read in order, and each of them is assigned to its target. -/
def advance : List Todo → Stage → RunEvent → Progress
  | todo :: rest, .reading, .indexed s arr index =>
    if arr = todo.value ∧ index = .int todo.index then
      match s.elementAt todo.value todo.index with
      | some e => todo.given rest e
      | none => .excused
    else .wrong
  | todo :: rest, .given e, event =>
    match todo.target, event with
    | .var _ token, .setVar id e' =>
      if id = token.text ∧ e' = e then .left rest .reading else .wrong
    | .complex _ _, .evaluated _ o => .left (todo :: rest) (.object e o)
    | _, _ => .wrong
  | todo :: rest, .object e o, event =>
    match todo.target.lastSuffix, event with
    | some (.field _ id), .setField o' id' e' =>
      if o' = o ∧ id' = id.text ∧ e' = e then
        match o with
        | .obj _ => .left rest .reading
        | _ => .excused
      else .wrong
    | some (.arrayIndex _ _), .evaluated _ i => .left (todo :: rest) (.index e o i)
    | _, _ => .wrong
  | _ :: rest, .index e o i, .setIndexed s o' i' e' =>
    if o' = o ∧ i' = i ∧ e' = e then
      if s.settable o i then .left rest .reading else .excused
    else .wrong
  | _, _, _ => .wrong

namespace Progress

def next : Progress → RunEvent → Progress
  | .left todos stage, event => advance todos stage event
  | p, _ => p

/-- What a trace makes of it. -/
def after (p : Progress) (tr : List RunEvent) : Progress := tr.foldl next p

@[simp] theorem after_nil (p : Progress) : p.after [] = p := rfl

theorem after_append (p : Progress) (tr tr' : List RunEvent) :
    p.after (tr ++ tr') = (p.after tr).after tr' := List.foldl_append

@[simp] theorem after_some (todos : List Todo) (stage : Stage) (event : RunEvent) :
    (left todos stage).after (some event).toList = advance todos stage event := rfl

@[simp] theorem after_none (p : Progress) : p.after (none : Option RunEvent).toList = p := rfl

@[simp] theorem excused_after (tr : List RunEvent) : excused.after tr = excused := by
  induction tr with
  | nil => rfl
  | cons event tr ih => exact ih

end Progress

/-- What comes next cannot be done: the element is not there, or it cannot be set. -/
def Excuses (s : Store) : List Todo → Stage → Prop
  | todo :: _, .reading => s.elementAt todo.value todo.index = none
  | _ :: _, .index _ arr i => s.settable arr i = false
  | _, _ => False

/-- The values that are `known` have these elements. -/
def Store.Has (s : Store) (known : Entity → Option (List Entity)) : Prop :=
  ∀ v table, known v = some table → s.elements v = some table

namespace Site

variable (env : Env) (S : Site)

def stackOf (w : World) : List Entity := (w.tasks S.task).entityStack

/-- The task is about to call the method that sets an element. -/
def CallsSet (w : World) : Prop :=
  ∃ k f, S.At w k f ∧ S.Next k ⟨.ASET, .noArg⟩ ∧ f.callsSet = true

/-- A step of the code. The method that sets an element is run as a whole, up to its return. -/
inductive Takes : World → Option RunEvent → World → Prop where
  | step {w w' : World} {e : Option RunEvent} : ¬ S.CallsSet w → S.Step env w e w' → Takes w e w'
  | call {w w' : World} {k : Nat} {f f' : Frame} : S.At w k f → S.Next k ⟨.ASET, .noArg⟩ →
    f.callsSet = true → S.through w w' → S.At w' (k + 1) f' → f'.stack = f.stack.drop 2 →
    Takes w (shown ⟨.ASET, .noArg⟩ f) w'

/-- The task does not evaluate a part or call the method, and there is no next step. -/
def Ends (w : World) : Prop := ¬ S.CallsSet w ∧ S.Stops env w

/-- Nothing wrong has been done, and the operand stack `stack` is untouched. Where the run ends
all targets have got their elements and the stack is `stack`, unless what comes next cannot be
done. -/
def Progresses (stack : List Entity) (w : World) : Progress → Prop
  | .wrong => False
  | .excused => True
  | .left todos stage => stack <:+ S.stackOf w ∧
      (S.Ends env w → todos = [] ∧ S.stackOf w = stack ∨ Excuses w.store todos stage)

/-- Every run does what is left. -/
def TakesApart (stack : List Entity) (p : Progress) : World → Prop :=
  Always (S.Takes env) fun tr w => S.Progresses env stack w (p.after tr)

/-- A run leads from one world to the other. -/
def Reaches (w w' : World) : Prop := ∃ tr, Traced (S.Takes env) w tr w'

/-- A store at this position, if there is one, is carried out and changes no known elements. -/
structure CanStore (known : Entity → Option (List Entity)) (w : World) (k : Nat) (f : Frame) :
    Prop where
  field : ∀ id, S.Next k ⟨.FLD, .id id⟩ → ∃ o, f.resval = .obj o
  element : S.Next k ⟨.ASET, .noArg⟩ → ∃ e w' f', S.Takes env w e w' ∧ S.At w' (k + 1) f' ∧
    f'.store.Has known

/-- From here on an object or an index can be evaluated where the run comes to it, such that
the store after it can be carried out. -/
def CanAssign (known : Entity → Option (List Entity)) (w : World) : Prop :=
  ∀ w₁ k len f, S.Reaches env w w₁ → S.At w₁ k f → f.store.Has known → (k, len) ∈ S.parts →
    ∃ w' f', S.Evaluates w₁ w' k len f f' ∧ f'.store.Has known ∧
      S.CanStore env known w' (k + len) f'

end Site

theorem advance_read {s : Store} {v e : Entity} {i : Nat} {target : Assignment} {rest : List Todo}
    (he : s.elementAt v i = some e) :
    advance (⟨v, i, target⟩ :: rest) .reading (.indexed s v (.int i)) =
      Todo.given ⟨v, i, target⟩ rest e := by
  simp [advance, he]

theorem advance_missing {s : Store} {todo : Todo} {rest : List Todo}
    (he : s.elementAt todo.value todo.index = none) :
    advance (todo :: rest) .reading (.indexed s todo.value (.int todo.index)) = .excused := by
  simp [advance, he]

namespace Site

variable {env : Env} {S : Site} {w w' w'' : World} {k k' len : Nat} {f f' : Frame}
variable {ins : Instruction} {e : Option RunEvent}
variable {v : Entity} {stack : List Entity} {i : Nat} {target : Assignment}
variable {todo : Todo} {todos rest : List Todo} {stage : Stage} {p : Progress}

theorem At.stackOf (hat : S.At w k f) : S.stackOf w = f.stack := congrArg Frame.stack hat.frame

theorem At.store_eq (hat : S.At w k f) : w.store = f.store := congrArg Frame.store hat.frame

/-! ## Single steps -/

theorem At.callsSet_iff (hat : S.At w k f) :
    S.CallsSet w ↔ S.Next k ⟨.ASET, .noArg⟩ ∧ f.callsSet = true := by
  constructor
  · rintro ⟨k', f', hat', hnext, hcalls⟩
    cases hat.position_unique hat'
    cases hat.frame_unique hat'
    exact ⟨hnext, hcalls⟩
  · rintro ⟨hnext, hcalls⟩
    exact ⟨k, f, hat, hnext, hcalls⟩

theorem Next.unique {ins' : Instruction} (hnext : S.Next k ins) (hnext' : S.Next k ins') :
    ins' = ins := by
  cases hnext.ins.symm.trans hnext'.ins
  rfl

theorem At.not_callsSet (hat : S.At w k f) (hnext : S.Next k ins) (hop : ins.op ≠ .ASET) :
    ¬ S.CallsSet w := by
  rw [hat.callsSet_iff]
  rintro ⟨hset, -⟩
  rw [hset.unique hnext] at hop
  exact hop rfl

theorem takes_iff_step (h : ¬ S.CallsSet w) : S.Takes env w e w' ↔ S.Step env w e w' := by
  constructor
  · intro ht
    cases ht with
    | step _ hstep => exact hstep
    | call hat hnext hcalls => exact absurd ⟨_, _, hat, hnext, hcalls⟩ h
  · exact .step h

theorem Goes.takes (g : S.Goes env w w' e k' f') (h : ¬ S.CallsSet w) (e' : Option RunEvent)
    (w'' : World) : S.Takes env w e' w'' ↔ e' = e ∧ w'' = w' := by
  rw [takes_iff_step h]
  exact g.step e' w''

theorem Reaches.trans (h : S.Reaches env w w') (h' : S.Reaches env w' w'') :
    S.Reaches env w w'' := by
  obtain ⟨tr, hrun⟩ := h
  obtain ⟨tr', hrun'⟩ := h'
  induction hrun with
  | refl => exact ⟨tr', hrun'⟩
  | head hstep _ ih =>
    obtain ⟨tr'', hall⟩ := ih hrun'
    exact ⟨_, .head hstep hall⟩

theorem Reaches.single (h : S.Takes env w e w') : S.Reaches env w w' :=
  ⟨_, .head h (.refl w')⟩

theorem CanAssign.after {known : Entity → Option (List Entity)} (h : S.CanAssign env known w)
    (hreaches : S.Reaches env w w') : S.CanAssign env known w' :=
  fun w₁ k len f hrest => h w₁ k len f (hreaches.trans hrest)

theorem not_ends (h : S.Takes env w e w') : ¬ S.Ends env w := by
  rintro ⟨hcalls, hstops⟩
  exact hstops.2 e w' ((takes_iff_step hcalls).mp h)

theorem progresses_here (hat : S.At w k f) (hsuffix : stack <:+ f.stack)
    (hends : ¬ S.Ends env w) : S.Progresses env stack w (.left todos stage) :=
  ⟨by rw [hat.stackOf]; exact hsuffix, fun h => absurd h hends⟩

theorem takesApart_excused : S.TakesApart env stack .excused w := by
  intro tr w' _
  rw [Progress.excused_after]
  trivial

theorem takesApart_unique (hsteps : ∀ e' w'', S.Takes env w e' w'' ↔ e' = e ∧ w'' = w')
    (hnow : S.Progresses env stack w p) :
    S.TakesApart env stack p w ↔ S.TakesApart env stack (p.after e.toList) w' := by
  unfold TakesApart
  rw [Always.unique hsteps, Progress.after_nil, and_iff_right hnow]
  apply Always.congr
  intro tr w''
  rw [Progress.after_append]

theorem takesApart_goes (hat : S.At w k f) (hcalls : ¬ S.CallsSet w)
    (g : S.Goes env w w' e k' f') (hsuffix : stack <:+ f.stack) :
    S.TakesApart env stack (.left todos stage) w ↔
      S.TakesApart env stack ((Progress.left todos stage).after e.toList) w' := by
  have hsteps := g.takes hcalls
  apply takesApart_unique hsteps
  exact progresses_here hat hsuffix (not_ends ((hsteps e w').mpr ⟨rfl, rfl⟩))

/-- An instruction that shows nothing. -/
theorem At.silent {x : Frame} (env : Env) (hat : S.At w k f) (hnext : S.Next k ins)
    (hop : ins.op ≠ .ASET) (hshown : shown ins f = none)
    (hexec : execute env w S.task S.context ins = some (.next x))
    (htapes : ∀ m, (x.store.modules m).tape = (f.store.modules m).tape) :
    ∃ w', S.At w' (k + 1) x ∧ S.Reaches env w w' ∧ ∀ stack todos stage, stack <:+ f.stack →
      (S.TakesApart env stack (.left todos stage) w ↔
        S.TakesApart env stack (.left todos stage) w') := by
  obtain ⟨w', g⟩ := hat.goes_next env hnext hexec htapes
  rw [hshown] at g
  have hcalls := hat.not_callsSet hnext hop
  refine ⟨w', g.at_, .single ((g.takes hcalls _ _).mpr ⟨rfl, rfl⟩), ?_⟩
  intro stack todos stage hsuffix
  exact takesApart_goes hat hcalls g hsuffix

theorem At.not_callsSet_part {is : List Instruction} {ps : List Piece} (hat : S.At w k f)
    (hlies : S.Lies k (.part is :: ps)) : ¬ S.CallsSet w := by
  rw [hat.callsSet_iff]
  rintro ⟨hnext, -⟩
  exact hnext.own _ hlies.1.1 rfl

theorem takesApart_part {is : List Instruction} {ps : List Piece} (hat : S.At w k f)
    (hlies : S.Lies k (.part is :: ps)) (hsuffix : stack <:+ f.stack) :
    S.TakesApart env stack (.left todos stage) w ↔
      ∀ w' f', S.Evaluates w w' k is.length f f' →
        S.TakesApart env stack (advance todos stage (.evaluated f.resval f'.resval)) w' := by
  have hcalls := hat.not_callsSet_part hlies
  constructor
  · intro h w' f' heval
    have hstep : S.Takes env w (some (.evaluated f.resval f'.resval)) w' :=
      (takes_iff_step hcalls).mpr ((part_step_iff hat hlies _ _).mpr ⟨f', heval, rfl⟩)
    refine (h.after hstep).mono fun tr w'' hP => ?_
    rwa [Progress.after_append, Progress.after_some] at hP
  · intro h
    apply Always.intro
    · exact progresses_here hat hsuffix fun hends => not_stops_part hat hlies hends.2
    · intro e w' htakes
      obtain ⟨f', heval, rfl⟩ := (part_step_iff hat hlies e w').mp ((takes_iff_step hcalls).mp htakes)
      refine (h w' f' heval).mono fun tr w'' hP => ?_
      rwa [Progress.after_append, Progress.after_some]

theorem reaches_part {is : List Instruction} {ps : List Piece} (hat : S.At w k f)
    (hlies : S.Lies k (.part is :: ps)) (heval : S.Evaluates w w' k is.length f f') :
    S.Reaches env w w' := by
  have hstep : S.Step env w (some (.evaluated f.resval f'.resval)) w' :=
    (part_step_iff hat hlies _ w').mpr ⟨f', heval, rfl⟩
  exact .single ((takes_iff_step (hat.not_callsSet_part hlies)).mpr hstep)

/-- The call of the method that sets an element. -/
theorem takesApart_call (hat : S.At w k f) (hnext : S.Next k ⟨.ASET, .noArg⟩)
    (hcalls : f.callsSet = true) (hsuffix : stack <:+ f.stack) :
    S.TakesApart env stack (.left todos stage) w ↔
      ∀ w' f', S.through w w' → S.At w' (k + 1) f' → f'.stack = f.stack.drop 2 →
        S.TakesApart env stack
          ((Progress.left todos stage).after (shown ⟨.ASET, .noArg⟩ f).toList) w' := by
  have hset : S.CallsSet w := hat.callsSet_iff.mpr ⟨hnext, hcalls⟩
  constructor
  · intro h w' f' hthrough hat' hstack
    have hstep : S.Takes env w _ w' := .call hat hnext hcalls hthrough hat' hstack
    refine (h.after hstep).mono fun tr w'' hP => ?_
    rwa [Progress.after_append] at hP
  · intro h
    apply Always.intro
    · exact progresses_here hat hsuffix fun hends => hends.1 hset
    · intro e w' htakes
      cases htakes with
      | step hnot _ => exact absurd hset hnot
      | call hat₁ hnext₁ _ hthrough hat' hstack =>
        cases hat.position_unique hat₁
        cases hat.frame_unique hat₁
        refine (h w' _ hthrough hat' hstack).mono fun tr w'' hP => ?_
        rwa [Progress.after_append]

/-! ## Reading an element -/

/-- Nothing is expected after an element that is not there. -/
theorem takesApart_missing {below : List Entity} (hat : S.At w k f)
    (hnext : S.Next k ⟨.AIDX, .noArg⟩) (hstack : f.stack = todo.value :: below)
    (hindex : f.resval = .int todo.index) (hsuffix : stack <:+ f.stack)
    (he : f.store.elementAt todo.value todo.index = none) :
    S.TakesApart env stack (.left (todo :: rest) .reading) w := by
  have hcalls : ¬ S.CallsSet w := hat.not_callsSet hnext (by simp)
  have hshown : shown ⟨.AIDX, .noArg⟩ f =
      some (.indexed f.store todo.value (.int todo.index)) := by
    simp [shown, hstack, hindex]
  apply Always.intro
  · refine ⟨by rw [hat.stackOf]; exact hsuffix, fun _ => .inr ?_⟩
    rw [hat.store_eq]
    exact he
  · intro e w' htakes
    have hevent : e = some (.indexed f.store todo.value (.int todo.index)) := by
      cases (takes_iff_step hcalls).mp htakes with
      | own hat' hins _ _ =>
        cases hat.position_unique hat'
        cases hat.frame_unique hat'
        cases hnext.ins.symm.trans hins
        rw [event, hshown]
        rfl
      | part hmem heval =>
        cases hat.position_unique heval.start
        exact absurd rfl (hnext.own _ hmem)
    subst hevent
    have hexcused : S.TakesApart env stack .excused w' := takesApart_excused
    refine Always.mono (fun tr w'' hP => ?_) hexcused
    rwa [Progress.after_append, Progress.after_some, advance_missing he]

theorem execute_AIDX {below : List Entity} {e : Entity} (hat : S.At w k f)
    (hstack : f.stack = v :: below) (hindex : f.resval = .int i)
    (he : f.store.elementAt v i = some e) :
    execute env w S.task S.context ⟨.AIDX, .noArg⟩ = some (.next ⟨f.store, e, below⟩) := by
  obtain ⟨table, htable, hi⟩ := Option.bind_eq_some_iff.mp he
  have hlt : i < table.length := (List.getElem?_eq_some_iff.mp hi).1
  cases v with
  | none => cases htable
  | prim p => cases htable
  | obj o =>
    have hin : (0 : Int) ≤ i ∧ (i : Int) < table.length := by omega
    simp only [Store.elements] at htable
    split at htable
    · rename_i table' hcls hinternal
      cases htable
      simp [execute, executeAIDX, hat.frame, Frame.pop, hstack, hindex, hcls, hinternal, indexOf,
        Entity.int, hin, Frame.withResval, hi]
    · rename_i table' hcls hinternal
      cases htable
      simp [execute, executeAIDX, hat.frame, Frame.pop, hstack, hindex, hcls, hinternal, indexOf,
        Entity.int, hin, Frame.withResval, hi]
    · cases htable

/-- The stack after the value has been read for element `i` of `len`. -/
def below (len i : Nat) (v : Entity) (rest : List Entity) : List Entity :=
  if i < len - i then v :: rest else rest

/-- The instructions before `AIDX`. -/
theorem read_value (env : Env) {n : Nat} {stack' : List Entity} (hat : S.At w k f)
    (hstack : f.stack = v :: stack')
    (hlies : S.Lies k [.own ⟨if i < n - i then .PEEK else .RES, .noArg⟩, .own ⟨.PUSH, .noArg⟩,
      .own ⟨.RES, .val (.int i)⟩, .own ⟨.AIDX, .noArg⟩])
    (hsuffix : stack <:+ below n i v stack') :
    ∃ w', S.At w' (k + 3) ⟨f.store, .int i, v :: below n i v stack'⟩ ∧ S.Reaches env w w' ∧
      ∀ todos stage, S.TakesApart env stack (.left todos stage) w ↔
        S.TakesApart env stack (.left todos stage) w' := by
  obtain ⟨hpop, hpush, hres, -⟩ := hlies
  have hsuffix₁ : stack <:+ v :: below n i v stack' := hsuffix.trans (List.suffix_cons ..)
  have hsuffix₀ : stack <:+ f.stack := by
    rw [hstack]
    unfold below at hsuffix
    split at hsuffix
    · exact hsuffix
    · exact hsuffix.trans (List.suffix_cons ..)
  obtain ⟨w₁, hat₁, hreach₁, hiff₁⟩ := hat.silent env hpop (x := ⟨f.store, v, below n i v stack'⟩)
    (by split <;> simp) (by split <;> rfl)
    (by unfold below; split <;> simp [execute, executePEEK, executeRES, hat.frame, Frame.peek,
          Frame.pop, hstack, Frame.withResval]) (fun _ => rfl)
  obtain ⟨w₂, hat₂, hreach₂, hiff₂⟩ := hat₁.silent env hpush
    (x := ⟨f.store, v, v :: below n i v stack'⟩) (by simp) rfl
    (by simp [execute, executePUSH, hat₁.frame, Frame.push]) (fun _ => rfl)
  obtain ⟨w₃, hat₃, hreach₃, hiff₃⟩ := hat₂.silent env hres
    (x := ⟨f.store, .int i, v :: below n i v stack'⟩) (by simp) rfl
    (by simp [execute, executeRES, hat₂.frame, Frame.withResval, Entity.int]) (fun _ => rfl)
  refine ⟨w₃, hat₃, (hreach₁.trans hreach₂).trans hreach₃, ?_⟩
  intro todos stage
  rw [hiff₁ stack todos stage hsuffix₀, hiff₂ stack todos stage hsuffix,
    hiff₃ stack todos stage hsuffix₁]

theorem read_present (env : Env) {n : Nat} {stack' : List Entity} {e : Entity} (hat : S.At w k f)
    (hstack : f.stack = v :: stack')
    (hlies : S.Lies k [.own ⟨if i < n - i then .PEEK else .RES, .noArg⟩, .own ⟨.PUSH, .noArg⟩,
      .own ⟨.RES, .val (.int i)⟩, .own ⟨.AIDX, .noArg⟩])
    (hsuffix : stack <:+ below n i v stack') (he : f.store.elementAt v i = some e) :
    ∃ w', S.At w' (k + 4) ⟨f.store, e, below n i v stack'⟩ ∧ S.Reaches env w w' ∧
      (S.TakesApart env stack (.left (⟨v, i, target⟩ :: rest) .reading) w ↔
        S.TakesApart env stack (Todo.given ⟨v, i, target⟩ rest e) w') := by
  obtain ⟨w₁, hat₁, hreach, hiff⟩ := read_value env hat hstack hlies hsuffix
  have hnext := hlies.2.2.2.1
  have hcalls := hat₁.not_callsSet hnext (by simp)
  obtain ⟨w₂, g₂⟩ := hat₁.goes_next env hnext (execute_AIDX hat₁ rfl rfl he) (fun _ => rfl)
  refine ⟨w₂, g₂.at_, hreach.trans (.single ((g₂.takes hcalls _ _).mpr ⟨rfl, rfl⟩)), ?_⟩
  have hread : (Progress.left (⟨v, i, target⟩ :: rest) .reading).after
      (shown ⟨.AIDX, .noArg⟩ ⟨f.store, .int i, v :: below n i v stack'⟩).toList =
        Todo.given ⟨v, i, target⟩ rest e := advance_read he
  rw [hiff, takesApart_goes hat₁ hcalls g₂ (hsuffix.trans (List.suffix_cons ..)), hread]

theorem read_absent {n : Nat} {stack' : List Entity} (hat : S.At w k f)
    (hstack : f.stack = v :: stack')
    (hlies : S.Lies k [.own ⟨if i < n - i then .PEEK else .RES, .noArg⟩, .own ⟨.PUSH, .noArg⟩,
      .own ⟨.RES, .val (.int i)⟩, .own ⟨.AIDX, .noArg⟩])
    (hsuffix : stack <:+ below n i v stack') (he : f.store.elementAt v i = none) :
    S.TakesApart env stack (.left (⟨v, i, target⟩ :: rest) .reading) w := by
  obtain ⟨w₁, hat₁, -, hiff⟩ := read_value env hat hstack hlies hsuffix
  rw [hiff]
  exact takesApart_missing hat₁ hlies.2.2.2.1 rfl rfl (hsuffix.trans (List.suffix_cons ..)) he

/-! ## Variables -/

theorem contextSet_eq (s : Store) (cs : Contexts) (c : ContextId) (id : String) (e : Entity) :
    ∃ o, contextSet s cs c id e = s.setMember o id e := by
  unfold contextSet
  dsimp only
  split
  · exact ⟨_, rfl⟩
  · split
    · exact ⟨_, rfl⟩
    · split <;> exact ⟨_, rfl⟩

theorem elements_setMember (s : Store) (o : ObjectId) (id : String) (e : Entity) :
    (s.setMember o id e).elements = s.elements := by
  funext v
  cases v with
  | obj o' => simp [Store.elements, Store.cls_setMember, Store.internal_setMember]
  | none => rfl
  | prim p => rfl

theorem has_setMember {s : Store} {known : Entity → Option (List Entity)} (h : s.Has known)
    (o : ObjectId) (id : String) (e : Entity) : (s.setMember o id e).Has known := by
  intro v table hv
  rw [elements_setMember]
  exact h v table hv

/-- `SET` on a variable that is not const. -/
theorem goes_setVar (env : Env) {token : Token} (hat : S.At w k f)
    (hnext : S.Next k ⟨.SET, .id token.text⟩) :
    ∃ w' o, S.Goes env w w' (some (.setVar token.text f.resval)) (k + 1)
      { f with store := f.store.setMember o token.text f.resval } := by
  have hresval : (w.tasks (w.contexts.context S.context).parentTask).resval = f.resval := by
    rw [hat.context]
    simp only [hat.parent]
    exact congrArg Frame.resval hat.frame
  have hexec : execute env w S.task S.context ⟨.SET, .id token.text⟩ =
      some (.next { f with
        store := contextSet f.store w.contexts S.context token.text f.resval }) := by
    simp [execute, executeSET, hat.frame, hresval]
  obtain ⟨o, ho⟩ := contextSet_eq f.store w.contexts S.context token.text f.resval
  rw [ho] at hexec
  obtain ⟨w', g⟩ := hat.goes_next env hnext hexec fun _ => rfl
  exact ⟨w', o, g⟩

/-! ## Fields and indexed elements -/

section Store

variable {arr e : Entity} {below : List Entity} {o : ObjectId} {id : String}

/-- `FLD` sets the field of the object. -/
theorem goes_storeField (env : Env) (hat : S.At w k f) (hnext : S.Next k ⟨.FLD, .id id⟩)
    (hobject : f.resval = .obj o) (hstack : f.stack = e :: below) :
    ∃ w', S.Goes env w w' (some (.setField f.resval id e)) (k + 1)
      ⟨f.store.setMember o id e, f.resval, below⟩ := by
  have hexec : execute env w S.task S.context ⟨.FLD, .id id⟩ =
      some (.next ⟨f.store.setMember o id e, f.resval, below⟩) := by
    simp [execute, executeFLD, hat.frame, hobject, Frame.pop, hstack]
  obtain ⟨w', g⟩ := hat.goes_next env hnext hexec fun _ => rfl
  have hshown : shown ⟨.FLD, .id id⟩ f = some (.setField f.resval id e) := by
    simp [shown, hstack]
  rw [hshown] at g
  exact ⟨w', g⟩

theorem settable_of_callsSet (hcalls : f.callsSet = true) (hstack : f.stack = arr :: e :: below)
    (index : Entity) : f.store.settable arr index = true := by
  unfold Frame.callsSet at hcalls
  rw [hstack] at hcalls
  cases arr with
  | obj o =>
    obtain ⟨hcls, hmethod⟩ := Bool.and_eq_true_iff.mp hcalls
    simp only [bne_iff_ne, ne_eq] at hcls
    unfold Store.settable
    dsimp only
    split
    · rename_i hcls' _
      exact absurd hcls' hcls
    · rename_i hcls' _
      exact absurd hcls' hcls
    · exact hmethod
  | _ => cases hcalls

/-- `ASET` sets the element of an array. -/
theorem goes_storeIndexed (env : Env) (hat : S.At w k f) (hnext : S.Next k ⟨.ASET, .noArg⟩)
    (hstack : f.stack = arr :: e :: below) (hsettable : f.store.settable arr f.resval = true)
    (hcalls : f.callsSet = false) :
    ∃ w' s, S.Goes env w w' (some (.setIndexed f.store arr f.resval e)) (k + 1)
      ⟨s, f.resval, below⟩ := by
  have hshown : shown ⟨.ASET, .noArg⟩ f = some (.setIndexed f.store arr f.resval e) := by
    simp [shown, hstack]
  cases arr with
  | none => cases hsettable
  | prim p => cases hsettable
  | obj o =>
    unfold Store.settable at hsettable
    dsimp only at hsettable
    split at hsettable
    · rename_i table hcls hinternal
      split at hsettable
      · rename_i n hindex
        have hn : ¬ n < 0 := by simpa using hsettable
        have hexec : execute env w S.task S.context ⟨.ASET, .noArg⟩ =
            some (.next ⟨f.store.setInternal o (.array (env.arraySetRef table n.toNat e)),
              f.resval, below⟩) := by
          simp [execute, executeASET, hat.frame, hstack, hcls, hinternal, hindex, hn]
        obtain ⟨w', g⟩ := hat.goes_next env hnext hexec fun _ => rfl
        rw [hshown] at g
        exact ⟨w', _, g⟩
      · cases hsettable
    · cases hsettable
    · rename_i hnot _
      have hcls : f.store.cls o ≠ .Array := hnot
      have htrue : f.callsSet = true := by
        simp [Frame.callsSet, hstack, hcls, hsettable]
      cases hcalls.symm.trans htrue

/-- The method of the class is looked for in all objects but arrays. -/
theorem settable_other {s : Store} (hcls : s.cls o ≠ .Array) (index : Entity) :
    s.settable (.obj o) index = (s.classGetFunction (s.cls o) "__set__").isSome := by
  cases hclass : s.cls o with
  | Array => exact absurd hclass hcls
  | _ => simp only [Store.settable, hclass]

theorem executeASET_array {table : List Entity} (env : Env) (w : World) (t : TaskId)
    (c : ContextId) (hstack : f.stack = .obj o :: e :: below) (hcls : f.store.cls o = .Array)
    (hinternal : f.store.internal o = .array table)
    (hsettable : f.store.settable (.obj o) f.resval = false) :
    ∃ f' err, executeASET env w t c f = some (.raise f' err) := by
  simp only [Store.settable, hcls, hinternal] at hsettable
  simp only [executeASET, hstack, hcls, hinternal]
  cases hresval : f.resval with
  | none => exact ⟨_, _, rfl⟩
  | obj index => exact ⟨_, _, rfl⟩
  | prim p =>
    cases p with
    | float bits => exact ⟨_, _, rfl⟩
    | char n => exact ⟨_, _, rfl⟩
    | int n =>
      rw [hresval] at hsettable
      have hn : n < 0 := by simpa using hsettable
      simp only [if_pos hn]
      exact ⟨_, _, rfl⟩

theorem executeASET_other (env : Env) (w : World) (t : TaskId) (c : ContextId)
    (hstack : f.stack = .obj o :: e :: below) (hcls : f.store.cls o ≠ .Array)
    (hmethod : f.store.classGetFunction (f.store.cls o) "__set__" = none) :
    ∃ f' err, executeASET env w t c f = some (.raise f' err) := by
  cases hclass : f.store.cls o with
  | Array => exact absurd hclass hcls
  | _ =>
    rw [hclass] at hmethod
    simp only [executeASET, hstack, hclass, hmethod]
    exact ⟨_, _, rfl⟩

/-- What cannot be set raises an error, or stops the virtual machine. -/
theorem execute_not_settable (env : Env) (hat : S.At w k f) (hstack : f.stack = arr :: e :: below)
    (hsettable : f.store.settable arr f.resval = false) :
    execute env w S.task S.context ⟨.ASET, .noArg⟩ = none ∨
      ∃ f' err, execute env w S.task S.context ⟨.ASET, .noArg⟩ = some (.raise f' err) := by
  simp only [execute, hat.frame]
  cases arr with
  | none =>
    simp only [executeASET, hstack]
    exact .inr ⟨_, _, rfl⟩
  | prim p =>
    simp only [executeASET, hstack]
    exact .inr ⟨_, _, rfl⟩
  | obj o =>
    by_cases hcls : f.store.cls o = .Array
    · cases hinternal : f.store.internal o with
      | array table =>
        exact .inr (executeASET_array env w S.task S.context hstack hcls hinternal hsettable)
      | _ => exact .inl (by simp only [executeASET, hstack, hcls, hinternal])
    · rw [settable_other hcls, Option.isSome_eq_false_iff, Option.isNone_iff_eq_none] at hsettable
      exact .inr (executeASET_other env w S.task S.context hstack hcls hsettable)

theorem advance_setField {token id : Token} {x : Entity}
    (hlast : todo.target.lastSuffix = some (.field token id)) :
    advance (todo :: rest) (.object e x) (.setField x id.text e) =
      match x with
      | .obj _ => .left rest .reading
      | _ => .excused := by
  simp only [advance, hlast, and_self, if_true]

theorem advance_setIndexed {s : Store} {x : Entity} :
    advance (todo :: rest) (.index e arr x) (.setIndexed s arr x e) =
      if s.settable arr x then .left rest .reading else .excused := by
  simp [advance]

/-- `FLD` where there is an object. -/
theorem store_field (env : Env) {token id : Token} (hat : S.At w k f)
    (hnext : S.Next k ⟨.FLD, .id id.text⟩) (hobject : f.resval = .obj o)
    (hstack : f.stack = e :: below) (hsuffix : stack <:+ f.stack)
    (hlast : todo.target.lastSuffix = some (.field token id)) :
    ∃ w', S.At w' (k + 1) ⟨f.store.setMember o id.text e, f.resval, below⟩ ∧
      S.Reaches env w w' ∧
        (S.TakesApart env stack (.left (todo :: rest) (.object e f.resval)) w ↔
          S.TakesApart env stack (.left rest .reading) w') := by
  obtain ⟨w', g⟩ := goes_storeField env hat hnext hobject hstack
  have hcalls := hat.not_callsSet hnext (by simp)
  refine ⟨w', g.at_, .single ((g.takes hcalls _ _).mpr ⟨rfl, rfl⟩), ?_⟩
  rw [takesApart_goes hat hcalls g hsuffix, Progress.after_some, advance_setField hlast, hobject]

theorem sound_field {token id : Token} (hat : S.At w k f)
    (hnext : S.Next k ⟨.FLD, .id id.text⟩) (hstack : f.stack = e :: below)
    (hsuffix : stack <:+ f.stack) (hlast : todo.target.lastSuffix = some (.field token id))
    (hrest : ∀ w' f', S.At w' (k + 1) f' → f'.stack = below →
      S.TakesApart env stack (.left rest .reading) w') :
    S.TakesApart env stack (.left (todo :: rest) (.object e f.resval)) w := by
  by_cases hobject : ∃ o, f.resval = .obj o
  · obtain ⟨o, ho⟩ := hobject
    obtain ⟨w', hat', -, hiff⟩ := store_field env hat hnext ho hstack hsuffix hlast
    exact hiff.mpr (hrest w' _ hat' rfl)
  · have hexec : ∃ f' err, execute env w S.task S.context ⟨.FLD, .id id.text⟩ =
        some (.raise f' err) := by
      simp only [execute, executeFLD, hat.frame]
      split
      · rename_i o ho
        exact absurd ⟨o, ho⟩ hobject
      · exact ⟨_, _, rfl⟩
    obtain ⟨f', err, hexec⟩ := hexec
    obtain ⟨w', hstep, -⟩ := hat.goes_error hnext hexec
    have hcalls := hat.not_callsSet hnext (by simp)
    have hshown : shown ⟨.FLD, .id id.text⟩ f = some (.setField f.resval id.text e) := by
      simp [shown, hstack]
    rw [hshown] at hstep
    have hsteps : ∀ e' w'', S.Takes env w e' w'' ↔
        e' = some (.setField f.resval id.text e) ∧ w'' = w' := by
      intro e' w''
      rw [takes_iff_step hcalls]
      exact hstep e' w''
    rw [takesApart_unique hsteps (progresses_here hat hsuffix
      (not_ends ((hsteps _ _).mpr ⟨rfl, rfl⟩))), Progress.after_some, advance_setField hlast]
    cases hresval : f.resval with
    | obj o => exact absurd ⟨o, hresval⟩ hobject
    | none => exact takesApart_excused
    | prim p => exact takesApart_excused

/-- `ASET` where the array takes the element. -/
theorem store_element (env : Env) (hat : S.At w k f) (hnext : S.Next k ⟨.ASET, .noArg⟩)
    (hstack : f.stack = arr :: e :: below) (hsuffix : stack <:+ f.stack)
    (hsettable : f.store.settable arr f.resval = true) (hcalls : f.callsSet = false) :
    ∃ w' s, S.At w' (k + 1) ⟨s, f.resval, below⟩ ∧ S.Reaches env w w' ∧
      (∀ e' w'', S.Takes env w e' w'' → w'' = w') ∧
      (S.TakesApart env stack (.left (todo :: rest) (.index e arr f.resval)) w ↔
        S.TakesApart env stack (.left rest .reading) w') := by
  obtain ⟨w', s, g⟩ := goes_storeIndexed env hat hnext hstack hsettable hcalls
  have hnot : ¬ S.CallsSet w := by
    rw [hat.callsSet_iff, hcalls]
    exact fun h => Bool.false_ne_true h.2
  have hsteps := g.takes hnot
  refine ⟨w', s, g.at_, .single ((hsteps _ _).mpr ⟨rfl, rfl⟩), ?_, ?_⟩
  · intro e' w'' htakes
    exact ((hsteps e' w'').mp htakes).2
  · rw [takesApart_goes hat hnot g hsuffix, Progress.after_some, advance_setIndexed,
      if_pos hsettable]

theorem shown_ASET (hstack : f.stack = arr :: e :: below) :
    shown ⟨.ASET, .noArg⟩ f = some (.setIndexed f.store arr f.resval e) := by
  simp [shown, hstack]

theorem takesApart_callsSet (hat : S.At w k f) (hnext : S.Next k ⟨.ASET, .noArg⟩)
    (hstack : f.stack = arr :: e :: below) (hsuffix : stack <:+ f.stack)
    (hcalls : f.callsSet = true) :
    S.TakesApart env stack (.left (todo :: rest) (.index e arr f.resval)) w ↔
      ∀ w' f', S.through w w' → S.At w' (k + 1) f' → f'.stack = below →
        S.TakesApart env stack (.left rest .reading) w' := by
  have hsettable := settable_of_callsSet hcalls hstack f.resval
  rw [takesApart_call hat hnext hcalls hsuffix, shown_ASET hstack, Progress.after_some,
    advance_setIndexed, if_pos hsettable, hstack]
  rfl

/-- An element that cannot be set is the end of the run. -/
theorem takesApart_not_settable (hat : S.At w k f) (hnext : S.Next k ⟨.ASET, .noArg⟩)
    (hstack : f.stack = arr :: e :: below) (hsuffix : stack <:+ f.stack)
    (hsettable : f.store.settable arr f.resval = false) :
    S.TakesApart env stack (.left (todo :: rest) (.index e arr f.resval)) w ∧
      ∀ e' w', S.Takes env w e' w' → ∀ k f, ¬ S.At w' k f := by
  have hnot : ¬ S.CallsSet w := by
    rw [hat.callsSet_iff]
    rintro ⟨-, hcalls⟩
    exact Bool.false_ne_true (hsettable.symm.trans (settable_of_callsSet hcalls hstack f.resval))
  obtain hstuck | ⟨f', err, hraise⟩ := execute_not_settable env hat hstack hsettable
  · have hstop := hat.no_step hnext hstuck
    have hnone : ∀ e' w', ¬ S.Takes env w e' w' := by
      intro e' w' htakes
      exact hstop.2 e' w' ((takes_iff_step hnot).mp htakes)
    constructor
    · apply Always.intro
      · refine ⟨by rw [hat.stackOf]; exact hsuffix, fun _ => .inr ?_⟩
        rw [hat.store_eq]
        exact hsettable
      · intro e' w' htakes
        exact absurd htakes (hnone e' w')
    · intro e' w' htakes
      exact absurd htakes (hnone e' w')
  · obtain ⟨w', hstep, hgone⟩ := hat.goes_error hnext hraise
    rw [shown_ASET hstack] at hstep
    have hsteps : ∀ e' w'', S.Takes env w e' w'' ↔
        e' = some (.setIndexed f.store arr f.resval e) ∧ w'' = w' := by
      intro e' w''
      rw [takes_iff_step hnot]
      exact hstep e' w''
    constructor
    · rw [takesApart_unique hsteps (progresses_here hat hsuffix
        (not_ends ((hsteps _ _).mpr ⟨rfl, rfl⟩))), Progress.after_some, advance_setIndexed,
        hsettable]
      exact takesApart_excused
    · intro e' w'' htakes
      rw [((hsteps e' w'').mp htakes).2]
      exact hgone

theorem sound_element (hat : S.At w k f) (hnext : S.Next k ⟨.ASET, .noArg⟩)
    (hstack : f.stack = arr :: e :: below) (hsuffix : stack <:+ f.stack)
    (hrest : ∀ w' f', S.At w' (k + 1) f' → f'.stack = below →
      S.TakesApart env stack (.left rest .reading) w') :
    S.TakesApart env stack (.left (todo :: rest) (.index e arr f.resval)) w := by
  cases hsettable : f.store.settable arr f.resval with
  | false => exact (takesApart_not_settable hat hnext hstack hsuffix hsettable).1
  | true =>
    cases hcalls : f.callsSet with
    | true =>
      rw [takesApart_callsSet hat hnext hstack hsuffix hcalls]
      intro w' f' _ hat' hstack'
      exact hrest w' f' hat' hstack'
    | false =>
      obtain ⟨w', s, hat', -, -, hiff⟩ := store_element env hat hnext hstack hsuffix hsettable hcalls
      exact hiff.mpr (hrest w' _ hat' rfl)

/-- Where `ASET` can be carried out the run goes on behind it. -/
theorem forward_element {known : Entity → Option (List Entity)} (hat : S.At w k f)
    (hnext : S.Next k ⟨.ASET, .noArg⟩) (hstack : f.stack = arr :: e :: below)
    (hsuffix : stack <:+ f.stack) (hcan : S.CanStore env known w k f)
    (h : S.TakesApart env stack (.left (todo :: rest) (.index e arr f.resval)) w) :
    ∃ w' f', S.At w' (k + 1) f' ∧ f'.stack = below ∧ f'.store.Has known ∧ S.Reaches env w w' ∧
      S.TakesApart env stack (.left rest .reading) w' := by
  obtain ⟨e', w', f', htakes, hat', hhas⟩ := hcan.element hnext
  cases hsettable : f.store.settable arr f.resval with
  | false =>
    obtain ⟨-, hgone⟩ : S.TakesApart env stack (.left (todo :: rest) (.index e arr f.resval)) w ∧
        ∀ e' w', S.Takes env w e' w' → ∀ k f, ¬ S.At w' k f :=
      takesApart_not_settable hat hnext hstack hsuffix hsettable
    exact absurd hat' (hgone e' w' htakes _ _)
  | true =>
    cases hcalls : f.callsSet with
    | true =>
      rw [takesApart_callsSet hat hnext hstack hsuffix hcalls] at h
      cases htakes with
      | step hnot _ => exact absurd (hat.callsSet_iff.mpr ⟨hnext, hcalls⟩) hnot
      | call hat₁ hnext₁ _ hthrough hat₂ hstack₂ =>
        cases hat.position_unique hat₁
        cases hat.frame_unique hat₁
        cases hat'.frame_unique hat₂
        rw [hstack] at hstack₂
        have hreaches : S.Reaches env w w' := .single (.call hat hnext hcalls hthrough hat'
          (by rw [hstack₂, hstack]))
        exact ⟨w', f', hat', hstack₂, hhas, hreaches, h w' f' hthrough hat' hstack₂⟩
    | false =>
      obtain ⟨w₁, s, hat₁, hreaches, hunique, hiff⟩ :=
        store_element env hat hnext hstack hsuffix hsettable hcalls
      cases hunique e' w' htakes
      cases hat₁.frame_unique hat'
      exact ⟨w', _, hat', rfl, hhas, hreaches, hiff.mp h⟩

end Store

/-! ## One target -/

variable (env S) in
/-- The code of the target assigns the element in `resval` to it, or takes it apart. -/
def Sound (target : Assignment) : Prop :=
  ∀ stack v i rest w k f, S.At w k f → S.Lies k target.targetPieces → stack <:+ f.stack →
    (∀ w' f', S.At w' (k + Piece.size target.targetPieces) f' → f'.stack = f.stack →
      S.TakesApart env stack (.left rest .reading) w') →
    S.TakesApart env stack (Todo.given ⟨v, i, target⟩ rest f.resval) w

variable (env S) in
/-- Where the element in `resval` is assigned to the target or taken apart, the target is short
and the run can go on after its code. -/
def Forward (known : Entity → Option (List Entity)) (target : Assignment) : Prop :=
  ∀ stack v i rest w k f, S.At w k f → S.Lies k target.targetPieces → stack <:+ f.stack →
    target.Fits known f.resval → f.store.Has known → S.CanAssign env known w →
    S.TakesApart env stack (Todo.given ⟨v, i, target⟩ rest f.resval) w →
    target.isShort = true ∧ ∃ w' f', S.At w' (k + Piece.size target.targetPieces) f' ∧
      f'.stack = f.stack ∧ f'.store.Has known ∧ S.Reaches env w w' ∧
        S.TakesApart env stack (.left rest .reading) w'

variable {known : Entity → Option (List Entity)}

theorem goes_var (env : Env) {token : Token} (hname : token.isName = true) (hat : S.At w k f)
    (hlies : S.Lies k (Assignment.var false token).targetPieces) (hsuffix : stack <:+ f.stack) :
    ∃ w' o, S.At w' (k + 1) { f with store := f.store.setMember o token.text f.resval } ∧
      S.Reaches env w w' ∧
        (S.TakesApart env stack (.left (⟨v, i, .var false token⟩ :: rest) (.given f.resval)) w ↔
          S.TakesApart env stack (.left rest .reading) w') := by
  simp only [Assignment.targetPieces, argOfToken_of_isName hname] at hlies
  obtain ⟨w', o, g⟩ := goes_setVar env hat hlies.1
  have hcalls := hat.not_callsSet hlies.1 (by simp)
  refine ⟨w', o, g.at_, .single ((g.takes hcalls _ _).mpr ⟨rfl, rfl⟩), ?_⟩
  have hadvance : advance (⟨v, i, .var false token⟩ :: rest) (.given f.resval)
      (.setVar token.text f.resval) = .left rest .reading := by
    simp [advance]
  rw [takesApart_goes hat hcalls g hsuffix, Progress.after_some, hadvance]

theorem sound_var {token : Token} (hname : token.isName = true) :
    S.Sound env (.var false token) := by
  intro stack v i rest w k f hat hlies hsuffix hrest
  obtain ⟨w', o, hat', -, hiff⟩ := goes_var env hname hat hlies hsuffix
  exact hiff.mpr (hrest w' _ hat' rfl)

theorem forward_var {isConst : Bool} {token : Token} (hname : token.isName = true) :
    S.Forward env known (.var isConst token) := by
  intro stack v i rest w k f hat hlies hsuffix _ hhas _ h
  cases isConst with
  | true =>
    simp only [Assignment.targetPieces, argOfToken_of_isName hname] at hlies
    have hstop : S.Stops env w := hat.no_step hlies.1 (by simp [execute])
    obtain ⟨hnil, -⟩ | hnone := h.now.2 ⟨hat.not_callsSet hlies.1 (by simp), hstop⟩
    · cases hnil
    · exact hnone.elim
  | false =>
    obtain ⟨w', o, hat', hreaches, hiff⟩ := goes_var env hname hat hlies hsuffix
    exact ⟨rfl, w', _, hat', rfl, has_setMember hhas o _ _, hreaches, hiff.mp h⟩

section Complex

variable {prefixExp : ExpressionTree} {suffixes : List Postfix} {last : Postfix}

theorem last_of_wellFormed (hwf : (Assignment.complex prefixExp suffixes).WellFormed) :
    ∃ last, suffixes.getLast? = some last ∧ last.Stores := by
  obtain ⟨-, hends, hlast⟩ := hwf
  cases hsuffixes : suffixes.getLast? with
  | none =>
    rw [List.getLast?_eq_none_iff] at hsuffixes
    subst hsuffixes
    cases hends
  | some last => exact ⟨last, rfl, hlast last hsuffixes⟩

theorem targetPieces_complex (hlast : suffixes.getLast? = some last) :
    (Assignment.complex prefixExp suffixes).targetPieces = .own ⟨.PUSH, .noArg⟩ ::
      .part (Assignment.objectCode prefixExp suffixes) :: last.storePieces := by
  rw [Assignment.targetPieces, hlast]
  rfl

/-- The value is pushed before an object or an index is evaluated. -/
theorem push_value (env : Env) (hat : S.At w k f) (hnext : S.Next k ⟨.PUSH, .noArg⟩) :
    ∃ w', S.At w' (k + 1) ⟨f.store, f.resval, f.resval :: f.stack⟩ ∧ S.Reaches env w w' ∧
      ∀ stack todos stage, stack <:+ f.stack →
        (S.TakesApart env stack (.left todos stage) w ↔
          S.TakesApart env stack (.left todos stage) w') :=
  hat.silent env hnext (by simp) rfl (by simp [execute, executePUSH, hat.frame, Frame.push])
    (fun _ => rfl)

theorem sound_complex (hwf : (Assignment.complex prefixExp suffixes).WellFormed) :
    S.Sound env (.complex prefixExp suffixes) := by
  intro stack v i rest w k f hat hlies hsuffix hrest
  obtain ⟨last, hlast, hstores⟩ := last_of_wellFormed hwf
  have htarget : (Todo.mk v i (.complex prefixExp suffixes)).target.lastSuffix = some last := hlast
  rw [targetPieces_complex hlast] at hlies hrest
  obtain ⟨hpush, hobject⟩ := hlies
  obtain ⟨w₁, hat₁, -, hiff₁⟩ := push_value env hat hpush
  have hsuffix₁ : stack <:+ f.resval :: f.stack := hsuffix.trans (List.suffix_cons ..)
  change S.TakesApart env stack (.left _ (.given f.resval)) w
  rw [hiff₁ _ _ _ hsuffix, takesApart_part hat₁ hobject hsuffix₁]
  intro w₂ f₂ heval
  change S.TakesApart env stack (.left _ (.object f.resval f₂.resval)) w₂
  have hat₂ := heval.finish
  have hstack₂ : f₂.stack = f.resval :: f.stack := heval.stack
  have hsuffix₂ : stack <:+ f₂.stack := by rwa [hstack₂]
  cases last with
  | field token id =>
    have hname : id.isName = true := hstores
    obtain ⟨hnext, -⟩ := hobject.2
    rw [argOfToken_of_isName hname] at hnext
    apply sound_field hat₂ hnext hstack₂ hsuffix₂ htarget
    intro w' f' hat' hstack'
    apply hrest w' f' _ hstack'
    simpa [Postfix.storePieces, Nat.add_assoc] using hat'
  | arrayIndex token exp =>
    obtain ⟨hpush₂, hindex, hset, -⟩ := hobject.2
    obtain ⟨w₃, hat₃, -, hiff₃⟩ := push_value env hat₂ hpush₂
    have hsuffix₃ : stack <:+ f₂.resval :: f₂.stack := hsuffix₂.trans (List.suffix_cons ..)
    have hlies₃ : S.Lies (k + 1 + (Assignment.objectCode prefixExp suffixes).length + 1)
        [.part (lower exp).code, .own ⟨.ASET, .noArg⟩] := ⟨hindex, hset, trivial⟩
    rw [hiff₃ _ _ _ hsuffix₂, takesApart_part hat₃ hlies₃ hsuffix₃]
    intro w₄ f₄ heval₄
    have hstack₄ : f₄.stack = f₂.resval :: f.resval :: f.stack := by rw [heval₄.stack, hstack₂]
    have hadvance : advance (⟨v, i, .complex prefixExp suffixes⟩ :: rest)
        (.object f.resval f₂.resval) (.evaluated f₂.resval f₄.resval) =
          .left (⟨v, i, .complex prefixExp suffixes⟩ :: rest)
            (.index f.resval f₂.resval f₄.resval) := by
      simp only [advance, htarget]
    rw [hadvance]
    apply sound_element heval₄.finish hset hstack₄ (by rwa [heval₄.stack])
    intro w' f' hat' hstack'
    apply hrest w' f' _ hstack'
    simpa [Postfix.storePieces, Nat.add_assoc] using hat'
  | _ => exact hstores.elim

theorem forward_complex (hwf : (Assignment.complex prefixExp suffixes).WellFormed) :
    S.Forward env known (.complex prefixExp suffixes) := by
  intro stack v i rest w k f hat hlies hsuffix _ hhas hcan h
  refine ⟨rfl, ?_⟩
  obtain ⟨last, hlast, hstores⟩ := last_of_wellFormed hwf
  have htarget : (Todo.mk v i (.complex prefixExp suffixes)).target.lastSuffix = some last := hlast
  rw [targetPieces_complex hlast] at hlies ⊢
  obtain ⟨hpush, hobject⟩ := hlies
  obtain ⟨w₁, hat₁, hreach₁, hiff₁⟩ := push_value env hat hpush
  have hsuffix₁ : stack <:+ f.resval :: f.stack := hsuffix.trans (List.suffix_cons ..)
  change S.TakesApart env stack (.left _ (.given f.resval)) w at h
  rw [hiff₁ _ _ _ hsuffix, takesApart_part hat₁ hobject hsuffix₁] at h
  obtain ⟨w₂, f₂, heval, hhas₂, hstore₂⟩ := hcan w₁ _ _ _ hreach₁ hat₁ hhas hobject.1.1
  have h₂ : S.TakesApart env stack (.left (⟨v, i, .complex prefixExp suffixes⟩ :: rest)
      (.object f.resval f₂.resval)) w₂ := h w₂ f₂ heval
  have hreach₂ := hreach₁.trans (reaches_part hat₁ hobject heval)
  have hat₂ := heval.finish
  have hstack₂ : f₂.stack = f.resval :: f.stack := heval.stack
  have hsuffix₂ : stack <:+ f₂.stack := by rwa [hstack₂]
  cases last with
  | field token id =>
    have hname : id.isName = true := hstores
    obtain ⟨hnext, -⟩ := hobject.2
    rw [argOfToken_of_isName hname] at hnext
    obtain ⟨o, ho⟩ := hstore₂.field _ hnext
    obtain ⟨w₃, hat₃, hreach₃, hiff₃⟩ := store_field env hat₂ hnext ho hstack₂ hsuffix₂ htarget
    refine ⟨w₃, ⟨f₂.store.setMember o id.text f.resval, f₂.resval, f.stack⟩, ?_, rfl,
      has_setMember hhas₂ o _ _, hreach₂.trans hreach₃, hiff₃.mp h₂⟩
    simpa [Postfix.storePieces, Nat.add_assoc] using hat₃
  | arrayIndex token exp =>
    obtain ⟨hpush₂, hindex, hset, -⟩ := hobject.2
    obtain ⟨w₃, hat₃, hreach₃, hiff₃⟩ := push_value env hat₂ hpush₂
    have hsuffix₃ : stack <:+ f₂.resval :: f₂.stack := hsuffix₂.trans (List.suffix_cons ..)
    have hlies₃ : S.Lies (k + 1 + (Assignment.objectCode prefixExp suffixes).length + 1)
        [.part (lower exp).code, .own ⟨.ASET, .noArg⟩] := ⟨hindex, hset, trivial⟩
    rw [hiff₃ _ _ _ hsuffix₂, takesApart_part hat₃ hlies₃ hsuffix₃] at h₂
    have hreach₃ := hreach₂.trans hreach₃
    obtain ⟨w₄, f₄, heval₄, hhas₄, hstore₄⟩ := hcan w₃ _ _ _ hreach₃ hat₃ hhas₂ hindex.1
    have hstack₄ : f₄.stack = f₂.resval :: f.resval :: f.stack := by rw [heval₄.stack, hstack₂]
    have hadvance : advance (⟨v, i, .complex prefixExp suffixes⟩ :: rest)
        (.object f.resval f₂.resval) (.evaluated f₂.resval f₄.resval) =
          .left (⟨v, i, .complex prefixExp suffixes⟩ :: rest)
            (.index f.resval f₂.resval f₄.resval) := by
      simp only [advance, htarget]
    have h₄ := h₂ w₄ f₄ heval₄
    rw [hadvance] at h₄
    obtain ⟨w₅, f₅, hat₅, hstack₅, hhas₅, hreach₅, h₅⟩ := forward_element heval₄.finish hset
      hstack₄ (by rwa [heval₄.stack]) hstore₄ h₄
    have hreach₄ := hreach₃.trans (reaches_part hat₃ hlies₃ heval₄)
    refine ⟨w₅, f₅, ?_, hstack₅, hhas₅, hreach₄.trans hreach₅, h₅⟩
    simpa [Postfix.storePieces, Nat.add_assoc] using hat₅
  | _ => exact hstores.elim

end Complex

/-! ## One round of the loop -/

section Round

variable {n : Nat} {subargs : List Assignment} {stack' : List Entity} {table : List Entity}

theorem lies_round (hlies : S.Lies k (subargPieces n i (target :: subargs))) :
    S.Lies k [.own ⟨if i < n - i then .PEEK else .RES, .noArg⟩, .own ⟨.PUSH, .noArg⟩,
      .own ⟨.RES, .val (.int i)⟩, .own ⟨.AIDX, .noArg⟩] ∧
      S.Lies (k + 4) target.targetPieces ∧
      S.Lies (k + 4 + Piece.size target.targetPieces) (subargPieces n (i + 1) subargs) := by
  rw [subargPieces, lies_append, lies_append] at hlies
  refine ⟨hlies.1.1, hlies.1.2, ?_⟩
  have hrest := hlies.2
  rw [Piece.size_append, ← Nat.add_assoc] at hrest
  exact hrest

theorem round_sound (hat : S.At w k f) (hstack : f.stack = v :: stack')
    (hlies : S.Lies k (subargPieces n i (target :: subargs))) (htarget : S.Sound env target)
    (hsuffix : stack <:+ below n i v stack')
    (hrest : ∀ w' f', S.At w' (k + 4 + Piece.size target.targetPieces) f' →
      f'.stack = below n i v stack' → S.TakesApart env stack (.left rest .reading) w') :
    S.TakesApart env stack (.left (⟨v, i, target⟩ :: rest) .reading) w := by
  obtain ⟨hread, htargetLies, -⟩ := lies_round hlies
  cases he : f.store.elementAt v i with
  | none => exact read_absent hat hstack hread hsuffix he
  | some e =>
    obtain ⟨w₁, hat₁, -, hiff⟩ := read_present env hat hstack hread hsuffix he
    rw [hiff]
    exact htarget stack v i rest w₁ (k + 4) _ hat₁ htargetLies hsuffix hrest

theorem round_forward (htarget : S.Forward env known target) (hat : S.At w k f)
    (hstack : f.stack = v :: stack') (hlies : S.Lies k (subargPieces n i (target :: subargs)))
    (hsuffix : stack <:+ below n i v stack') (hhas : f.store.Has known)
    (htable : known v = some table) (hfit : AllFit known (target :: subargs) (table.drop i))
    (hcan : S.CanAssign env known w)
    (h : S.TakesApart env stack (.left (⟨v, i, target⟩ :: rest) .reading) w) :
    target.isShort = true ∧ ∃ w' f', S.At w' (k + 4 + Piece.size target.targetPieces) f' ∧
      f'.stack = below n i v stack' ∧ f'.store.Has known ∧
      AllFit known subargs (table.drop (i + 1)) ∧
      S.Lies (k + 4 + Piece.size target.targetPieces) (subargPieces n (i + 1) subargs) ∧
        S.Reaches env w w' ∧ S.TakesApart env stack (.left rest .reading) w' := by
  obtain ⟨hread, htargetLies, hrestLies⟩ := lies_round hlies
  cases hdrop : table.drop i with
  | nil =>
    rw [hdrop] at hfit
    exact hfit.elim
  | cons e table' =>
    rw [hdrop] at hfit
    obtain ⟨hfits, hrestFit⟩ := hfit
    have hdrop' : table.drop (i + 1) = table' := by
      rw [← List.drop_drop, hdrop]
      rfl
    have hget : table[i]? = some e := by
      rw [← Nat.add_zero i, ← List.getElem?_drop, hdrop]
      rfl
    have he : f.store.elementAt v i = some e := by
      simp [Store.elementAt, hhas v table htable, hget]
    obtain ⟨w₁, hat₁, hreach₁, hiff⟩ := read_present env hat hstack hread hsuffix he
    rw [hiff] at h
    obtain ⟨hshort, w₂, f₂, hat₂, hstack₂, hhas₂, hreach₂, hrest⟩ :=
      htarget stack v i rest w₁ (k + 4) _ hat₁ htargetLies hsuffix hfits hhas
        (hcan.after hreach₁) h
    rw [← hdrop'] at hrestFit
    exact ⟨hshort, w₂, f₂, hat₂, hstack₂, hhas₂, hrestFit, hrestLies,
      hreach₁.trans hreach₂, hrest⟩

/-- A second pop takes a value that was on the operand stack before. -/
theorem not_over_pop (hat : S.At w k f) (hstack : f.stack = stack)
    (hnext : S.Next k ⟨.RES, .noArg⟩)
    (he : f.store.elementAt todo.value todo.index ≠ none) :
    ¬ S.TakesApart env stack (.left (todo :: rest) .reading) w := by
  intro h
  have hcalls := hat.not_callsSet hnext (by simp)
  cases stack with
  | nil =>
    have hstop : S.Stops env w := hat.no_step hnext (by
      simp [execute, executeRES, hat.frame, Frame.pop, hstack])
    obtain ⟨hnil, -⟩ | hmissing := h.now.2 ⟨hcalls, hstop⟩
    · cases hnil
    · rw [hat.store_eq] at hmissing
      exact he hmissing
  | cons x stack =>
    obtain ⟨w', g⟩ := hat.goes_next env hnext (x := ⟨f.store, x, stack⟩)
      (by simp [execute, executeRES, hat.frame, Frame.pop, hstack, Frame.withResval])
      (fun _ => rfl)
    have hdone := (h.after ((g.takes hcalls _ _).mpr ⟨rfl, rfl⟩)).now
    have hlen := hdone.1.length_le
    rw [g.at_.stackOf] at hlen
    simp at hlen

theorem length_le_of_allFit (h : AllFit known subargs table) :
    subargs.length ≤ table.length := by
  induction subargs generalizing table with
  | nil => exact Nat.zero_le _
  | cons target subargs ih =>
    cases table with
    | nil => exact h.elim
    | cons e table => exact Nat.succ_le_succ (ih h.2)

/-- From four targets on there are two pops. Induction on the targets that are left, while the
value is peeked at; then the first pop, and the second one. -/
theorem not_many (hn : 4 ≤ n) {i k : Nat} {w : World} {f : Frame} (hat : S.At w k f)
    (hstack : f.stack = v :: stack) (hlies : S.Lies k (subargPieces n i subargs))
    (hi : i + subargs.length = n) (hpeeked : i = 0 ∨ 2 * (i - 1) < n)
    (hhas : f.store.Has known) (htable : known v = some table)
    (hfit : AllFit known subargs (table.drop i)) (hcan : S.CanAssign env known w)
    (htargets : ∀ target ∈ subargs, S.Forward env known target) :
    ¬ S.TakesApart env stack (.left (todosOf v i subargs) .reading) w := by
  induction subargs generalizing i k w f with
  | nil =>
    simp only [List.length_nil] at hi
    omega
  | cons target subargs ih =>
    intro h
    rw [List.length_cons] at hi
    have htarget := htargets target List.mem_cons_self
    by_cases hpeek : i < n - i
    · have hbelow : below n i v stack = v :: stack := if_pos hpeek
      obtain ⟨-, w₁, f₁, hat₁, hstack₁, hhas₁, hfit₁, hlies₁, hreach, h₁⟩ := round_forward htarget
        hat hstack hlies (by rw [hbelow]; exact List.suffix_cons ..) hhas htable hfit hcan h
      exact ih hat₁ (hstack₁.trans hbelow) hlies₁ (by omega) (by omega) hhas₁ hfit₁ (hcan.after hreach)
        (fun x hx => htargets x (List.mem_cons_of_mem _ hx)) h₁
    · have hbelow : below n i v stack = stack := if_neg hpeek
      obtain ⟨-, w₁, f₁, hat₁, hstack₁, hhas₁, hfit₁, hlies₁, -, h₁⟩ := round_forward htarget
        hat hstack hlies (by rw [hbelow]) hhas htable hfit hcan h
      cases subargs with
      | nil =>
        simp only [List.length_nil] at hi
        omega
      | cons second subargs =>
        have hpop := (lies_round hlies₁).1.1
        rw [if_neg (by omega)] at hpop
        refine not_over_pop hat₁ (hstack₁.trans hbelow) hpop ?_ h₁
        have hlen := length_le_of_allFit hfit₁
        simp only [List.length_cons, List.length_drop] at hlen
        simp only [Store.elementAt, hhas₁ v table htable, Option.bind_some]
        rw [List.getElem?_eq_getElem (by omega)]
        exact Option.some_ne_none _

end Round

/-! ## All targets -/

section All

variable {subargs : List Assignment} {table : List Entity} {isArray : Bool}

theorem size_multi_two (a b : Assignment) :
    Piece.size (Assignment.multi isArray [a, b]).targetPieces =
      1 + 4 + Piece.size a.targetPieces + 4 + Piece.size b.targetPieces := by
  simp [Assignment.targetPieces, subargPieces]
  omega

theorem size_multi_three (a b c : Assignment) :
    Piece.size (Assignment.multi isArray [a, b, c]).targetPieces = 1 + 4 +
      Piece.size a.targetPieces + 4 + Piece.size b.targetPieces + 4 +
        Piece.size c.targetPieces := by
  simp [Assignment.targetPieces, subargPieces]
  omega

/-- Two or three targets: the value is popped once. -/
theorem sound_multi (hfew : subargs.length = 2 ∨ subargs.length = 3)
    (htargets : ∀ target ∈ subargs, S.Sound env target) :
    S.Sound env (.multi isArray subargs) := by
  intro stack v i rest w k f hat hlies hsuffix hrest
  obtain ⟨hpush, hlies₁⟩ := hlies
  obtain ⟨w₁, hat₁, -, hiff⟩ := push_value env hat hpush
  change S.TakesApart env stack (.left _ .reading) w
  rw [hiff _ _ _ hsuffix]
  have hsuffix₁ : stack <:+ f.resval :: f.stack := hsuffix.trans (List.suffix_cons ..)
  match subargs, hfew with
  | [a, b], _ =>
    obtain ⟨-, -, hlies₂⟩ := lies_round hlies₁
    apply round_sound hat₁ rfl hlies₁ (htargets a (by simp)) hsuffix₁
    intro w₂ f₂ hat₂ hstack₂
    apply round_sound hat₂ hstack₂ hlies₂ (htargets b (by simp)) hsuffix
    intro w₃ f₃ hat₃ hstack₃
    apply hrest w₃ f₃ _ hstack₃
    rw [size_multi_two]
    simpa only [Nat.add_assoc] using hat₃
  | [a, b, c], _ =>
    obtain ⟨-, -, hlies₂⟩ := lies_round hlies₁
    obtain ⟨-, -, hlies₃⟩ := lies_round hlies₂
    apply round_sound hat₁ rfl hlies₁ (htargets a (by simp)) hsuffix₁
    intro w₂ f₂ hat₂ hstack₂
    apply round_sound hat₂ hstack₂ hlies₂ (htargets b (by simp)) hsuffix₁
    intro w₃ f₃ hat₃ hstack₃
    apply round_sound hat₃ hstack₃ hlies₃ (htargets c (by simp)) hsuffix
    intro w₄ f₄ hat₄ hstack₄
    apply hrest w₄ f₄ _ hstack₄
    rw [size_multi_three]
    simpa only [Nat.add_assoc] using hat₄

/-- The run goes on after two or three targets that are short. -/
theorem multi_forward (hfew : subargs.length = 2 ∨ subargs.length = 3)
    (htargets : ∀ target ∈ subargs, S.Forward env known target) (hat : S.At w k f)
    (hlies : S.Lies k (Assignment.multi isArray subargs).targetPieces)
    (hsuffix : stack <:+ f.stack)
    (hfits : (Assignment.multi isArray subargs).Fits known f.resval)
    (hhas : f.store.Has known) (hcan : S.CanAssign env known w)
    (h : S.TakesApart env stack (.left (todosOf f.resval 0 subargs ++ rest) .reading) w) :
    allShort subargs = true ∧
      ∃ w' f', S.At w' (k + Piece.size (Assignment.multi isArray subargs).targetPieces) f' ∧
        f'.stack = f.stack ∧ f'.store.Has known ∧ S.Reaches env w w' ∧
          S.TakesApart env stack (.left rest .reading) w' := by
  obtain ⟨table, htable, hfit⟩ := hfits
  obtain ⟨hpush, hlies₁⟩ := hlies
  obtain ⟨w₁, hat₁, hreach₁, hiff⟩ := push_value env hat hpush
  rw [hiff _ _ _ hsuffix] at h
  have hcan₁ := hcan.after hreach₁
  have hsuffix₁ : stack <:+ f.resval :: f.stack := hsuffix.trans (List.suffix_cons ..)
  match subargs, hfew with
  | [a, b], _ =>
    obtain ⟨ha, w₂, f₂, hat₂, hstack₂, hhas₂, hfit₂, hlies₂, hreach₂, h₂⟩ := round_forward
      (htargets a (by simp)) hat₁ rfl hlies₁ hsuffix₁ hhas htable hfit (hcan.after hreach₁) h
    have hreach := hreach₁.trans hreach₂
    obtain ⟨hb, w₃, f₃, hat₃, hstack₃, hhas₃, -, -, hreach₃, h₃⟩ := round_forward
      (htargets b (by simp)) hat₂ hstack₂ hlies₂ hsuffix hhas₂ htable hfit₂ (hcan.after hreach) h₂
    refine ⟨by simp [allShort, ha, hb], w₃, f₃, ?_, hstack₃, hhas₃, hreach.trans hreach₃, h₃⟩
    rw [size_multi_two]
    simpa only [Nat.add_assoc] using hat₃
  | [a, b, c], _ =>
    obtain ⟨ha, w₂, f₂, hat₂, hstack₂, hhas₂, hfit₂, hlies₂, hreach₂, h₂⟩ := round_forward
      (htargets a (by simp)) hat₁ rfl hlies₁ hsuffix₁ hhas htable hfit (hcan.after hreach₁) h
    have hreach := hreach₁.trans hreach₂
    obtain ⟨hb, w₃, f₃, hat₃, hstack₃, hhas₃, hfit₃, hlies₃, hreach₃, h₃⟩ := round_forward
      (htargets b (by simp)) hat₂ hstack₂ hlies₂ hsuffix₁ hhas₂ htable hfit₂ (hcan.after hreach) h₂
    have hreach' := hreach.trans hreach₃
    obtain ⟨hc, w₄, f₄, hat₄, hstack₄, hhas₄, -, -, hreach₄, h₄⟩ := round_forward
      (htargets c (by simp)) hat₃ hstack₃ hlies₃ hsuffix hhas₃ htable hfit₃ (hcan.after hreach') h₃
    refine ⟨by simp [allShort, ha, hb, hc], w₄, f₄, ?_, hstack₄, hhas₄, hreach'.trans hreach₄, h₄⟩
    rw [size_multi_three]
    simpa only [Nat.add_assoc] using hat₄

end All

theorem listsShort_of_isShort {target : Assignment} (h : target.isShort = true) :
    target.listsShort = true := by
  cases target with
  | multi isArray subargs => exact h
  | _ => rfl

theorem short_multi_iff {isArray : Bool} {subargs : List Assignment} :
    (Assignment.multi isArray subargs).isShort = true ↔
      (subargs.length = 2 ∨ subargs.length = 3) ∧ allShort subargs = true := by
  simp [Assignment.isShort]

mutual

theorem sound_target : ∀ target : Assignment, target.WellFormed → target.isShort = true →
    S.Sound env target
  | .var isConst token, hwf, hshort => by
    obtain rfl : isConst = false := by simpa [Assignment.isShort] using hshort
    exact sound_var hwf
  | .complex prefixExp suffixes, hwf, _ => sound_complex hwf
  | .multi isArray subargs, hwf, hshort => by
    obtain ⟨hfew, hall⟩ := short_multi_iff.mp hshort
    exact sound_multi hfew (sound_each subargs hwf hall)

theorem sound_each : ∀ subargs : List Assignment, AllWellFormed subargs →
    allShort subargs = true → ∀ target ∈ subargs, S.Sound env target
  | [], _, _, target, hmem => absurd hmem List.not_mem_nil
  | first :: rest, hwf, hshort, target, hmem => by
    obtain ⟨hfirst, hrest⟩ := Bool.and_eq_true_iff.mp hshort
    cases List.mem_cons.mp hmem with
    | inl heq =>
      rw [heq]
      exact sound_target first hwf.1 hfirst
    | inr hmem => exact sound_each rest hwf.2 hrest target hmem

end

mutual

theorem forward_target : ∀ target : Assignment, target.WellFormed →
    target.listsShort = true → S.Forward env known target
  | .var isConst token, hwf, _ => forward_var hwf
  | .complex prefixExp suffixes, hwf, _ => forward_complex hwf
  | .multi isArray subargs, hwf, hshort => by
    have hboth : (Assignment.multi isArray subargs).isShort = true := hshort
    obtain ⟨hfew, hall⟩ := short_multi_iff.mp hboth
    intro stack v i rest w k f hat hlies hsuffix hfits hhas hcan h
    have hforward := multi_forward hfew (forward_each subargs hwf hall) hat hlies hsuffix hfits
      hhas hcan h
    exact ⟨hshort, hforward.2⟩

theorem forward_each : ∀ subargs : List Assignment,
    AllWellFormed subargs → allShort subargs = true →
      ∀ target ∈ subargs, S.Forward env known target
  | [], _, _, target, hmem => absurd hmem List.not_mem_nil
  | first :: rest, hwf, hshort, target, hmem => by
    obtain ⟨hfirst, hrest⟩ := Bool.and_eq_true_iff.mp hshort
    cases List.mem_cons.mp hmem with
    | inl heq =>
      rw [heq]
      exact forward_target first hwf.1 (listsShort_of_isShort hfirst)
    | inr hmem => exact forward_each rest hwf.2 hrest target hmem

end

theorem forward_lists {subargs : List Assignment} (hwf : AllWellFormed subargs)
    (hlists : ∀ target ∈ subargs, target.listsShort = true) :
    ∀ target ∈ subargs, S.Forward env known target := by
  induction subargs with
  | nil =>
    intro target hmem
    cases hmem
  | cons first rest ih =>
    intro target hmem
    cases List.mem_cons.mp hmem with
    | inl heq =>
      rw [heq]
      exact forward_target first hwf.1 (hlists first List.mem_cons_self)
    | inr hmem =>
      exact ih hwf.2 (fun x hx => hlists x (List.mem_cons_of_mem _ hx)) target hmem

/-! ## The end of the code -/

section Finish

variable {subargs : List Assignment} {isArray : Bool}

theorem ends_at_end (env : Env) {all : List Piece} (hholds : S.Holds all) (hat : S.At w (Piece.size all) f) :
    S.Ends env w := by
  refine ⟨?_, hholds.at_end env hat⟩
  rw [hat.callsSet_iff]
  rintro ⟨hnext, -⟩
  have hnone : S.code[Piece.size all]? = none := by
    rw [hholds.code]
    exact List.getElem?_eq_none (Nat.le_refl _)
  cases hnone.symm.trans hnext.ins

theorem takesApart_end {all : List Piece} (hholds : S.Holds all) (hat : S.At w (Piece.size all) f)
    (hstack : f.stack = stack) : S.TakesApart env stack (.left [] .reading) w := by
  have hends := ends_at_end env hholds hat
  apply Always.intro
  · exact ⟨by rw [hat.stackOf, hstack], fun _ => .inl ⟨rfl, hat.stackOf.trans hstack⟩⟩
  · intro e w' htakes
    exact absurd hends (not_ends htakes)

/-- A value that is left on the operand stack. -/
theorem not_takesApart_end {all : List Piece} (hholds : S.Holds all)
    (hat : S.At w (Piece.size all) f) (hstack : f.stack = v :: stack) :
    ¬ S.TakesApart env stack (.left [] .reading) w := by
  intro h
  obtain ⟨-, heq⟩ | hnone := h.now.2 (ends_at_end env hholds hat)
  · rw [hat.stackOf, hstack] at heq
    exact List.cons_ne_self v stack heq
  · exact hnone.elim

theorem few_of_takesApart (hholds : S.Holds (Assignment.multi isArray subargs).targetPieces)
    (hat : S.At w 0 f) (htargets : ∀ target ∈ subargs, S.Forward env known target)
    (hfits : (Assignment.multi isArray subargs).Fits known f.resval) (hhas : f.store.Has known)
    (hcan : S.CanAssign env known w)
    (h : S.TakesApart env f.stack (.left (todosOf f.resval 0 subargs) .reading) w) :
    subargs.length = 2 ∨ subargs.length = 3 := by
  obtain ⟨table, htable, hfit⟩ := hfits
  obtain ⟨hpush, hlies⟩ := hholds.lies
  obtain ⟨w₁, hat₁, hreach₁, hiff⟩ := push_value env hat hpush
  rw [hiff _ _ _ (List.suffix_refl _)] at h
  have hcan₁ := hcan.after hreach₁
  by_cases hmany : 4 ≤ subargs.length
  · exact absurd h (not_many hmany hat₁ rfl hlies (Nat.zero_add _) (.inl rfl) hhas htable hfit
      hcan₁ htargets)
  · match subargs with
    | [] => exact absurd h (not_takesApart_end hholds hat₁ rfl)
    | [a] =>
      obtain ⟨-, w₂, f₂, hat₂, hstack₂, -, -, -, -, hend⟩ := round_forward (htargets a (by simp))
        hat₁ rfl hlies (List.suffix_cons ..) hhas htable hfit hcan₁ h
      have hsize : Piece.size (Assignment.multi isArray [a]).targetPieces =
          0 + 1 + 4 + Piece.size a.targetPieces := by
        simp [Assignment.targetPieces, subargPieces]
        omega
      rw [← hsize] at hat₂
      exact absurd hend (not_takesApart_end hholds hat₂ hstack₂)
    | [a, b] => exact .inl rfl
    | [a, b, c] => exact .inr rfl
    | _ :: _ :: _ :: _ :: _ =>
      simp only [List.length_cons] at hmany
      omega

end Finish

end Site

/-! ## Whole assignments -/

theorem holds_of_produced {isArray : Bool} {subargs : List Assignment} {eqToken : Token} {n : Int}
    {tape : Tape} {S : Site}
    (hproduce : produceAssignment eqToken (.multi isArray subargs) Tape.create = some (n, tape))
    (hwf : AllWellFormed subargs) (hcode : S.code = tape.ins)
    (hparts : S.parts = Piece.parts 0 (Assignment.multi isArray subargs).targetPieces) :
    S.Holds (Assignment.multi isArray subargs).targetPieces := by
  have hmulti : (Assignment.multi isArray subargs).WellFormed := hwf
  refine ⟨?_, hparts, solid_target _ hmulti⟩
  rw [hcode, (Generates.create (generates_assignment eqToken _) hproduce).2,
    codeAll_target _ hmulti]

/-- The code of `produce_assignment_multi` takes a value apart when no variable is const and
every list, also the lists in it, has two or three targets. A list whose own lists are so, whose
value has all the elements and whose objects and indices can be evaluated, is taken apart only
then. The objects and the indices keep the operand stack when the lists in them are so, too. -/
theorem destructuring_iff (env : Env) (isArray : Bool) (subargs : List Assignment)
    (eqToken : Token) (n : Int) (tape : Tape) (S : Site) (w : World) (f : Frame)
    (hproduce : produceAssignment eqToken (.multi isArray subargs) Tape.create = some (n, tape))
    (hwf : AllWellFormed subargs) (hcode : S.code = tape.ins)
    (hparts : S.parts = Piece.parts 0 (Assignment.multi isArray subargs).targetPieces)
    (hat : S.At w 0 f) :
    ((Assignment.multi isArray subargs).isShort = true →
      S.TakesApart env f.stack (.left (todosOf f.resval 0 subargs) .reading) w) ∧
    (∀ known, f.store.Has known → (Assignment.multi isArray subargs).Fits known f.resval →
      (∀ target ∈ subargs, target.listsShort = true) → S.CanAssign env known w →
      (S.TakesApart env f.stack (.left (todosOf f.resval 0 subargs) .reading) w ↔
        (Assignment.multi isArray subargs).isShort = true)) ∧
    (AllBalanced (subargParts subargs) →
      ∀ is, .part is ∈ (Assignment.multi isArray subargs).targetPieces → KeepsStack is) := by
  have hholds := holds_of_produced hproduce hwf hcode hparts
  have hsound : (Assignment.multi isArray subargs).isShort = true →
      S.TakesApart env f.stack (.left (todosOf f.resval 0 subargs) .reading) w := by
    intro hshort
    have hsound : S.Sound env (.multi isArray subargs) := Site.sound_target _ hwf hshort
    have htakes := hsound f.stack f.resval 0 [] w 0 f hat hholds.lies (List.suffix_refl _)
    simp only [Todo.given, List.append_nil] at htakes
    apply htakes
    intro w' f' hat' hstack'
    rw [Nat.zero_add] at hat'
    exact Site.takesApart_end hholds hat' hstack'
  refine ⟨hsound, ?_, keepsStack_target (.multi isArray subargs)⟩
  intro known hhas hfits hlists hcan
  refine ⟨?_, hsound⟩
  intro h
  have htargets : ∀ target ∈ subargs, S.Forward env known target :=
    Site.forward_lists hwf hlists
  have hfew := Site.few_of_takesApart hholds hat htargets hfits hhas hcan h
  rw [← List.append_nil (todosOf f.resval 0 subargs)] at h
  have hall := Site.multi_forward hfew htargets hat hholds.lies (List.suffix_refl _) hfits hhas
    hcan h
  exact Site.short_multi_iff.mpr ⟨hfew, hall.1⟩

/-! ## A field in a nested list -/

/-- `[a, [self.f, b]]` -/
def fieldTargets : List Assignment :=
  [.var false ⟨.WORD, 1, 1, "a"⟩,
    .multi true [.complex (.identifier ⟨.WORD, 1, 5, "self"⟩)
      [.field ⟨.PERIOD, 1, 9, "."⟩ ⟨.WORD, 1, 10, "f"⟩], .var false ⟨.WORD, 1, 13, "b"⟩]]

def fieldEq : Token := ⟨.EQUALS, 1, 17, "="⟩

/-- Its object is evaluated in one step of the process. -/
def fieldSite : Site :=
  codeSite (lowerAssignment (.multi true fieldTargets)).code
    (Piece.parts 0 (Assignment.multi true fieldTargets).targetPieces)
    fun w w' => processStep noNatives w .execute = some w'

/-- The value is the array `[1, [2, 3]]`, and there is a value on the operand stack. -/
def fieldWorld : World :=
  codeWorld (lowerAssignment (.multi true fieldTargets)).code
    (fun o => if o = 1 then ⟨.Array, .empty, .array [.int 1, .obj 2]⟩
      else ⟨.Array, .empty, .array [.int 2, .int 3]⟩) (.obj 1) [.int 7]

def fieldFrame : Frame := ⟨fieldWorld.store, .obj 1, [.int 7]⟩

def fieldKnown : Entity → Option (List Entity)
  | .obj o => if o = 1 then some [.int 1, .obj 2] else if o = 2 then some [.int 2, .int 3] else none
  | _ => none

theorem fieldSite_parts : fieldSite.parts = [(16, 1)] := by
  simp [fieldSite, codeSite, fieldTargets, Assignment.targetPieces, subargPieces, Piece.parts,
    Assignment.objectCode, Postfix.storePieces, lower, lowerIdentifier, lowerPostfixes, tokenCode,
    trueKeyword, falseKeyword, nilKeyword]

theorem fieldSite_code : fieldSite.code[16]? = some ⟨.RES, .id "self"⟩ ∧
    fieldSite.code[17]? = some ⟨.FLD, .id "f"⟩ := by
  have hself : Tape.argOfToken ⟨.WORD, 1, 5, "self"⟩ = .id "self" := argOfToken_of_isName rfl
  have hfield : Tape.argOfToken ⟨.WORD, 1, 10, "f"⟩ = .id "f" := argOfToken_of_isName rfl
  simp [fieldSite, codeSite, fieldTargets, lowerAssignment, lowerSubargs, lowerSetSuffixes, lower,
    lowerIdentifier, tokenCode, opCode, intCode, trueKeyword, falseKeyword, nilKeyword, hself,
    hfield]

theorem fieldWorld_at : fieldSite.At fieldWorld 0 fieldFrame := codeWorld_at ..

theorem fieldWorld_has : fieldFrame.store.Has fieldKnown := by
  intro v table hv
  cases v with
  | obj o =>
    unfold fieldKnown at hv
    dsimp only at hv
    split at hv
    · rename_i ho
      subst ho
      cases hv
      rfl
    · split at hv
      · rename_i ho
        subst ho
        cases hv
        rfl
      · cases hv
  | none => cases hv
  | prim p => cases hv

/-- `self` is evaluated to the object of the context. -/
theorem fieldSite_evaluates {w : World} {f : Frame} (hat : fieldSite.At w 16 f) :
    ∃ w', fieldSite.Evaluates w w' 16 1 f ⟨f.store, .obj fieldSite.info.self, f.stack⟩ := by
  let bare : Site := { fieldSite with parts := [] }
  have hbare : bare.At w 16 f := ⟨hat.running, hat.context, hat.parent, hat.frame, hat.code⟩
  have hself : (w.contexts.context fieldSite.context).self = fieldSite.info.self := by
    rw [hat.context]
  have hexec : execute noNatives w bare.task bare.context ⟨.RES, .id "self"⟩ =
      some (.next ⟨f.store, .obj fieldSite.info.self, f.stack⟩) := by
    simp [execute, executeRES, hbare.frame, Frame.lookupOrNone, Frame.lookup, contextLookup,
      Frame.withResval, bare, hself]
  obtain ⟨w', g⟩ := hbare.goes_next noNatives ⟨fieldSite_code.1, by simp [bare]⟩ hexec
    fun _ => rfl
  have hrun : processStep noNatives w .execute = some w' := by
    generalize hevent : Site.shown ⟨.RES, .id "self"⟩ f = event at g
    cases (g.step event w').mpr ⟨rfl, rfl⟩ with
    | own _ _ _ hrun => exact hrun
    | part hmem => cases hmem
  exact ⟨w', hat, hrun, ⟨g.at_.running, g.at_.context, g.at_.parent, g.at_.frame, g.at_.code⟩, rfl,
    ⟨fun _ => rfl, fun _ _ h => h⟩⟩

theorem fieldSite_canAssign : fieldSite.CanAssign noNatives fieldKnown fieldWorld := by
  intro w k len f _ hat hhas hmem
  rw [fieldSite_parts] at hmem
  cases List.mem_singleton.mp hmem
  obtain ⟨w', heval⟩ := fieldSite_evaluates hat
  refine ⟨w', _, heval, hhas, ⟨fun _ _ => ⟨_, rfl⟩, fun hnext => ?_⟩⟩
  cases hnext.ins.symm.trans fieldSite_code.2

/-- `[a, [self.f, b]] = [1, [2, 3]]` -/
theorem destructuring_nested : ∃ n tape, produceAssignment fieldEq (.multi true fieldTargets)
      Tape.create = some (n, tape) ∧
    fieldSite.TakesApart noNatives [.int 7] (.left (todosOf (.obj 1) 0 fieldTargets) .reading)
      fieldWorld ∧
    (fieldSite.TakesApart noNatives [.int 7] (.left (todosOf (.obj 1) 0 fieldTargets) .reading)
      fieldWorld ↔ (Assignment.multi true fieldTargets).isShort = true) := by
  have hsome : (produceAssignment fieldEq (.multi true fieldTargets) Tape.create).isSome = true := by
    decide
  obtain ⟨⟨n, tape⟩, hproduce⟩ := Option.isSome_iff_exists.mp hsome
  have hcode : fieldSite.code = tape.ins :=
    (Generates.create (generates_assignment fieldEq _) hproduce).2.symm
  have hwf : AllWellFormed fieldTargets := by
    refine ⟨rfl, ⟨⟨⟨_, rfl⟩, rfl, ?_⟩, rfl, trivial⟩, trivial⟩
    intro last hlast
    cases hlast
    rfl
  obtain ⟨hsound, hiff, -⟩ := destructuring_iff noNatives true fieldTargets fieldEq n tape fieldSite
    fieldWorld fieldFrame hproduce hwf hcode rfl fieldWorld_at
  exact ⟨n, tape, hproduce, hsound rfl, hiff fieldKnown fieldWorld_has
    ⟨_, rfl, trivial, ⟨_, rfl, trivial, trivial, trivial⟩, trivial⟩ (by decide)
    fieldSite_canAssign⟩

/-! ## Four variables -/

/-- `[a, b]` or `[a, b, c, d]` -/
def nameTargets (names : List String) : List Assignment :=
  names.map fun name => .var false ⟨.WORD, 1, 1, name⟩

def variablesSite (names : List String) : Site :=
  codeSite (lowerAssignment (.multi true (nameTargets names))).code [] (Runs (processStep noNatives))

/-- The value is the array `[1, 2, 3, 4]`. -/
def variablesWorld (names : List String) : World :=
  codeWorld (lowerAssignment (.multi true (nameTargets names))).code
    (fun _ => ⟨.Array, .empty, .array [.int 1, .int 2, .int 3, .int 4]⟩) (.obj 1) []

def variablesFrame (names : List String) : Frame :=
  ⟨(variablesWorld names).store, .obj 1, []⟩

theorem parts_nameTargets (k len i : Nat) (names : List String) :
    Piece.parts k (subargPieces len i (nameTargets names)) = [] := by
  induction names generalizing k i with
  | nil => simp [nameTargets, subargPieces, Piece.parts]
  | cons name names ih =>
    have hrest := ih (k + 5) (i + 1)
    simpa [nameTargets, subargPieces, Assignment.targetPieces, Piece.parts] using hrest

theorem variables_parts (names : List String) : (variablesSite names).parts =
    Piece.parts 0 (Assignment.multi true (nameTargets names)).targetPieces := by
  rw [Assignment.targetPieces, Piece.parts, parts_nameTargets]
  rfl

/-- `[a, b, c, d] = [1, 2, 3, 4]` pops twice what it has pushed once. -/
theorem not_destructuring : ¬ ∀ (env : Env) (isArray : Bool) (subargs : List Assignment)
    (eqToken : Token) (n : Int) (tape : Tape) (S : Site) (w : World) (f : Frame),
    produceAssignment eqToken (.multi isArray subargs) Tape.create = some (n, tape) →
    AllWellFormed subargs → S.code = tape.ins →
    S.parts = Piece.parts 0 (Assignment.multi isArray subargs).targetPieces → S.At w 0 f →
    (Assignment.multi isArray subargs).Fits f.store.elements f.resval →
      S.TakesApart env f.stack (.left (todosOf f.resval 0 subargs) .reading) w := by
  intro h
  have hsome : (produceAssignment fieldEq (.multi true (nameTargets ["a", "b", "c", "d"]))
      Tape.create).isSome = true := by decide
  obtain ⟨⟨n, tape⟩, hproduce⟩ := Option.isSome_iff_exists.mp hsome
  have hcode : (variablesSite ["a", "b", "c", "d"]).code = tape.ins :=
    (Generates.create (generates_assignment fieldEq _) hproduce).2.symm
  have hwf : AllWellFormed (nameTargets ["a", "b", "c", "d"]) := ⟨rfl, rfl, rfl, rfl, trivial⟩
  have hfits : (Assignment.multi true (nameTargets ["a", "b", "c", "d"])).Fits
      (variablesFrame ["a", "b", "c", "d"]).store.elements (.obj 1) :=
    ⟨_, rfl, trivial, trivial, trivial, trivial, trivial⟩
  have hat : (variablesSite ["a", "b", "c", "d"]).At (variablesWorld ["a", "b", "c", "d"]) 0
      (variablesFrame ["a", "b", "c", "d"]) := codeWorld_at ..
  have htakes := h noNatives true _ _ n tape _ _ _ hproduce hwf hcode (variables_parts _) hat hfits
  have hholds := holds_of_produced hproduce hwf hcode (variables_parts _)
  have hcan : (variablesSite ["a", "b", "c", "d"]).CanAssign noNatives
      (variablesFrame ["a", "b", "c", "d"]).store.elements (variablesWorld ["a", "b", "c", "d"]) := by
    intro w₁ k len f _ _ _ hmem
    cases hmem
  have hfew := Site.few_of_takesApart hholds hat (Site.forward_lists hwf (by decide)) hfits
    (fun _ _ hv => hv) hcan htakes
  exact absurd hfew (by decide)

end JeffVm
