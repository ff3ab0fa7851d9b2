import JeffVm.Growth

/-!
# What instructions do to the operand stack

Each instruction takes a number of values from the top of the stack and leaves a number of
values in their place, whatever these values are. An instruction that raises an error may stop
between taking values.
-/

set_option autoImplicit false

namespace JeffVm

namespace Instruction

/-- How many values the instruction takes from the stack or looks at. -/
def takes (ins : Instruction) : Nat :=
  match ins.op, ins.arg with
  | .RES, .noArg | .PEEK, .noArg | .DUP, .noArg | .TLEN, .noArg => 1
  | .FLD, _ | .CALL, _ | .CLLN, _ | .AIDX, _ => 1
  | .ADD, .noArg | .SUB, .noArg | .MULT, .noArg | .DIV, .noArg | .MOD, .noArg => 2
  | .AND, .noArg | .OR, .noArg | .BAND, .noArg | .BXOR, .noArg | .BOR, .noArg => 2
  | .LT, .noArg | .GT, .noArg | .LTE, .noArg | .GTE, .noArg | .EQ, .noArg | .NEQ, .noArg => 2
  | .IS, _ | .ASET, _ => 2
  | .ANEW, .val (.int n) | .TUPL, .val (.int n) => n.toNat
  | _, _ => 0

/-- How many values it leaves in their place. -/
def leaves (ins : Instruction) : Nat :=
  match ins.op, ins.arg with
  | .PUSH, _ | .PNIL, _ | .GTSH, _ => 1
  | .PEEK, .noArg | .TLEN, .noArg => 1
  | .DUP, .noArg => 2
  | _, _ => 0

end Instruction

/-- The stack has `n` values in place of the first `m` of another. -/
def Replaces (m n : Nat) (stack stack' : List Entity) : Prop :=
  m ≤ stack.length ∧ ∃ values : List Entity, values.length = n ∧ stack' = values ++ stack.drop m

namespace Replaces

variable {m n : Nat} {stack stack' : List Entity}

@[simp] theorem same (stack : List Entity) : Replaces 0 0 stack stack :=
  ⟨Nat.zero_le _, [], rfl, rfl⟩

@[simp] theorem push (e : Entity) (stack : List Entity) : Replaces 0 1 stack (e :: stack) :=
  ⟨Nat.zero_le _, [e], rfl, rfl⟩

theorem taken (es : List Entity) {rest : List Entity} (h : stack = es ++ rest) :
    Replaces es.length 0 stack rest := by
  subst h
  exact ⟨by simp, [], rfl, by simp⟩

theorem one {e : Entity} {rest : List Entity} (h : stack = e :: rest) : Replaces 1 0 stack rest :=
  taken [e] h

theorem two {e e' : Entity} {rest : List Entity} (h : stack = e :: e' :: rest) :
    Replaces 2 0 stack rest := taken [e, e'] h

/-- The instruction looks at the top of the stack. -/
theorem top {e : Entity} {rest : List Entity} (h : stack = e :: rest) : Replaces 1 1 stack stack := by
  subst h
  exact ⟨by simp, [e], rfl, rfl⟩

theorem length (h : Replaces m n stack stack') :
    (stack'.length : Int) = stack.length - m + n := by
  obtain ⟨hm, values, rfl, rfl⟩ := h
  rw [List.length_append, List.length_drop]
  omega

end Replaces

/-- An instruction that takes `m` values and leaves `n` may raise before it has taken all. -/
def Effect.Stacks (m n : Nat) (stack : List Entity) : Effect → Prop
  | .raise f _ => ∃ k ≤ m, k ≤ stack.length ∧ f.stack = stack.drop k
  | e => Replaces m n stack e.frame.stack

def Stacks (m n : Nat) (stack : List Entity) (o : Option Effect) : Prop :=
  ∀ e ∈ o, e.Stacks m n stack

namespace Stacks

variable {m n : Nat} {stack : List Entity}

@[simp] theorem none : Stacks m n stack none := by simp [Stacks]

@[simp] theorem some (e : Effect) : Stacks m n stack (some e) ↔ e.Stacks m n stack := by
  simp [Stacks]

theorem map_next {α : Type} {o : Option α} {g : α → Frame}
    (h : ∀ a, o = Option.some a → Replaces m n stack (g a).stack) :
    Stacks m n stack (o.map fun a => .next (g a)) := by
  cases o with
  | none => simp
  | some a => exact (some _).mpr (h a rfl)

end Stacks

namespace Frame

variable {f f' : Frame}

theorem pop_stack {e : Entity} (h : f.pop = some (e, f')) : f.stack = e :: f'.stack := by
  unfold Frame.pop at h
  split at h
  · cases h
  · rename_i hstack
    cases h
    exact hstack

theorem popN_stack {n : Nat} {es : List Entity} (h : f.popN n = some (es, f')) :
    f.stack = es ++ f'.stack ∧ es.length = n := by
  induction n generalizing f es with
  | zero =>
    cases h
    exact ⟨rfl, rfl⟩
  | succ n ih =>
    rw [Frame.popN] at h
    split at h
    · cases h
    · rename_i e f₁ hpop
      split at h
      · cases h
      · rename_i es' f₂ hpopN
        cases h
        obtain ⟨hstack, hlength⟩ := ih hpopN
        refine ⟨?_, by rw [List.length_cons, hlength]⟩
        rw [pop_stack hpop, hstack]
        rfl

theorem peek_stack {e : Entity} (h : f.peek = some e) : ∃ rest, f.stack = e :: rest := by
  unfold Frame.peek at h
  cases hstack : f.stack with
  | nil => simp [hstack] at h
  | cons x rest =>
    simp only [hstack, List.head?_cons, Option.some.injEq] at h
    exact ⟨rest, by rw [h]⟩

@[simp] theorem lookup_stack {cs : Contexts} {c : ContextId} {id : String} {o : Option Entity}
    (h : f.lookup cs c id = (o, f')) : f'.stack = f.stack := by
  cases h
  rfl

@[simp] theorem lookupOrNone_stack (f : Frame) (cs : Contexts) (c : ContextId) (id : String) :
    (f.lookupOrNone cs c id).2.stack = f.stack := rfl

@[simp] theorem string_stack (f : Frame) (str : String) : (f.string str).2.stack = f.stack := rfl

@[simp] theorem withResval_stack (f : Frame) (e : Entity) : (f.withResval e).stack = f.stack := rfl

@[simp] theorem push_stack (f : Frame) (e : Entity) : (f.push e).stack = e :: f.stack := rfl

end Frame

section

variable {env : Env} {w : World} {t : TaskId} {c : ContextId} {f : Frame} {m n : Nat}
  {stack : List Entity}

namespace Stacks

/-- An error that is raised before a value has been taken. -/
theorem raiseError_same (h : f.stack = stack) (msg : String) :
    (raiseError w t f msg).Stacks m n stack := ⟨0, Nat.zero_le m, Nat.zero_le _, h⟩

/-- An error that is raised when the values `es` have been taken. -/
theorem raiseError (es : List Entity) (hm : es.length ≤ m) (h : stack = es ++ f.stack)
    (msg : String) : (raiseError w t f msg).Stacks m n stack := by
  subst h
  exact ⟨es.length, hm, by simp, by simp⟩

@[simp] theorem raiseError_now (msg : String) : (JeffVm.raiseError w t f msg).Stacks m n f.stack :=
  raiseError_same rfl msg

theorem raiseError_one {e : Entity} (hm : 1 ≤ m) (h : stack = e :: f.stack) (msg : String) :
    (JeffVm.raiseError w t f msg).Stacks m n stack := raiseError [e] hm h msg

theorem raiseError_two {e e' : Entity} (hm : 2 ≤ m) (h : stack = e :: e' :: f.stack)
    (msg : String) : (JeffVm.raiseError w t f msg).Stacks m n stack :=
  raiseError [e, e'] hm h msg

theorem callFunctionBase (h : Replaces m 0 stack f.stack) (func : FunctionId) (self : ObjectId)
    (parentContext : Option ContextId) :
    Stacks m 0 stack (callFunctionBase env w t c f func self parentContext) := by
  have hraise : ∃ k ≤ m, k ≤ stack.length ∧ f.stack = stack.drop k := by
    obtain ⟨hm, values, hvalues, hstack⟩ := h
    obtain rfl := List.length_eq_zero_iff.mp hvalues
    exact ⟨m, Nat.le_refl m, hm, hstack⟩
  unfold JeffVm.callFunctionBase
  simp only
  split
  · split
    · split
      · exact (some _).mpr h
      · simp
    · split
      · simp
      · exact (some _).mpr h
      · exact (some _).mpr hraise
  · exact (some _).mpr h

theorem executePrimitive (op : Op) (arg : Arg) :
    Stacks (if arg = .noArg then 2 else 0) 0 f.stack (executePrimitive w t c op arg f) := by
  unfold JeffVm.executePrimitive
  cases arg with
  | noArg =>
    simp only [if_true]
    split
    · simp
    · rename_i second f₁ hpop
      have hsecond := Frame.pop_stack hpop
      split
      · simp
      · rename_i first f₂ hpop₂
        rw [Frame.pop_stack hpop₂] at hsecond
        exact map_next fun _ _ => .two hsecond
      · rename_i hpop₂
        rw [Frame.pop_stack hpop₂] at hsecond
        exact (some _).mpr (raiseError_two (Nat.le_refl 2) hsecond _)
    · rename_i hpop
      exact (some _).mpr (raiseError_one (by decide) (Frame.pop_stack hpop) _)
  | id id =>
    simp only [reduceCtorEq, if_false]
    split
    · split
      · rename_i hlookup
        refine map_next fun _ _ => ?_
        rw [Frame.withResval_stack, Frame.lookup_stack hlookup]
        exact .same _
      · rename_i f₁ _ hlookup
        rw [← Frame.lookup_stack hlookup]
        simp
      · simp
    · simp
  | val val =>
    simp only [reduceCtorEq, if_false]
    split
    · exact map_next fun _ _ => .same _
    · simp
  | str str => simp

theorem executeBOR (arg : Arg) :
    Stacks (if arg = .noArg then 2 else 0) 0 f.stack (executeBOR w t c arg f) := by
  have hprimitive := executePrimitive (w := w) (t := t) (c := c) (f := f) .BOR arg
  unfold JeffVm.executeBOR
  cases arg with
  | noArg =>
    simp only [if_true] at hprimitive ⊢
    split
    · rename_i second first rest hstack
      cases first with
      | prim p => exact hprimitive
      | none => exact (some _).mpr (.two hstack)
      | obj o => exact (some _).mpr (.two hstack)
    · simp
  | id id =>
    simp only
    cases f.resval with
    | prim p => exact hprimitive
    | obj o => exact (some _).mpr (.same _)
    | none => exact (some _).mpr (.same _)
  | val val =>
    simp only
    cases f.resval with
    | prim p => exact hprimitive
    | obj o => exact (some _).mpr (.same _)
    | none => exact (some _).mpr (.same _)
  | str str => simp

theorem equalityOfPrimitives (h : Replaces m 0 stack f.stack) (op : Op) (first second : Entity) :
    (equalityOfPrimitives w t op first second f).Stacks m 0 stack := by
  obtain ⟨hm, values, hvalues, hstack⟩ := h
  obtain rfl := List.length_eq_zero_iff.mp hvalues
  unfold JeffVm.equalityOfPrimitives
  split
  · split
    · exact ⟨hm, [], rfl, hstack⟩
    · exact ⟨m, Nat.le_refl m, hm, hstack⟩
  · exact ⟨m, Nat.le_refl m, hm, hstack⟩

theorem executeEQ (op : Op) (arg : Arg) :
    Stacks (if arg = .noArg then 2 else 0) 0 f.stack (executeEQ env w t c op arg f) := by
  unfold JeffVm.executeEQ
  cases arg with
  | noArg =>
    simp only [if_true]
    split
    · rename_i second first rest hstack
      have htwo : Replaces 2 0 f.stack ({ f with stack := rest } : Frame).stack := .two hstack
      cases first with
      | obj o =>
        simp only
        split
        · apply callFunctionBase
          exact htwo
        · exact (some _).mpr (equalityOfPrimitives htwo op _ _)
      | _ => exact (some _).mpr (equalityOfPrimitives htwo op _ _)
    · simp
  | id id =>
    simp only [reduceCtorEq, if_false]
    split
    · split
      · simp
      · rename_i hlookup
        rw [← Frame.lookup_stack hlookup]
        simp
      · simp
    · simp
  | val val =>
    simp only [reduceCtorEq, if_false]
    split
    · exact (some _).mpr (.same _)
    · simp
  | str str => simp

/-! ## One operand from the stack -/

theorem executeRES (arg : Arg) :
    Stacks (if arg = .noArg then 1 else 0) 0 f.stack (executeRES w c arg f) := by
  unfold JeffVm.executeRES
  cases arg with
  | noArg =>
    apply map_next
    rintro ⟨e, f'⟩ hpop
    have hstack := Frame.pop_stack hpop
    exact .one hstack
  | _ => exact (some _).mpr (.same _)

theorem executePEEK (arg : Arg) :
    Stacks (if arg = .noArg then 1 else 0) (if arg = .noArg then 1 else 0) f.stack
      (executePEEK w c arg f) := by
  unfold JeffVm.executePEEK
  cases arg with
  | noArg =>
    refine map_next fun _ hpeek => ?_
    obtain ⟨rest, hstack⟩ := Frame.peek_stack hpeek
    exact .top hstack
  | id id => exact (some _).mpr (.same _)
  | _ => simp

theorem executeDUP (arg : Arg) :
    Stacks (if arg = .noArg then 1 else 0) (if arg = .noArg then 2 else 0) f.stack
      (executeDUP arg f) := by
  unfold JeffVm.executeDUP
  cases arg with
  | noArg =>
    refine map_next fun e hpeek => ?_
    obtain ⟨rest, hstack⟩ := Frame.peek_stack hpeek
    rw [if_pos rfl, if_pos rfl, Frame.push_stack, hstack]
    exact ⟨by simp, [e, e], rfl, rfl⟩
  | _ => simp

theorem executeTLEN (arg : Arg) :
    Stacks (if arg = .noArg then 1 else 0) (if arg = .noArg then 1 else 0) f.stack
      (executeTLEN arg f) := by
  unfold JeffVm.executeTLEN
  cases arg with
  | noArg =>
    cases hpeek : f.peek with
    | none => simp
    | some e =>
      obtain ⟨rest, hstack⟩ := Frame.peek_stack hpeek
      simp only [Option.map_some, some, if_true]
      split <;> exact .top hstack
  | _ => simp

theorem executePUSH (arg : Arg) : Stacks 0 1 f.stack (executePUSH w c arg f) := by
  unfold JeffVm.executePUSH
  cases arg <;> exact (some _).mpr (.push _ _)

theorem executePNIL (arg : Arg) : Stacks 0 1 f.stack (executePNIL arg f) := by
  unfold JeffVm.executePNIL
  cases arg with
  | noArg => exact (some _).mpr (.push _ _)
  | _ => simp

theorem executeFLD (arg : Arg) : Stacks 1 0 f.stack (executeFLD w t arg f) := by
  unfold JeffVm.executeFLD
  cases arg with
  | id id =>
    simp only
    split
    · apply map_next
      rintro ⟨e, f'⟩ hpop
      have hstack := Frame.pop_stack hpop
      exact .one hstack
    · simp
  | _ => simp

theorem fieldOf {id : String} {raised : Effect} (h : fieldOf w t c id f = .inl raised) :
    raised.Stacks m n f.stack := by
  unfold JeffVm.fieldOf at h
  split at h <;> cases h <;> simp

theorem fieldOf_stack {id : String} {e : Entity} {f' : Frame}
    (h : JeffVm.fieldOf w t c id f = .inr (e, f')) : f'.stack = f.stack := by
  unfold JeffVm.fieldOf at h
  split at h <;> cases h
  rfl

theorem executeGET (arg : Arg) : Stacks 0 0 f.stack (executeGET w t c arg f) := by
  unfold JeffVm.executeGET
  cases arg with
  | id id =>
    simp only
    split
    · rename_i h
      exact (some _).mpr (fieldOf h)
    · rename_i h
      rw [← fieldOf_stack h]
      exact (some _).mpr (.same _)
  | _ => simp

theorem executeGTSH (arg : Arg) : Stacks 0 1 f.stack (executeGTSH w t c arg f) := by
  unfold JeffVm.executeGTSH
  cases arg with
  | id id =>
    simp only
    split
    · rename_i h
      exact (some _).mpr (fieldOf h)
    · rename_i h
      rw [← fieldOf_stack h]
      exact (some _).mpr (.push _ _)
  | _ => simp

/-! ## Calls -/

theorem callMethod (h : Replaces m 0 stack f.stack) (o : ObjectId) (id : String) :
    Stacks m 0 stack (callMethod env w t c o id f) := by
  obtain ⟨hm, values, hvalues, hstack⟩ := h
  obtain rfl := List.length_eq_zero_iff.mp hvalues
  unfold JeffVm.callMethod
  simp only
  repeat' split
  all_goals first
    | exact (some _).mpr ⟨m, Nat.le_refl m, hm, hstack⟩
    | (apply callFunctionBase; exact ⟨hm, [], rfl, hstack⟩)
    | exact none

theorem callEntity (h : Replaces m 0 stack f.stack) (op : Op) (fn : Entity) :
    Stacks m 0 stack (callEntity env w t c op fn f) := by
  obtain ⟨hm, values, hvalues, hstack⟩ := h
  obtain rfl := List.length_eq_zero_iff.mp hvalues
  unfold JeffVm.callEntity
  simp only
  repeat' split
  all_goals first
    | exact (some _).mpr ⟨m, Nat.le_refl m, hm, hstack⟩
    | exact (some _).mpr ⟨hm, [], rfl, hstack⟩
    | (apply callFunctionBase; exact ⟨hm, [], rfl, hstack⟩)
    | exact none

theorem executeCALL (op : Op) (arg : Arg) : Stacks 1 0 f.stack (executeCALL env w t c op arg f) := by
  unfold JeffVm.executeCALL
  cases arg with
  | id id =>
    have hclear : (if op = .CLLN then f.withResval .none else f).stack = f.stack := by
      split <;> rfl
    simp only
    split
    · simp
    · rename_i o f₁ hpop
      have hstack := Frame.pop_stack hpop
      rw [hclear] at hstack
      split
      · split
        · exact callEntity (.one hstack) op _
        · exact callMethod (.one hstack) o id
      · simp
      · exact callMethod (.one hstack) o id
    · rename_i hpop
      have hstack := Frame.pop_stack hpop
      rw [hclear] at hstack
      exact (some _).mpr (raiseError_one (Nat.le_refl 1) hstack _)
  | noArg =>
    simp only
    split
    · simp
    · rename_i hpop
      exact callEntity (.one (Frame.pop_stack hpop)) op _
  | _ => simp

/-! ## Indexing and collections -/

theorem indexFrame_stack {cs : Contexts} {arg : Arg} {o : Option Entity} {f' : Frame}
    (h : (match arg with
      | .noArg => Option.some (Option.some f.resval, f)
      | .id id => Option.some (f.lookup cs c id)
      | .val val =>
        match val with
        | .int i => Option.some (if i < 0 then Option.none else Option.some (.prim val), f)
        | _ => Option.some (Option.none, f)
      | .str _ => Option.none) = Option.some (o, f')) : f'.stack = f.stack := by
  cases arg with
  | noArg =>
    cases h
    rfl
  | id id => exact Frame.lookup_stack (Option.some.inj h)
  | val val =>
    cases val <;>
      (obtain ⟨-, rfl⟩ := Prod.mk.inj (Option.some.inj h)
       rfl)
  | str str => cases h

theorem executeAIDX (arg : Arg) : Stacks 1 0 f.stack (executeAIDX env w t c arg f) := by
  unfold JeffVm.executeAIDX
  split
  · simp
  · rename_i arr f₁ hpop
    have hstack := Frame.pop_stack hpop
    simp only
    split
    · simp
    · rename_i f₂ hindex
      rw [← indexFrame_stack hindex] at hstack
      exact (some _).mpr (raiseError_one (Nat.le_refl 1) hstack _)
    · rename_i index f₂ hindex
      rw [← indexFrame_stack hindex] at hstack
      repeat' split
      all_goals first
        | exact (some _).mpr (raiseError_one (Nat.le_refl 1) hstack _)
        | exact (some _).mpr (.one hstack)
        | exact callFunctionBase (.one hstack) _ _ _
        | exact none
  · rename_i hpop
    exact (some _).mpr (raiseError_one (Nat.le_refl 1) (Frame.pop_stack hpop) _)

theorem executeASET : Stacks 2 0 f.stack (executeASET env w t c f) := by
  unfold JeffVm.executeASET
  split
  · rename_i arrEntity newVal rest hstack
    simp only
    repeat' split
    all_goals first
      | exact (some _).mpr (raiseError_two (Nat.le_refl 2) hstack _)
      | exact (some _).mpr (.two hstack)
      | (apply callFunctionBase; exact .two hstack)
      | exact none
  · simp

theorem executeANEW (arg : Arg) :
    Stacks (Instruction.takes ⟨.ANEW, arg⟩) 0 f.stack (executeANEW arg f) := by
  unfold JeffVm.executeANEW
  simp only
  split
  · exact (some _).mpr (.same _)
  · apply map_next
    rintro ⟨es, f'⟩ hpop
    obtain ⟨hstack, hlength⟩ := Frame.popN_stack hpop
    have htaken := Replaces.taken es hstack
    rw [hlength] at htaken
    exact htaken
  · simp

theorem executeTUPL (arg : Arg) :
    Stacks (Instruction.takes ⟨.TUPL, arg⟩) 0 f.stack (executeTUPL arg f) := by
  unfold JeffVm.executeTUPL
  split
  · apply map_next
    rintro ⟨es, f'⟩ hpop
    obtain ⟨hstack, hlength⟩ := Frame.popN_stack hpop
    have htaken := Replaces.taken es hstack
    rw [hlength] at htaken
    exact htaken
  · simp

theorem executeIS (arg : Arg) : Stacks 2 0 f.stack (executeIS w t arg f) := by
  unfold JeffVm.executeIS
  split
  · split
    · rename_i rhs lhs rest hstack
      simp only
      repeat' split
      all_goals first
        | exact (some _).mpr (raiseError_two (Nat.le_refl 2) hstack _)
        | exact (some _).mpr (.two hstack)
    · simp
  · simp

/-! ## Instructions that leave the stack alone -/

theorem executeTGTE (arg : Arg) : Stacks 0 0 f.stack (executeTGTE w t arg f) := by
  unfold JeffVm.executeTGTE
  repeat' split
  all_goals first
    | exact (some _).mpr (.same _)
    | simp

theorem executeTGET (arg : Arg) : Stacks 0 0 f.stack (executeTGET w t arg f) := by
  unfold JeffVm.executeTGET
  repeat' split
  all_goals first
    | exact (some _).mpr (.same _)
    | (refine (some _).mpr (raiseError_same ?_ _); rfl)

theorem executeLMDL (arg : Arg) : Stacks 0 0 f.stack (executeLMDL env w t c arg f) := by
  unfold JeffVm.executeLMDL
  simp only
  repeat' split
  all_goals first
    | exact (some _).mpr (.same _)
    | (refine (some _).mpr (raiseError_same ?_ _); rfl)
    | exact none

theorem executeWAIT : Stacks 0 0 f.stack (executeWAIT w t f) := by
  unfold JeffVm.executeWAIT
  simp only
  repeat' split
  all_goals first
    | exact (some _).mpr (.same _)
    | exact map_next fun _ _ => .same _
    | exact none

theorem executeRAIS : Stacks 0 0 f.stack (executeRAIS w t f) := by
  unfold JeffVm.executeRAIS
  simp only
  repeat' split
  all_goals first
    | exact (some _).mpr (raiseError_now _)
    | exact (some _).mpr ⟨0, Nat.le_refl 0, Nat.zero_le _, rfl⟩

theorem executeRET (arg : Arg) : Stacks 0 0 f.stack (executeRET w c arg f) := by
  unfold JeffVm.executeRET
  cases arg with
  | id id =>
    simp only
    split
    · rename_i hlookup
      rw [← Frame.lookup_stack hlookup]
      exact (some _).mpr (.same _)
    · simp
  | str str => simp
  | _ => exact (some _).mpr (.same _)

end Stacks

/-- What an instruction takes from the stack and leaves there. -/
theorem execute_stacks {ins : Instruction} {e : Effect} (h : execute env w t c ins = some e) :
    e.Stacks ins.takes ins.leaves (w.tasks t).entityStack := by
  suffices hs : Stacks ins.takes ins.leaves (w.frame t).stack (execute env w t c ins) from hs e h
  obtain ⟨op, arg⟩ := ins
  cases op with
  | RES =>
    have hs := Stacks.executeRES (w := w) (c := c) (f := w.frame t) arg
    cases arg <;> exact hs
  | PEEK =>
    have hs := Stacks.executePEEK (w := w) (c := c) (f := w.frame t) arg
    cases arg <;> exact hs
  | DUP =>
    have hs := Stacks.executeDUP (f := w.frame t) arg
    cases arg <;> exact hs
  | TLEN =>
    have hs := Stacks.executeTLEN (f := w.frame t) arg
    cases arg <;> exact hs
  | ADD | SUB | MULT | DIV | MOD | AND | OR | BAND | BXOR | LT | GT | LTE | GTE =>
    have hs := fun op => Stacks.executePrimitive (w := w) (t := t) (c := c) (f := w.frame t) op arg
    cases arg with
    | str str => exact Stacks.none
    | _ => exact hs _
  | BOR =>
    have hs := Stacks.executeBOR (w := w) (t := t) (c := c) (f := w.frame t) arg
    cases arg <;> exact hs
  | EQ =>
    have hs := @Stacks.executeEQ env w t c (w.frame t) .EQ arg
    cases arg <;> exact hs
  | NEQ =>
    have hs := @Stacks.executeEQ env w t c (w.frame t) .NEQ arg
    cases arg <;> exact hs
  | PUSH => exact Stacks.executePUSH arg
  | PNIL => exact Stacks.executePNIL arg
  | FLD => exact Stacks.executeFLD arg
  | GET => exact Stacks.executeGET arg
  | GTSH => exact Stacks.executeGTSH arg
  | CALL => exact Stacks.executeCALL .CALL arg
  | CLLN => exact Stacks.executeCALL .CLLN arg
  | AIDX => exact Stacks.executeAIDX arg
  | ASET => exact Stacks.executeASET
  | ANEW => exact Stacks.executeANEW arg
  | TUPL => exact Stacks.executeTUPL arg
  | IS => exact Stacks.executeIS arg
  | TGTE => exact Stacks.executeTGTE arg
  | TGET => exact Stacks.executeTGET arg
  | LMDL => exact Stacks.executeLMDL arg
  | WAIT => exact Stacks.executeWAIT
  | RAIS => exact Stacks.executeRAIS
  | RET => exact Stacks.executeRET arg
  | RNIL | LET | SET | NOT | EXIT | NBLK | BBLK =>
    cases arg <;> first | exact Stacks.none | exact (Stacks.some _).mpr (.same _)
  | JMP | CTCH =>
    rcases arg with _ | _ | _ | (_ | _ | _) <;>
      first | exact Stacks.none | exact (Stacks.some _).mpr (.same _)
  | IF | IFN =>
    unfold execute executeIF
    simp only
    repeat' split
    all_goals first | exact Stacks.none | exact (Stacks.some _).mpr (.same _)
  | _ => exact Stacks.none

end

end JeffVm
