import JeffVm.Code
import JeffVm.Scene

/-!
# What structured code does

A big-step semantics of structured code on scenes. There are no positions and no jumps: a branch
is taken or not, a loop repeats its parts, a `break` or `continue` is a signal to the loop around
it, and a call runs the code of its function in a context of its own.
-/

set_option autoImplicit false

namespace JeffVm

/-- How a fragment of code ends. -/
inductive Signal where
  | normal
  | jump (type : BreakType)
  | ret
  deriving DecidableEq

/-- The instruction has the effect whatever else is going on in the process. -/
def Scene.Does (env : Env) (c : ContextId) (ins : Instruction) (s : Scene) (effect : Effect) :
    Prop :=
  s.store.SameProgram effect.frame.store ∧
    ∀ w t, w.InBlock t c → w.scene t = s → execute env w t c ins = some effect

/-- The repeated part of a loop: its test, and two parts the second of which `continue` goes to. -/
structure Loop where
  test : Code
  first : Code
  second : Code

/-- A `continue` in a `while` goes to the start of the body, past the condition. -/
def Loop.ofWhile (condition body : Code) : Loop := ⟨condition, .nil, body⟩

def Loop.ofFor (condition inc body : Code) : Loop := ⟨condition, body, inc⟩

def Loop.ofForeach (lhs body : Code) : Loop :=
  ⟨opCode .DUP ++ idCode .CALL hasNextFnName,
    opCode .DUP ++ idCode .CALL nextFnName ++ lhs ++ body, .nil⟩

/-- The iterator of a `foreach` is on the stack while it runs. -/
def foreachInit (iterable : Code) : Code :=
  iterable ++ opCode .PUSH ++ idCode .CALL iterFnName ++ opCode .PUSH

/-- What follows the handler of a `try`. -/
def afterTry : Code := opCode .RNIL ++ idCode .SET "$try_goto"

/-- What may be executed: code, the branches of an `if` from one of them on, or the rest of a
loop from its test or from one of its parts on. -/
inductive Fragment where
  | code (code : Code)
  | cases (branches : Branches) (otherwise : Option Code)
  | test (loop : Loop)
  | first (loop : Loop)
  | second (loop : Loop)

def Test.jumps : Test → Entity → Bool
  | .IF, e => !e.isNone
  | .IFN, e => e.isNone

/-- The code of the functions that are not native. -/
abbrev Program := FunctionId → Option Code

/-- A fragment in context `c` gets from a scene to a scene. -/
inductive Exec (env : Env) (program : Program) :
    ContextId → Fragment → Scene → Signal → Scene → Prop where
  | nil {c : ContextId} {s : Scene} : Exec env program c (.code .nil) s .normal s
  | plain {c : ContextId} {ins : Instruction} {s : Scene} {f : Frame} :
    s.Does env c ins (.next f) → Exec env program c (.code (.plain ins)) s .normal (s.withFrame f)
  | call {c d : ContextId} {ins : Instruction} {s s₁ s₂ : Scene} {f : Frame} {func : FunctionId}
      {self : ObjectId} {parentContext : Option ContextId} {body : Code} :
    s.Does env c ins (.call f func self parentContext) →
    (f.store.functions func).isAsync = false → program func = some body →
    (s.withFrame f).enter func self parentContext = some (d, s₁) →
    Exec env program d (.code body) s₁ .ret s₂ →
    Exec env program c (.code (.plain ins)) s .normal { s₂ with stack := f.stack }
  | complete {c : ContextId} {ins : Instruction} {s : Scene} {f : Frame} :
    s.Does env c ins (.complete f) → Exec env program c (.code (.plain ins)) s .ret (s.withFrame f)
  | brk {c : ContextId} {type : BreakType} {s : Scene} :
    Exec env program c (.code (.brk type)) s (.jump type) s
  | seq {c : ContextId} {a b : Code} {s s₁ s' : Scene} {signal : Signal} :
    Exec env program c (.code a) s .normal s₁ → Exec env program c (.code b) s₁ signal s' →
    Exec env program c (.code (.seq a b)) s signal s'
  | seqStop {c : ContextId} {a b : Code} {s s' : Scene} {signal : Signal} :
    signal ≠ .normal → Exec env program c (.code a) s signal s' →
    Exec env program c (.code (.seq a b)) s signal s'
  | skipOver {c : ContextId} {test : Test} {body : Code} {s : Scene} :
    test.jumps s.resval = true → Exec env program c (.code (.skip test body)) s .normal s
  | skipInto {c : ContextId} {test : Test} {body : Code} {s s' : Scene} {signal : Signal} :
    test.jumps s.resval = false → Exec env program c (.code body) s signal s' →
    Exec env program c (.code (.skip test body)) s signal s'
  | choiceFirst {c : ContextId} {test : Test} {a b : Code} {s s' : Scene} {signal : Signal} :
    test.jumps s.resval = false → Exec env program c (.code a) s signal s' →
    Exec env program c (.code (.choice test a b)) s signal s'
  | choiceSecond {c : ContextId} {test : Test} {a b : Code} {s s' : Scene} {signal : Signal} :
    test.jumps s.resval = true → Exec env program c (.code b) s signal s' →
    Exec env program c (.code (.choice test a b)) s signal s'
  | ifThen {c : ContextId} {branches : Branches} {s s' : Scene} {signal : Signal} :
    Exec env program c (.cases branches none) s signal s' →
    Exec env program c (.code (.ifThen branches)) s signal s'
  | ifElse {c : ContextId} {branches : Branches} {otherwise : Code} {s s' : Scene}
      {signal : Signal} :
    Exec env program c (.cases branches (some otherwise)) s signal s' →
    Exec env program c (.code (.ifElse branches otherwise)) s signal s'
  | lastThen {c : ContextId} {condition body : Code} {otherwise : Option Code} {s s₁ s' : Scene}
      {signal : Signal} :
    Exec env program c (.code condition) s .normal s₁ → s₁.resval.isNone = false →
    Exec env program c (.code body) s₁ signal s' →
    Exec env program c (.cases (.last condition body) otherwise) s signal s'
  | lastNone {c : ContextId} {condition body : Code} {s s₁ : Scene} :
    Exec env program c (.code condition) s .normal s₁ → s₁.resval.isNone = true →
    Exec env program c (.cases (.last condition body) none) s .normal s₁
  | lastElse {c : ContextId} {condition body otherwise : Code} {s s₁ s' : Scene}
      {signal : Signal} :
    Exec env program c (.code condition) s .normal s₁ → s₁.resval.isNone = true →
    Exec env program c (.code otherwise) s₁ signal s' →
    Exec env program c (.cases (.last condition body) (some otherwise)) s signal s'
  | moreThen {c : ContextId} {condition body : Code} {rest : Branches} {otherwise : Option Code}
      {s s₁ s' : Scene} {signal : Signal} :
    Exec env program c (.code condition) s .normal s₁ → s₁.resval.isNone = false →
    Exec env program c (.code body) s₁ signal s' →
    Exec env program c (.cases (.more condition body rest) otherwise) s signal s'
  | moreRest {c : ContextId} {condition body : Code} {rest : Branches} {otherwise : Option Code}
      {s s₁ s' : Scene} {signal : Signal} :
    Exec env program c (.code condition) s .normal s₁ → s₁.resval.isNone = true →
    Exec env program c (.cases rest otherwise) s₁ signal s' →
    Exec env program c (.cases (.more condition body rest) otherwise) s signal s'
  | func {c : ContextId} {body : Code} {s : Scene} :
    Exec env program c (.code (.func body)) s .normal s
  -- The body of a `try` that raises no error.
  | tryDone {c d : ContextId} {body assign handler : Code} {s s₁ s₂ s₃ : Scene} :
    s.enterBlock c = some (d, s₁) → Exec env program d (.code body) s₁ .normal s₂ →
    Exec env program d (.code afterTry) s₂ .normal s₃ →
    Exec env program c (.code (.tryCatch body assign handler)) s .normal s₃
  | tryReturn {c d : ContextId} {body assign handler : Code} {s s₁ s₂ : Scene} :
    s.enterBlock c = some (d, s₁) → Exec env program d (.code body) s₁ .ret s₂ →
    Exec env program c (.code (.tryCatch body assign handler)) s .ret s₂
  | whileLoop {c d : ContextId} {condition body : Code} {s s₁ s₂ : Scene} {signal : Signal} :
    s.enterBlock c = some (d, s₁) →
    Exec env program d (.test (.ofWhile condition body)) s₁ signal s₂ →
    Exec env program c (.code (.whileLoop condition body)) s signal s₂
  | forLoop {c d : ContextId} {init condition inc body : Code} {s s₁ s₂ s₃ : Scene}
      {signal : Signal} :
    s.enterBlock c = some (d, s₁) → Exec env program d (.code init) s₁ .normal s₂ →
    Exec env program d (.test (.ofFor condition inc body)) s₂ signal s₃ →
    Exec env program c (.code (.forLoop init condition inc body)) s signal s₃
  | foreachDone {c d : ContextId} {iterable lhs body : Code} {s s₁ s₂ s₃ s₄ : Scene} :
    s.enterBlock c = some (d, s₁) → Exec env program d (.code (foreachInit iterable)) s₁ .normal s₂ →
    Exec env program d (.test (.ofForeach lhs body)) s₂ .normal s₃ →
    Exec env program d (.code (opCode .RES)) s₃ .normal s₄ →
    Exec env program c (.code (.foreachLoop iterable lhs body)) s .normal s₄
  | foreachReturn {c d : ContextId} {iterable lhs body : Code} {s s₁ s₂ s₃ : Scene} :
    s.enterBlock c = some (d, s₁) → Exec env program d (.code (foreachInit iterable)) s₁ .normal s₂ →
    Exec env program d (.test (.ofForeach lhs body)) s₂ .ret s₃ →
    Exec env program c (.code (.foreachLoop iterable lhs body)) s .ret s₃
  | exit {c : ContextId} {loop : Loop} {s s₁ : Scene} :
    Exec env program c (.code loop.test) s .normal s₁ → s₁.resval.isNone = true →
    Exec env program c (.test loop) s .normal s₁
  | enter {c : ContextId} {loop : Loop} {s s₁ s' : Scene} {signal : Signal} :
    Exec env program c (.code loop.test) s .normal s₁ → s₁.resval.isNone = false →
    Exec env program c (.first loop) s₁ signal s' → Exec env program c (.test loop) s signal s'
  | firstNext {c : ContextId} {loop : Loop} {s s₁ s' : Scene} {inner signal : Signal} :
    inner = .normal ∨ inner = .jump .continue → Exec env program c (.code loop.first) s inner s₁ →
    Exec env program c (.second loop) s₁ signal s' → Exec env program c (.first loop) s signal s'
  | firstBreak {c : ContextId} {loop : Loop} {s s' : Scene} :
    Exec env program c (.code loop.first) s (.jump .break) s' →
    Exec env program c (.first loop) s .normal s'
  | firstReturn {c : ContextId} {loop : Loop} {s s' : Scene} :
    Exec env program c (.code loop.first) s .ret s' → Exec env program c (.first loop) s .ret s'
  | secondNext {c : ContextId} {loop : Loop} {s s₁ s' : Scene} {signal : Signal} :
    Exec env program c (.code loop.second) s .normal s₁ →
    Exec env program c (.test loop) s₁ signal s' → Exec env program c (.second loop) s signal s'
  | secondAgain {c : ContextId} {loop : Loop} {s s₁ s' : Scene} {signal : Signal} :
    Exec env program c (.code loop.second) s (.jump .continue) s₁ →
    Exec env program c (.second loop) s₁ signal s' → Exec env program c (.second loop) s signal s'
  | secondBreak {c : ContextId} {loop : Loop} {s s' : Scene} :
    Exec env program c (.code loop.second) s (.jump .break) s' →
    Exec env program c (.second loop) s .normal s'
  | secondReturn {c : ContextId} {loop : Loop} {s s' : Scene} :
    Exec env program c (.code loop.second) s .ret s' → Exec env program c (.second loop) s .ret s'

/-- A loop takes the jumps of its parts. -/
def Fragment.isLoop : Fragment → Bool
  | .test _ | .first _ | .second _ => true
  | _ => false

theorem Exec.loop_signal {env : Env} {program : Program} {c : ContextId} {fragment : Fragment}
    {s s' : Scene} {signal : Signal} (h : Exec env program c fragment s signal s')
    (hloop : fragment.isLoop = true) : signal = .normal ∨ signal = .ret := by
  induction h with
  | exit => exact .inl rfl
  | enter _ _ _ _ ih => exact ih rfl
  | firstNext _ _ _ _ ih => exact ih rfl
  | firstBreak => exact .inl rfl
  | firstReturn => exact .inr rfl
  | secondNext _ _ _ ih => exact ih rfl
  | secondAgain _ _ _ ih => exact ih rfl
  | secondBreak => exact .inl rfl
  | secondReturn => exact .inr rfl
  | _ => cases hloop

end JeffVm
