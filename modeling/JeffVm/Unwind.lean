import JeffVm.Process

/-!
# Unwinding an error

`_attemp_catch_error` pops contexts until one has a handler. It moves the current context of
the task, but the loop of `vm_execute_task` goes on in the context it started with.
-/

set_option autoImplicit false

namespace JeffVm

namespace Contexts

/-- Every context of the list continues at `ins`. -/
def setAllIns (cs : Contexts) (ds : List ContextId) (ins : Int) : Contexts :=
  ds.foldl (fun cs d => cs.setIns d ins) cs

theorem setAllIns_context (ds : List ContextId) (ins : Int) : ∀ (cs : Contexts) (d : ContextId),
    (cs.setAllIns ds ins).context d =
      if d ∈ ds then { cs.context d with ins := ins } else cs.context d := by
  induction ds with
  | nil => simp [setAllIns]
  | cons e ds ih =>
    intro cs d
    have hstep : cs.setAllIns (e :: ds) ins = (cs.setIns e ins).setAllIns ds ins := rfl
    rw [hstep, ih]
    by_cases hde : d = e
    · subst hde
      simp [setIns]
    · simp [setIns, hde]

theorem chain_setAllIns (ds : List ContextId) (ins : Int) : ∀ (cs : Contexts) (d : ContextId),
    (cs.setAllIns ds ins).chain d = cs.chain d := by
  induction ds with
  | nil =>
    intro cs d
    rfl
  | cons e ds ih =>
    intro cs d
    have hstep : cs.setAllIns (e :: ds) ins = (cs.setIns e ins).setAllIns ds ins := rfl
    rw [hstep, ih, setIns, chain_modify]

theorem previous_of_chain {cs : Contexts} {c d : ContextId} {ds : List ContextId}
    (h : cs.chain c = c :: d :: ds) : (cs.context c).previous = some d ∧ cs.chain d = d :: ds := by
  rw [chain_eq, List.cons.injEq] at h
  cases hp : (cs.context c).previous with
  | none => simp [hp, chain?] at h
  | some p =>
    rw [hp, chain?, chain_eq, List.cons.injEq] at h
    obtain ⟨-, rfl, hds⟩ := h
    exact ⟨rfl, by rw [chain_eq, hds]⟩

theorem previous_none_of_chain {cs : Contexts} {c : ContextId} (h : cs.chain c = [c]) :
    (cs.context c).previous = none := by
  rw [chain_eq, List.cons.injEq] at h
  cases hp : (cs.context c).previous with
  | none => rfl
  | some p =>
    rw [hp, chain?, chain_eq] at h
    cases h.2

end Contexts

namespace World

/-- The task has popped the contexts before the last of `ds`, which all continue at `ins`. -/
def unwind (w : World) (t : TaskId) (ds : List ContextId) (ins : Int)
    (current : Option ContextId) : World :=
  { w.modifyTask t (fun task => { task with current := current }) with
    contexts := w.contexts.setAllIns ds ins }

@[simp] theorem unwind_contexts (w : World) (t : TaskId) (ds : List ContextId) (ins : Int)
    (c : Option ContextId) : (w.unwind t ds ins c).contexts = w.contexts.setAllIns ds ins := rfl

@[simp] theorem unwind_current (w : World) (t : TaskId) (ds : List ContextId) (ins : Int)
    (c : Option ContextId) : ((w.unwind t ds ins c).tasks t).current = c := by
  simp [unwind, modifyTask]

@[simp] theorem unwind_resval (w : World) (t : TaskId) (ds : List ContextId) (ins : Int)
    (c : Option ContextId) : ((w.unwind t ds ins c).tasks t).resval = (w.tasks t).resval := by
  simp [unwind, modifyTask]

theorem unwind_context (w : World) (t : TaskId) (ds : List ContextId) (ins : Int)
    (c : Option ContextId) (d : ContextId) :
    (w.unwind t ds ins c).contexts.context d =
      if d ∈ ds then { w.contexts.context d with ins := ins } else w.contexts.context d :=
  Contexts.setAllIns_context ds ins w.contexts d

@[simp] theorem unwind_catchIns (w : World) (t : TaskId) (ds : List ContextId) (ins : Int)
    (c : Option ContextId) (d : ContextId) :
    ((w.unwind t ds ins c).contexts.context d).catchIns = (w.contexts.context d).catchIns := by
  rw [unwind_context]
  split <;> rfl

@[simp] theorem unwind_error (w : World) (t : TaskId) (ds : List ContextId) (ins : Int)
    (c : Option ContextId) (d : ContextId) :
    ((w.unwind t ds ins c).contexts.context d).error = (w.contexts.context d).error := by
  rw [unwind_context]
  split <;> rfl

theorem unwind_ins_head (w : World) (t : TaskId) (d : ContextId) (ins : Int)
    (c : Option ContextId) : ((w.unwind t [d] ins c).contexts.context d).ins = ins := by
  simp [Contexts.setAllIns_context]

theorem unwind_unwind (w : World) (t : TaskId) (ds es : List ContextId) (ins : Int)
    (c c' : Option ContextId) :
    (w.unwind t ds ins c).unwind t es ins c' = w.unwind t (ds ++ es) ins c' := by
  simp [unwind, modifyTask, Contexts.setAllIns, List.foldl_append]

theorem taskBackContext_some {w : World} {t : TaskId} {c d : ContextId} {ds : List ContextId}
    (hcurrent : (w.tasks t).current = some c) (hchain : w.contexts.chain c = c :: d :: ds) :
    w.taskBackContext t =
      some (some d, w.unwind t [d] (w.contexts.context c).ins (some d)) := by
  rw [taskBackContext, hcurrent]
  simp only [(Contexts.previous_of_chain hchain).1]
  rfl

theorem taskBackContext_none {w : World} {t : TaskId} {c : ContextId}
    (hcurrent : (w.tasks t).current = some c) (hchain : w.contexts.chain c = [c]) :
    w.taskBackContext t = some (none, w.unwind t [] (w.contexts.context c).ins none) := by
  rw [taskBackContext, hcurrent]
  simp only [Contexts.previous_none_of_chain hchain]
  rfl

theorem findHandler_here {w : World} {t : TaskId} {n : Nat} {c : ContextId}
    (h : 0 ≤ (w.contexts.context c).catchIns) : w.findHandler t (n + 1) c = some (some c, w) := by
  rw [findHandler, if_neg (by omega)]

/-- The nearest handler below the current context. -/
theorem findHandler_some {t : TaskId} {handler : ContextId} {rest : List ContextId} :
    ∀ {pre : List ContextId} {n : Nat} {w : World} {c current : ContextId},
      (w.tasks t).current = some current →
      w.contexts.chain current = current :: (pre ++ handler :: rest) →
      (w.contexts.context c).catchIns < 0 → (∀ d ∈ pre, (w.contexts.context d).catchIns < 0) →
      0 ≤ (w.contexts.context handler).catchIns → pre.length + 2 ≤ n →
      w.findHandler t n c = some (some handler,
        w.unwind t (pre ++ [handler]) (w.contexts.context current).ins (some handler)) := by
  intro pre
  induction pre with
  | nil =>
    intro n w c current hcurrent hchain hc _ hhandler hn
    obtain ⟨m, rfl⟩ : ∃ m, n = m + 2 := ⟨n - 2, by simp at hn; omega⟩
    rw [findHandler, if_pos hc, taskBackContext_some hcurrent hchain]
    simp only
    apply findHandler_here
    simp [unwind, Contexts.setAllIns_context, hhandler]
  | cons d pre ih =>
    intro n w c current hcurrent hchain hc hpre hhandler hn
    obtain ⟨m, rfl⟩ : ∃ m, n = m + 1 := ⟨n - 1, by simp at hn; omega⟩
    have hd := Contexts.previous_of_chain hchain
    rw [findHandler, if_pos hc, taskBackContext_some hcurrent hchain]
    simp only
    rw [ih (unwind_current w t [d] _ (some d)), unwind_ins_head, unwind_unwind]
    · rfl
    · rw [unwind_contexts, Contexts.chain_setAllIns, hd.2]
      rfl
    · rw [unwind_catchIns]
      exact hpre d List.mem_cons_self
    · intro e he
      rw [unwind_catchIns]
      exact hpre e (List.mem_cons_of_mem d he)
    · rw [unwind_catchIns]
      exact hhandler
    · rw [List.length_cons] at hn
      omega

/-- Without a handler every context is popped. -/
theorem findHandler_none {t : TaskId} : ∀ {pre : List ContextId} {n : Nat} {w : World}
    {c current : ContextId},
      (w.tasks t).current = some current → w.contexts.chain current = current :: pre →
      (w.contexts.context c).catchIns < 0 → (∀ d ∈ pre, (w.contexts.context d).catchIns < 0) →
      pre.length + 1 ≤ n →
      w.findHandler t n c = some (none, w.unwind t pre (w.contexts.context current).ins none) := by
  intro pre
  induction pre with
  | nil =>
    intro n w c current hcurrent hchain hc _ hn
    obtain ⟨m, rfl⟩ : ∃ m, n = m + 1 := ⟨n - 1, by simp at hn; omega⟩
    rw [findHandler, if_pos hc, taskBackContext_none hcurrent hchain]
  | cons d pre ih =>
    intro n w c current hcurrent hchain hc hpre hn
    obtain ⟨m, rfl⟩ : ∃ m, n = m + 1 := ⟨n - 1, by simp at hn; omega⟩
    have hd := Contexts.previous_of_chain hchain
    rw [findHandler, if_pos hc, taskBackContext_some hcurrent hchain]
    simp only
    rw [ih (unwind_current w t [d] _ (some d)), unwind_ins_head, unwind_unwind]
    · rfl
    · rw [unwind_contexts, Contexts.chain_setAllIns, hd.2]
    · rw [unwind_catchIns]
      exact hpre d List.mem_cons_self
    · intro e he
      rw [unwind_catchIns]
      exact hpre e (List.mem_cons_of_mem d he)
    · rw [List.length_cons] at hn
      omega

/-- The handler takes over. -/
def resumeAt (w : World) (handler : ContextId) : World :=
  w.modifyContext handler (fun x => { x with ins := x.catchIns, error := none, catchIns := -1 })

theorem attempCatchError_here {w : World} {t : TaskId} {c : ContextId}
    (h : 0 ≤ (w.contexts.context c).catchIns) :
    w.attempCatchError t c = some (true, w.resumeAt c) := by
  rw [attempCatchError, findHandler_here h]
  rfl

theorem attempCatchError_some {w : World} {t : TaskId} {c current handler : ContextId}
    {pre rest : List ContextId} (hcurrent : (w.tasks t).current = some current)
    (hchain : w.contexts.chain current = current :: (pre ++ handler :: rest))
    (hc : (w.contexts.context c).catchIns < 0)
    (hpre : ∀ d ∈ pre, (w.contexts.context d).catchIns < 0)
    (hhandler : 0 ≤ (w.contexts.context handler).catchIns) :
    w.attempCatchError t c = some (true,
      (w.unwind t (pre ++ [handler]) (w.contexts.context current).ins (some handler)).resumeAt
        handler) := by
  rw [attempCatchError, findHandler_some hcurrent hchain hc hpre hhandler]
  · rfl
  · rw [hcurrent, Contexts.chain?, hchain]
    simp

theorem attempCatchError_none {w : World} {t : TaskId} {c current : ContextId}
    {pre : List ContextId} (hcurrent : (w.tasks t).current = some current)
    (hchain : w.contexts.chain current = current :: pre)
    (hc : (w.contexts.context c).catchIns < 0)
    (hpre : ∀ d ∈ pre, (w.contexts.context d).catchIns < 0) :
    w.attempCatchError t c = some (false,
      (w.unwind t pre (w.contexts.context current).ins none).setState t .ERROR) := by
  rw [attempCatchError, findHandler_none hcurrent hchain hc hpre]
  rw [hcurrent, Contexts.chain?, hchain]
  simp

end World

/-! ## Reaching the handler -/

/-- The task goes on at the handler: the next instruction is fetched in its context, at its
catch position, with the error as result, nothing pending and the contexts before it gone. -/
structure ReachesHandler (w w' : World) (t : TaskId) (c handler : ContextId)
    (rest : List ContextId) (err : ObjectId) : Prop where
  context : c = handler
  ins : (w'.contexts.context handler).ins = (w.contexts.context handler).catchIns
  current : (w'.tasks t).current = some handler
  resval : (w'.tasks t).resval = .obj err
  settled : ∀ d ∈ w'.contexts.chain handler, (w'.contexts.context d).error = none
  discarded : w'.contexts.chain handler = handler :: rest

/-- The world after an instruction of `c` has raised `err`. -/
def World.raised (w : World) (t : TaskId) (c : ContextId) (f : Frame) (err : ObjectId) : World :=
  ((w.setFrame t (f.withResval (.obj err))).modifyContext c
    (fun x => { x with error := some err })).incIns c

theorem apply_raise (w : World) (t : TaskId) (c : ContextId) (f : Frame) (err : ObjectId) :
    w.apply t c (.raise f err) = some (w.raised t c f err, .running c) := rfl

theorem raised_context_self (w : World) (t : TaskId) (c : ContextId) (f : Frame) (err : ObjectId) :
    (w.raised t c f err).contexts.context c =
      { w.contexts.context c with error := some err, ins := (w.contexts.context c).ins + 1 } := by
  simp [World.raised, World.incIns, World.modifyContext, World.setFrame, World.modifyTask]

theorem raised_context_ne (w : World) (t : TaskId) {c d : ContextId} (f : Frame) (err : ObjectId)
    (h : d ≠ c) : (w.raised t c f err).contexts.context d = w.contexts.context d := by
  simp [World.raised, World.incIns, World.modifyContext, World.setFrame, World.modifyTask, h]

theorem raised_chain (w : World) (t : TaskId) (c d : ContextId) (f : Frame) (err : ObjectId) :
    (w.raised t c f err).contexts.chain d = w.contexts.chain d := by
  simp [World.raised, World.incIns, World.modifyContext, World.setFrame, World.modifyTask,
    Contexts.chain_modify]

theorem raised_task (w : World) (t : TaskId) (c : ContextId) (f : Frame) (err : ObjectId) :
    ((w.raised t c f err).tasks t).current = (w.tasks t).current ∧
      ((w.raised t c f err).tasks t).resval = .obj err := by
  simp [World.raised, World.incIns, World.modifyContext, World.setFrame, World.modifyTask,
    Frame.withResval]

/-- A raise reaches the handler of its task just when the raising context has it itself, and
no context around it has an error of its own. -/
theorem raise_reaches_handler_iff (env : Env) (w : World) (t : TaskId) (c handler : ContextId)
    (pre rest : List ContextId) (ins : Instruction) (f : Frame) (err : ObjectId)
    (hcurrent : (w.tasks t).current = some c)
    (hchain : w.contexts.chain c = pre ++ handler :: rest)
    (hpre : ∀ d ∈ pre, (w.contexts.context d).catchIns < 0)
    (hhandler : 0 ≤ (w.contexts.context handler).catchIns)
    (hraise : execute env w t c ins = some (.raise f err)) :
    ∃ w₁ w₂, (execute env w t c ins).bind (w.apply t c) = some (w₁, .running c) ∧
      w₁.fetch t c = some (true, w₂) ∧
        (ReachesHandler w w₂ t c handler rest err ↔
          pre = [] ∧ ∀ d ∈ rest, (w.contexts.context d).error = none) := by
  have hpending : ((w.raised t c f err).contexts.context c).error.isSome := by
    rw [raised_context_self]
    rfl
  have hcatch : ∀ d, ((w.raised t c f err).contexts.context d).catchIns =
      (w.contexts.context d).catchIns := by
    intro d
    by_cases hd : d = c
    · rw [hd, raised_context_self]
    · rw [raised_context_ne w t f err hd]
  have htask := raised_task w t c f err
  rw [hraise]
  rw [Contexts.chain_eq] at hchain
  cases pre with
  | nil =>
    obtain ⟨rfl, hrest⟩ := List.cons.inj hchain
    refine ⟨w.raised t c f err, (w.raised t c f err).resumeAt c, rfl, ?_, ?_⟩
    · rw [World.fetch, if_pos hpending, World.attempCatchError_here (by rw [hcatch]; exact hhandler)]
    · have hold : (w.raised t c f err).contexts.chain c = c :: rest := by
        rw [raised_chain, Contexts.chain_eq, hrest]
      have hnew : ((w.raised t c f err).resumeAt c).contexts.chain c = c :: rest := by
        rw [← hold, World.resumeAt, World.modifyContext, Contexts.chain_modify]
      have herror : ∀ d ∈ rest, (((w.raised t c f err).resumeAt c).contexts.context d).error =
          (w.contexts.context d).error := by
        intro d hd
        have hne : d ≠ c := Nat.ne_of_lt (Contexts.lt_of_mem_chain (hrest ▸ hd))
        simp [World.resumeAt, World.modifyContext, hne, raised_context_ne w t f err hne]
      constructor
      · intro h
        refine ⟨rfl, fun d hd => ?_⟩
        rw [← herror d hd]
        exact h.settled d (hnew ▸ List.mem_cons_of_mem c hd)
      · rintro ⟨-, hsettled⟩
        refine ⟨rfl, ?_, ?_, ?_, ?_, hnew⟩
        · simp [World.resumeAt, World.modifyContext, hcatch]
        · exact htask.1.trans hcurrent
        · exact htask.2
        · intro d hd
          rw [hnew] at hd
          rcases List.mem_cons.mp hd with rfl | hd
          · simp [World.resumeAt, World.modifyContext]
          · rw [herror d hd, hsettled d hd]
  | cons d pre =>
    obtain ⟨rfl, hrest⟩ := List.cons.inj hchain
    have hlt : handler < c := by
      apply @Contexts.lt_of_mem_chain w.contexts
      rw [hrest]
      simp
    have hbelow : (w.raised t c f err).contexts.chain c = c :: (pre ++ handler :: rest) := by
      rw [raised_chain, Contexts.chain_eq, hrest]
      rfl
    have hcaught := World.attempCatchError_some (htask.1.trans hcurrent) hbelow
      ((hcatch c).trans_lt (hpre c List.mem_cons_self))
      (fun d hd => (hcatch d).trans_lt (hpre d (List.mem_cons_of_mem c hd)))
      (hhandler.trans_eq (hcatch handler).symm)
    refine ⟨w.raised t c f err, _, rfl, (if_pos hpending).trans hcaught, ?_⟩
    constructor
    · intro h
      exact absurd h.context (Nat.ne_of_gt hlt)
    · rintro ⟨h, -⟩
      cases h

/-- A task with blocks `depth`, …, `0`; the handler is that of block 0. -/
def tryWorld (depth : Nat) : World where
  store :=
    { objects := fun _ => ⟨.Error, .empty, .none⟩
      nextObject := 2
      classes := fun _ => ⟨"Error", [], .empty, 1⟩
      functions := fun _ => ⟨"main", 0, false, false, false, false, 0, 1⟩
      modules := fun _ => ⟨"m", [], .empty, .empty, 1, true⟩
      builtin := 0 }
  contexts :=
    { context := fun c =>
        ⟨0, if c = 0 then none else some (c - 1), 1, 1, 0, none, 3, none, if c = 0 then 7 else -1⟩
      next := depth + 1
      previous_lt := by
        intro c p h
        cases c with
        | zero => cases h
        | succ n =>
          cases h
          exact Nat.lt_succ_self n }
  tasks := fun _ => ⟨.RUNNING, some depth, .obj 0, [], none, [], false⟩
  nextTask := 1
  queued := []
  waiting := []
  completed := []
  background := []
  running := some (0, depth)

/-- `raise` directly in the `try` block. -/
theorem raise_reaches_handler_tryWorld : ∃ w₁ w₂,
    (execute noNatives (tryWorld 0) 0 0 ⟨.RAIS, .noArg⟩).bind ((tryWorld 0).apply 0 0) =
      some (w₁, .running 0) ∧ w₁.fetch 0 0 = some (true, w₂) ∧
        (ReachesHandler (tryWorld 0) w₂ 0 0 0 [] 0 ↔
          ([] : List ContextId) = [] ∧ ∀ d ∈ [], ((tryWorld 0).contexts.context d).error = none) :=
  raise_reaches_handler_iff noNatives (tryWorld 0) 0 0 0 [] [] ⟨.RAIS, .noArg⟩ _ 0 rfl rfl
    (by simp) (by decide) rfl

/-- `raise` in a loop within the `try` block: the loop's block goes on after the raise. -/
theorem not_raise_reaches_handler : ¬ ∀ (env : Env) (w : World) (t : TaskId)
    (c handler : ContextId) (pre rest : List ContextId) (ins : Instruction) (f : Frame)
    (err : ObjectId), (w.tasks t).current = some c →
    w.contexts.chain c = pre ++ handler :: rest →
    (∀ d ∈ pre, (w.contexts.context d).catchIns < 0) →
    0 ≤ (w.contexts.context handler).catchIns →
    (∀ d ∈ pre ++ [handler], (w.contexts.context d).parentTask = t) →
    execute env w t c ins = some (.raise f err) →
    ∃ w₁ w₂, (execute env w t c ins).bind (w.apply t c) = some (w₁, .running c) ∧
      w₁.fetch t c = some (true, w₂) ∧ ReachesHandler w w₂ t c handler rest err := by
  intro h
  obtain ⟨w₁, w₂, -, -, hreaches⟩ := h noNatives (tryWorld 1) 0 1 0 [1] [] ⟨.RAIS, .noArg⟩ _ 0
    rfl rfl (by decide) (by decide) (by decide) rfl
  exact absurd hreaches.context (by decide)

end JeffVm
