import JeffVm.Path
import JeffVm.Propagation

/-!
# Paths are what the virtual machine does

An iteration of the loop of `vm_execute_task` in the current context of its task is a step of
a path, when the code lies on the tape of the context. An error is one when the current block
has a handler.
-/

set_option autoImplicit false

namespace JeffVm

/-- The catch positions of the context and of those before it. -/
def World.catches (w : World) (c : ContextId) : List Int :=
  (w.contexts.chain c).map fun d => (w.contexts.context d).catchIns

/-- A catch position as one of the code at `base`. -/
def handlerAt (base catchIns : Int) : Option Int :=
  if catchIns < 0 then none else some (catchIns - base)

/-- What a path through the code at `base` sees of task `t` in context `c`. -/
def World.pathState (w : World) (t : TaskId) (c : ContextId) (base : Int) : PathState :=
  ⟨(w.contexts.context c).ins - base, (w.catches c).map (handlerAt base),
    (w.tasks t).entityStack.length⟩

/-- The code lies at `base` on the tape of the context. -/
def World.HasCode (w : World) (c : ContextId) (base : Nat) (is : List Instruction) : Prop :=
  ∀ i < is.length,
    (w.store.modules (w.contexts.context c).module).tape[base + i]? = is[i]?

/-- Task `t` is in the block of its context `c`. -/
structure World.InBlock (w : World) (t : Nat) (c : Nat) : Prop where
  current : (w.tasks t).current = some c
  parent : (w.contexts.context c).parentTask = t
  created : t < w.nextTask
  lt : c < w.contexts.next

/-! ## Effects -/

/-- How far control moves. -/
def Effect.distance : Effect → Int
  | .jump _ n => n + 1
  | _ => 1

/-- The catch positions after an effect at position `i`. -/
def Effect.catches (i : Int) : Effect → List Int → List Int
  | .newBlock _, cs => -1 :: cs
  | .backBlock _, cs => cs.tail
  | .setCatch _ n, _ :: cs => (i + n + 1) :: cs
  | _, cs => cs

/-- After the effect the task is in context `c'`. -/
structure Moves (w w' : World) (t : TaskId) (c c' : ContextId) (effect : Effect) : Prop where
  current : (w'.tasks t).current = some c'
  ins : (w'.contexts.context c').ins = (w.contexts.context c).ins + effect.distance
  catches : w'.catches c' = effect.catches (w.contexts.context c).ins (w.catches c)
  stack : (w'.tasks t).entityStack = effect.frame.stack

section

variable {w w' : World} {t c : Nat}

@[simp] theorem World.modifyTask_contexts (w : World) (t : TaskId) (f : Task → Task) :
    (w.modifyTask t f).contexts = w.contexts := rfl

@[simp] theorem World.setFrame_contexts (w : World) (t : TaskId) (f : Frame) :
    (w.setFrame t f).contexts = w.contexts := rfl

@[simp] theorem World.incIns_contexts (w : World) (c : ContextId) :
    (w.incIns c).contexts = w.contexts.modify c fun x => { x with ins := x.ins + 1 } := rfl

@[simp] theorem World.modifyContext_contexts (w : World) (c : ContextId) (f : Context → Context) :
    (w.modifyContext c f).contexts = w.contexts.modify c f := rfl

theorem World.catches_eq (w : World) (c : ContextId) :
    w.catches c = (w.contexts.context c).catchIns ::
      (w.contexts.chain? (w.contexts.context c).previous).map
        fun d => (w.contexts.context d).catchIns := by
  rw [catches, Contexts.chain_eq, List.map_cons]

theorem World.catches_some {p : ContextId} (h : (w.contexts.context c).previous = some p) :
    w.catches c = (w.contexts.context c).catchIns :: w.catches p := by
  rw [catches_eq, h]
  rfl

theorem World.catches_congr (hprevious : ∀ d ∈ w.contexts.chain c,
    (w'.contexts.context d).previous = (w.contexts.context d).previous)
    (hcatchIns : ∀ d ∈ w.contexts.chain c,
      (w'.contexts.context d).catchIns = (w.contexts.context d).catchIns) :
    w'.catches c = w.catches c := by
  rw [catches, Contexts.chain_congr hprevious]
  exact List.map_congr_left hcatchIns

/-- A change of `c` alone. -/
theorem World.catches_of_ne (hother : ∀ d ≠ c, w'.contexts.context d = w.contexts.context d)
    (hprevious : (w'.contexts.context c).previous = (w.contexts.context c).previous) :
    w'.catches c = (w'.contexts.context c).catchIns :: (w.catches c).tail := by
  rw [World.catches_eq, World.catches_eq w, hprevious, List.tail_cons]
  cases hp : (w.contexts.context c).previous with
  | none => rfl
  | some p =>
    have hne : ∀ d ∈ w.contexts.chain p, d ≠ c := fun d hd =>
      Nat.ne_of_lt (Nat.lt_of_le_of_lt (Contexts.le_of_mem_chain hd)
        (w.contexts.previous_lt c p hp))
    congr 1
    apply World.catches_congr
    · intro d hd
      rw [hother d (hne d hd)]
    · intro d hd
      rw [hother d (hne d hd)]

/-- Effects that change the contexts only by moving the position of `c`. -/
theorem Moves.here {effect : Effect} {cs : Contexts} (h : w.InBlock t c)
    (hcurrent : (w'.tasks t).current = (w.tasks t).current)
    (hcontexts : w'.contexts = cs.modify c fun x => { x with ins := x.ins + effect.distance })
    (hother : ∀ d : Nat, d < w.contexts.next → cs.context d = w.contexts.context d)
    (hcatches : effect.catches (w.contexts.context c).ins (w.catches c) = w.catches c)
    (hstack : (w'.tasks t).entityStack = effect.frame.stack) : Moves w w' t c c effect where
  current := hcurrent.trans h.current
  ins := by rw [hcontexts, Contexts.modify_self, hother c h.lt]
  catches := by
    have hlt : ∀ d ∈ w.contexts.chain c, d < w.contexts.next :=
      fun d hd => Nat.lt_of_le_of_lt (Contexts.le_of_mem_chain hd) h.lt
    rw [hcatches]
    apply World.catches_congr
    · intro d hd
      rw [hcontexts, Contexts.modify_previous, hother d (hlt d hd)]
    · intro d hd
      rw [hcontexts, ← hother d (hlt d hd)]
      by_cases hdc : d = c
      · subst hdc
        rw [Contexts.modify_self]
      · rw [Contexts.modify_ne _ _ hdc]
  stack := hstack

/-- What a new task leaves alone. -/
theorem World.executeAsNewTask_other {self : ObjectId} {m : ModuleId} {insPos : Int}
    {func : Option FunctionId} {previous : Option ContextId} {child : TaskId}
    (h : w.executeAsNewTask t self m insPos func previous = some (child, w')) :
    child = w.nextTask ∧ w'.nextTask = w.nextTask + 1 ∧
      (∀ s ≠ w.nextTask, w'.tasks s = w.tasks s) ∧
      ∀ d : Nat, d < w.contexts.next → w'.contexts.context d = w.contexts.context d := by
  unfold World.executeAsNewTask World.createContext at h
  obtain ⟨⟨c, w₁⟩, hcreate, heq⟩ := Option.map_eq_some_iff.mp h
  cases heq
  simp only at hcreate
  split at hcreate
  · cases hcreate
  · rename_i new contexts hnew
    cases hcreate
    unfold Contexts.create at hnew
    split at hnew
    · cases hnew
      refine ⟨rfl, rfl, ?_, ?_⟩
      · intro s hs
        simp [World.modifyTask, World.enqueue, hs]
      · intro d hd
        have hne : d ≠ w.contexts.next := Nat.ne_of_lt hd
        simp [World.enqueue, hne]
    · cases hnew

theorem Moves.newBlock {f : Frame} {new : ContextId} (h : w.InBlock t c)
    (hnew : (w.setFrame t f).createContext (w.contexts.context c).parentTask
      (w.contexts.context c).self (w.contexts.context c).module (w.contexts.context c).ins none
      ((w.setFrame t f).tasks (w.contexts.context c).parentTask).current = some (new, w')) :
    Moves w (w'.incIns new) t c new (.newBlock f) := by
  have hcurrent : ((w.setFrame t f).tasks t).current = some c := by
    simpa [World.setFrame, World.modifyTask] using h.current
  rw [h.parent, hcurrent] at hnew
  unfold World.createContext at hnew
  simp only at hnew
  split at hnew
  · cases hnew
  · rename_i d contexts hcreate
    cases hnew
    unfold Contexts.create at hcreate
    split at hcreate
    · cases hcreate
      have hother : ∀ d ∈ w.contexts.chain c, d ≠ w.contexts.next := fun d hd =>
        Nat.ne_of_lt (Nat.lt_of_le_of_lt (Contexts.le_of_mem_chain hd) h.lt)
      refine ⟨?_, ?_, ?_, ?_⟩
      · simp [World.incIns, World.modifyContext, World.modifyTask]
      · simp [World.incIns, World.modifyContext, World.setFrame, Effect.distance]
      · rw [World.catches_some (p := c) (by simp)]
        congr 1
        · simp
        · apply World.catches_congr <;>
            (intro d hd
             simp [hother d hd])
      · simp [World.incIns, World.modifyContext, World.modifyTask, World.setFrame, Effect.frame]
    · cases hcreate

theorem Moves.backBlock {f : Frame} {p : ContextId} (h : w.InBlock t c)
    (hback : (w.setFrame t f).taskBackContext t = some (some p, w')) :
    Moves w (w'.incIns p) t c p (.backBlock f) := by
  have hcurrent : ((w.setFrame t f).tasks t).current = some c := by
    simpa [World.setFrame, World.modifyTask] using h.current
  unfold World.taskBackContext at hback
  rw [hcurrent] at hback
  simp only at hback
  split at hback
  · cases hback
  · rename_i q hprevious
    cases hback
    have hprevious : (w.contexts.context c).previous = some p := hprevious
    refine ⟨?_, ?_, ?_, ?_⟩
    · simpa [World.incIns, World.modifyContext, World.modifyTask] using hprevious
    · simp [Contexts.setIns, Effect.distance]
    · rw [World.catches_some hprevious]
      apply World.catches_congr <;>
        (intro d hd
         by_cases hdp : d = p
         · subst hdp
           simp [Contexts.setIns]
         · simp [Contexts.setIns, hdp])
    · simp [World.incIns, World.modifyContext, World.modifyTask, World.setFrame, Effect.frame]

/-- How the loop goes on after an effect that leaves the task in context `c'`. -/
def GoesOn (w' : World) (t : TaskId) (c c' : ContextId) (o : World.Outcome) : Prop :=
  o = .running c' ∨ o = .stopped ∧ c' = c ∧ (w'.tasks t).state = .WAITING

theorem apply_moves {effect : Effect} {o : World.Outcome} (h : w.InBlock t c)
    (happly : w.apply t c effect = some (w', o)) (hraise : ∀ f err, effect ≠ .raise f err)
    (hcomplete : ∀ f, effect ≠ .complete f) :
    ∃ c', Moves w w' t c c' effect ∧ GoesOn w' t c c' o := by
  have hne : t ≠ w.nextTask := Nat.ne_of_lt h.created
  have hne' : ∀ f, t ≠ (w.setFrame t f).nextTask := fun _ => hne
  cases effect with
  | next f =>
    cases happly
    refine ⟨c, Moves.here h ?_ rfl (fun _ _ => rfl) rfl ?_, .inl rfl⟩
    · simp [World.setFrame, World.incIns, World.modifyContext, World.modifyTask]
    · simp [World.setFrame, World.incIns, World.modifyContext, World.modifyTask, Effect.frame]
  | jump f n =>
    cases happly
    refine ⟨c, Moves.here h ?_ ?_ (fun _ _ => rfl) rfl ?_, .inl rfl⟩
    · simp [World.setFrame, World.modifyContext, World.modifyTask]
    · simp only [World.modifyContext, Effect.distance, Int.add_assoc]
      rfl
    · simp [World.setFrame, World.modifyContext, World.modifyTask, Effect.frame]
  | call f func self parentContext =>
    simp only [World.apply] at happly
    split at happly
    · cases happly
    · rename_i child w₁ hnew
      obtain ⟨rfl, hnext, htasks, hcontexts⟩ := World.executeAsNewTask_other hnew
      have htask : w₁.tasks t = { w.tasks t with resval := f.resval, entityStack := f.stack } := by
        rw [htasks t hne]
        simp [World.setFrame, World.modifyTask]
      split at happly
      · cases happly
        refine ⟨c, Moves.here h ?_ rfl hcontexts rfl ?_, .inl rfl⟩ <;>
          simp [World.setResval, World.futureCreate, World.incIns, World.modifyContext,
            World.modifyTask, htask, Effect.frame]
      · cases happly
        refine ⟨c, Moves.here h ?_ rfl hcontexts rfl ?_, .inr ⟨rfl, rfl, ?_⟩⟩ <;>
          simp [World.setState, World.addDependent, World.incIns, World.modifyContext,
            World.modifyTask, htask, Effect.frame, hne']
  | background f func self =>
    cases happly
    refine ⟨c, Moves.here h ?_ rfl (fun _ _ => rfl) rfl ?_, .inl rfl⟩ <;>
      simp [World.setResval, World.incIns, World.modifyContext, World.setFrame, World.modifyTask,
        hne, Effect.frame]
  | load f m =>
    simp only [World.apply] at happly
    split at happly
    · cases happly
    · rename_i child w₁ hnew
      obtain ⟨rfl, hnext, htasks, hcontexts⟩ := World.executeAsNewTask_other hnew
      have htask : w₁.tasks t = { w.tasks t with resval := f.resval, entityStack := f.stack } := by
        rw [htasks t hne]
        simp [World.setFrame, World.modifyTask]
      cases happly
      refine ⟨c, Moves.here h ?_ rfl hcontexts rfl ?_, .inr ⟨rfl, rfl, ?_⟩⟩ <;>
        simp [World.setState, World.addDependent, World.incIns, World.modifyContext,
          World.modifyTask, htask, Effect.frame, hne']
  | wait f task =>
    cases happly
    by_cases htask : t = task
    · subst htask
      refine ⟨c, Moves.here h ?_ rfl (fun _ _ => rfl) rfl ?_, .inr ⟨rfl, rfl, ?_⟩⟩ <;>
        simp [World.setState, World.addDependent, World.incIns, World.modifyContext,
          World.setFrame, World.modifyTask, Effect.frame]
    · refine ⟨c, Moves.here h ?_ rfl (fun _ _ => rfl) rfl ?_, .inr ⟨rfl, rfl, ?_⟩⟩ <;>
        simp [World.setState, World.addDependent, World.incIns, World.modifyContext,
          World.setFrame, World.modifyTask, Effect.frame, htask]
  | newBlock f =>
    simp only [World.apply] at happly
    split at happly
    · cases happly
    · rename_i new w₁ hnew
      cases happly
      exact ⟨new, Moves.newBlock h hnew, .inl rfl⟩
  | backBlock f =>
    simp only [World.apply] at happly
    split at happly
    · rename_i p w₁ hback
      cases happly
      exact ⟨p, Moves.backBlock h hback, .inl rfl⟩
    · cases happly
  | setCatch f n =>
    cases happly
    refine ⟨c, ⟨?_, ?_, ?_, ?_⟩, .inl rfl⟩
    · simpa [World.incIns, World.modifyContext, World.setFrame, World.modifyTask] using h.current
    · simp [Effect.distance]
    · rw [World.catches_of_ne (w := w) (fun d hd => by simp [hd]) (by simp), World.catches_eq w]
      simp [Effect.catches]
    · simp [World.incIns, World.modifyContext, World.setFrame, World.modifyTask, Effect.frame]
  | raise f err => exact absurd rfl (hraise f err)
  | complete f => exact absurd rfl (hcomplete f)

/-- The effect of an instruction moves control and changes the blocks as on a path. -/
structure Effect.Follows (ins : Instruction) (effect : Effect) : Prop where
  next : ∀ i, i + effect.distance ∈ ins.nexts i
  blocks : ∀ (base i : Int) (cs : List Int), cs ≠ [] → (∀ j ∈ ins.handler i, 0 ≤ base + j) →
    ins.blocks i (cs.map (handlerAt base)) =
      some ((effect.catches (base + i) cs).map (handlerAt base))

theorem Effect.Follows.straight {ins : Instruction} {effect : Effect} (h : effect.Straight)
    (hnext : ∀ i, ins.nexts i = [i + 1])
    (hblocks : ∀ i contexts, ins.blocks i contexts = some contexts) : effect.Follows ins := by
  constructor
  · intro i
    rw [hnext]
    cases effect <;> first | exact List.mem_cons_self | exact absurd h id
  · intro base i cs _ _
    rw [hblocks]
    cases effect <;> first | rfl | exact absurd h id

theorem execute_follows {env : Env} {ins : Instruction} {effect : Effect}
    (h : execute env w t c ins = some effect) (hraise : ∀ f err, effect ≠ .raise f err)
    (hcomplete : ∀ f, effect ≠ .complete f) : effect.Follows ins := by
  obtain ⟨op, arg⟩ := ins
  by_cases hop : op.isControl
  · cases op with
    | NBLK =>
      cases arg <;> simp [execute, executeNBLK] at h
      subst h
      refine ⟨fun i => List.mem_cons_self, fun base i cs _ _ => ?_⟩
      simp [Instruction.blocks, Effect.catches, handlerAt]
    | BBLK =>
      cases arg <;> simp [execute, executeBBLK] at h
      subst h
      refine ⟨fun i => List.mem_cons_self, fun base i cs hcs _ => ?_⟩
      cases cs with
      | nil => exact absurd rfl hcs
      | cons x cs => rfl
    | CTCH =>
      rcases arg with _ | _ | _ | (_ | n | _) <;> simp [execute, executeCTCH] at h
      subst h
      refine ⟨fun i => List.mem_cons_self, fun base i cs hcs hhandler => ?_⟩
      have htarget : ¬ base + i + n + 1 < 0 := by
        have hj := hhandler (i + 1 + n) List.mem_cons_self
        omega
      cases cs with
      | nil => exact absurd rfl hcs
      | cons x cs =>
        simp only [Instruction.blocks, Instruction.target, Effect.catches, List.map_cons,
          List.head?_cons, handlerAt, if_neg htarget]
        congr 3
        omega
    | JMP =>
      rcases arg with _ | _ | _ | (_ | n | _) <;> simp [execute, executeJMP] at h
      subst h
      refine ⟨fun i => ?_, fun base i cs _ _ => rfl⟩
      simp [Instruction.nexts, Instruction.target, Effect.distance]
      omega
    | IF | IFN =>
      rcases arg with _ | _ | _ | (_ | n | _) <;> simp [execute, executeIF] at h
      split at h
      · cases h
        refine ⟨fun i => ?_, fun base i cs _ _ => rfl⟩
        simp [Instruction.nexts, Instruction.target, Effect.distance]
        omega
      · cases h
        exact ⟨fun i => List.mem_cons_self, fun base i cs _ _ => rfl⟩
    | RET =>
      simp only [execute, executeRET] at h
      repeat' split at h
      all_goals first | exact absurd rfl (hcomplete _) | cases h
      all_goals exact absurd rfl (hcomplete _)
    | EXIT =>
      cases arg <;> simp [execute, executeEXIT] at h
      subst h
      exact absurd rfl (hcomplete _)
    | _ => cases hop
  · have hop : op.isControl = false := by simpa using hop
    have hstraight := execute_straight hop h
    by_cases hrais : op = .RAIS
    · subst hrais
      simp only [execute, executeRAIS] at h
      repeat' split at h
      all_goals cases h
      all_goals exact absurd rfl (hraise _ _)
    · apply Effect.Follows.straight hstraight
      · intro i
        cases op <;> first | rfl | exact absurd rfl hrais | cases hop
      · intro i contexts
        cases op <;> first | rfl | cases hop

/-! ## Iterations -/

/-- The error is pending in the context where it arose. -/
structure Raised (w w' : World) (t : TaskId) (c : ContextId) (taken : Nat) : Prop where
  pending : (w'.contexts.context c).error.isSome
  current : (w'.tasks t).current = (w.tasks t).current
  catches : w'.catches c = w.catches c
  height : (w'.tasks t).entityStack.length + taken = (w.tasks t).entityStack.length

theorem apply_raised {env : Env} {ins : Instruction} {f : Frame} {err : ObjectId}
    {o : World.Outcome} (hexecute : execute env w t c ins = some (.raise f err))
    (happly : w.apply t c (.raise f err) = some (w', o)) :
    o = .running c ∧ ∃ taken ≤ ins.takes, Raised w w' t c taken ∧
      (w'.tasks t).entityStack = (w.tasks t).entityStack.drop taken := by
  obtain ⟨taken, htakes, hlength, hstack⟩ := execute_stacks hexecute
  cases happly
  refine ⟨rfl, taken, htakes, ⟨?_, ?_, ?_, ?_⟩, ?_⟩
  · simp
  · simp [World.incIns, World.modifyContext, World.setFrame, World.modifyTask]
  · apply World.catches_congr <;>
      (intro d _
       by_cases hdc : d = c
       · subst hdc
         simp
       · simp [hdc])
  · simp only [World.incIns, World.modifyContext, World.setFrame, World.modifyTask,
      Function.update_self, Frame.withResval, hstack, List.length_drop]
    omega
  · simp [World.incIns, World.modifyContext, World.setFrame, World.modifyTask, Frame.withResval,
      hstack]

/-- The instruction that an iteration executes. -/
theorem iterate_cases {env : Env} {o : World.Outcome} {base : Nat} {is : List Instruction}
    (hcode : w.HasCode c base is) (hlow : 0 ≤ (w.pathState t c base).pc)
    (hhigh : (w.pathState t c base).pc < is.length)
    (herror : (w.contexts.context c).error = none) (h : w.iterate env t c = some (w', o)) :
    ∃ ins effect, insAt is (w.pathState t c base).pc = some ins ∧
      execute env w t c ins = some effect ∧ w.apply t c effect = some (w', o) := by
  have hfetch : w.fetch t c = some (true, w) := by simp [World.fetch, herror]
  simp only [World.iterate, hfetch] at h
  simp only [World.pathState] at hlow hhigh ⊢
  cases hins : w.contextIns c with
  | none => simp [hins] at h
  | some ins =>
    simp only [hins] at h
    cases heffect : execute env w t c ins with
    | none => simp [heffect] at h
    | some effect =>
      simp only [heffect] at h
      refine ⟨ins, effect, ?_, heffect, h⟩
      unfold World.contextIns at hins
      have hpos := hcode ((w.contexts.context c).ins - base).toNat (by omega)
      simp only at hins
      rw [if_neg (by omega)] at hins
      rw [insAt, if_neg (by omega), ← hpos, ← hins]
      congr 1
      omega

/-- An iteration follows a path, unless it raises an error or ends the task. -/
theorem iterate_is_step {env : Env} {o : World.Outcome} {base : Nat} {is : List Instruction}
    (hblock : w.InBlock t c) (hcode : w.HasCode c base is)
    (hlow : 0 ≤ (w.pathState t c base).pc) (hhigh : (w.pathState t c base).pc < is.length)
    (hhandler : ∀ ins, insAt is (w.pathState t c base).pc = some ins →
      ∀ j ∈ ins.handler (w.pathState t c base).pc, 0 ≤ base + j)
    (herror : (w.contexts.context c).error = none) (h : w.iterate env t c = some (w', o)) :
    (∃ c' pc ins, (w.pathState t c base).step is (.goto pc) = some (w'.pathState t c' base) ∧
      insAt is (w.pathState t c base).pc = some ins ∧
      Replaces ins.takes ins.leaves (w.tasks t).entityStack (w'.tasks t).entityStack ∧
      (w'.tasks t).current = some c' ∧ GoesOn w' t c c' o) ∨
    (o = .running c ∧ ∃ taken, Raised w w' t c taken ∧
      (w'.tasks t).entityStack = (w.tasks t).entityStack.drop taken) ∨
    (o = .stopped ∧ (w'.tasks t).state = .COMPLETE) := by
  obtain ⟨ins, effect, hins, hexecute, happly⟩ := iterate_cases hcode hlow hhigh herror h
  by_cases hraise : ∃ f err, effect = .raise f err
  · obtain ⟨f, err, rfl⟩ := hraise
    obtain ⟨ho, taken, -, hraised, hstack⟩ := apply_raised hexecute happly
    exact .inr (.inl ⟨ho, taken, hraised, hstack⟩)
  by_cases hcomplete : ∃ f, effect = .complete f
  · obtain ⟨f, rfl⟩ := hcomplete
    cases happly
    refine .inr (.inr ⟨rfl, ?_⟩)
    simp [World.incIns, World.modifyContext, World.setState, World.modifyTask]
  have hraise : ∀ f err, effect ≠ .raise f err := fun f err heq => hraise ⟨f, err, heq⟩
  have hcomplete : ∀ f, effect ≠ .complete f := fun f heq => hcomplete ⟨f, heq⟩
  obtain ⟨c', hmoves, hgoes⟩ := apply_moves hblock happly hraise hcomplete
  have hfollows := execute_follows hexecute hraise hcomplete
  have hstacks := execute_stacks hexecute
  have hreplaces : Replaces ins.takes ins.leaves (w.tasks t).entityStack effect.frame.stack := by
    cases effect <;> first | exact hstacks | exact absurd rfl (hraise _ _)
  left
  refine ⟨c', (w.pathState t c base).pc + effect.distance, ins, ?_, hins, ?_, hmoves.current, hgoes⟩
  rotate_left
  · rw [hmoves.stack]
    exact hreplaces
  simp only [PathState.step, hins, if_pos (hfollows.next _)]
  have hblocks := hfollows.blocks base (w.pathState t c base).pc (w.catches c)
    (by rw [World.catches_eq]; simp) (hhandler ins hins)
  simp only [World.pathState] at hblocks ⊢
  have hposition : (base : Int) + ((w.contexts.context c).ins - base) =
      (w.contexts.context c).ins := by omega
  rw [hposition] at hblocks
  rw [hblocks, hmoves.ins, hmoves.catches, hmoves.stack, hreplaces.length, Option.map_some]
  congr 2
  omega

/-- An error that arises in a block with a handler is caught there. -/
theorem raised_is_step {env : Env} {o : World.Outcome} {base taken : Nat} {is : List Instruction}
    (hcode : w.HasCode c base is) (hlow : 0 ≤ (w.pathState t c base).pc)
    (hhigh : (w.pathState t c base).pc < is.length)
    (herror : (w.contexts.context c).error = none) (h : w.iterate env t c = some (w', o))
    (hraised : Raised w w' t c taken) (hcatch : base ≤ (w.contexts.context c).catchIns)
    (hinside : (w.contexts.context c).catchIns < base + is.length) :
    ∃ w'', w'.fetch t c = some (true, w'') ∧ w''.tasks = w'.tasks ∧
      (w.pathState t c base).step is (.raise taken) = some (w''.pathState t c base) := by
  obtain ⟨ins, effect, hins, -, -⟩ := iterate_cases hcode hlow hhigh herror h
  have hsame := hraised.catches
  rw [World.catches_eq, World.catches_eq w] at hsame
  have hcatchIns := (List.cons.inj hsame).1
  refine ⟨w'.resumeAt c, World.fetch_here hraised.pending (by omega), rfl, ?_⟩
  have hcatches : (w'.resumeAt c).catches c = -1 :: (w.catches c).tail := by
    rw [World.catches_of_ne (w := w') (fun d hd => by simp [World.resumeAt, hd])
      (by simp [World.resumeAt]), hraised.catches]
    simp [World.resumeAt]
  have hcaught : catchError ((w.pathState t c base).contexts) =
      some ((w.contexts.context c).catchIns - base,
        ((w'.resumeAt c).catches c).map (handlerAt base)) := by
    rw [hcatches, World.pathState, World.catches_eq, List.tail_cons]
    simp [handlerAt, catchError, show ¬ (w.contexts.context c).catchIns < 0 by omega]
  simp only [PathState.step, hins, hcaught]
  rw [if_pos ⟨by omega, by omega⟩]
  have hheight := hraised.height
  simp only [World.pathState, World.resumeAt, Contexts.modify_self, hcatchIns, Option.some.injEq,
    PathState.mk.injEq, true_and, World.modifyContext]
  omega

end

end JeffVm
