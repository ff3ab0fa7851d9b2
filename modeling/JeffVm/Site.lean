import JeffVm.Lib.Traced
import JeffVm.Process

/-!
# Running a piece of code

A task executes a piece of code that lies on the tape of its context. Some parts of the code,
those of sub-expressions, are evaluated as a whole: the site says what the process may do until
the task comes to the end of the part, with the operand stack and the context as they were
before it.
-/

set_option autoImplicit false

namespace JeffVm

/-- The task and the context that execute the code, which lies at `base`. A part of the code is
its first position and its length; `through` relates the worlds before and after a part, such
as `Runs (processStep env)`. -/
structure Site where
  task : TaskId
  context : ContextId
  info : Context
  base : Nat
  code : List Instruction
  parts : List (Nat × Nat)
  through : World → World → Prop

/-- What is seen of a run of a piece of code. -/
inductive RunEvent where
  | letVar (id : String) (e : Entity)
  | setVar (id : String) (e : Entity)
  | setField (obj : Entity) (id : String) (e : Entity)
  | indexed (s : Store) (arr index : Entity)
  | setIndexed (s : Store) (arr index e : Entity)
  | evaluated (before after : Entity)
  | raised

/-- The elements of tuples are not lost, and the tapes are the same. -/
structure Store.Keeps (s s' : Store) : Prop where
  modules : ∀ m, (s'.modules m).tape = (s.modules m).tape
  tuples : ∀ e table, tupleOf s e = some table → tupleOf s' e = some table

namespace Site

variable (env : Env) (S : Site)

/-- The task is at position `k` of the code. -/
structure At (w : World) (k : Nat) (f : Frame) : Prop where
  running : w.running = some (S.task, S.context)
  context : w.contexts.context S.context = { S.info with ins := S.base + k, error := none }
  parent : S.info.parentTask = S.task
  frame : w.frame S.task = f
  code : ∀ i < S.code.length, (w.store.modules S.info.module).tape[S.base + i]? = S.code[i]?

/-- What an instruction shows of itself. -/
def shown (ins : Instruction) (f : Frame) : Option RunEvent :=
  match ins with
  | ⟨.LET, .id id⟩ => some (.letVar id f.resval)
  | ⟨.SET, .id id⟩ => some (.setVar id f.resval)
  | ⟨.FLD, .id id⟩ => f.stack.head?.map (.setField f.resval id)
  | ⟨.AIDX, .noArg⟩ => f.stack.head?.map (.indexed f.store · f.resval)
  | ⟨.ASET, .noArg⟩ =>
    match f.stack with
    | arr :: e :: _ => some (.setIndexed f.store arr f.resval e)
    | _ => none
  | _ => none

/-- What an instruction of the code that leaves the world `w'` shows. -/
def event (ins : Instruction) (f : Frame) (w' : World) : Option RunEvent :=
  (shown ins f).or
    (if (w'.contexts.context S.context).error.isSome then some .raised else none)

/-- What the process does from the start of a part to its end. -/
structure Evaluates (w w' : World) (k len : Nat) (f f' : Frame) : Prop where
  start : S.At w k f
  through : S.through w w'
  finish : S.At w' (k + len) f'
  stack : f'.stack = f.stack
  keeps : f.store.Keeps f'.store

/-- One instruction of the code, or one part of it. -/
inductive Step : World → Option RunEvent → World → Prop where
  | own {w w' : World} {k : Nat} {f : Frame} {ins : Instruction} : S.At w k f →
    S.code[k]? = some ins → (∀ part ∈ S.parts, part.1 ≠ k) →
    processStep env w .execute = some w' → Step w (S.event ins f w') w'
  | part {w w' : World} {k len : Nat} {f f' : Frame} : (k, len) ∈ S.parts →
    S.Evaluates w w' k len f f' → Step w (some (.evaluated f.resval f'.resval)) w'

/-- The task is not about to evaluate a part, and there is no next step. -/
def Stops (w : World) : Prop :=
  (∀ k f, S.At w k f → ∀ part ∈ S.parts, part.1 ≠ k) ∧ ∀ e w', ¬ S.Step env w e w'

variable {env : Env} {S : Site} {w w' : World} {k k' : Nat} {f f' : Frame} {ins : Instruction}

theorem At.position_unique (h : S.At w k f) (h' : S.At w k' f') : k' = k := by
  have heq := congrArg Context.ins (h.context.symm.trans h'.context)
  simp only at heq
  omega

theorem At.frame_unique (h : S.At w k f) (h' : S.At w k' f') : f' = f :=
  h'.frame.symm.trans h.frame

theorem At.contextIns (h : S.At w k f) (hins : S.code[k]? = some ins) :
    w.contextIns S.context = some ins := by
  have hk : k < S.code.length := (List.getElem?_eq_some_iff.mp hins).1
  have hcode := h.code k hk
  have hpos : ¬ (S.base : Int) + k < 0 := by omega
  have hnat : ((S.base : Int) + k).toNat = S.base + k := by omega
  simp only [World.contextIns, h.context, if_neg hpos, hnat]
  rw [hcode, hins]

/-- An instruction of the code that is not the start of a part. -/
structure Next (S : Site) (k : Nat) (ins : Instruction) : Prop where
  ins : S.code[k]? = some ins
  own : ∀ part ∈ S.parts, part.1 ≠ k

theorem At.processStep (env : Env) (h : S.At w k f) (hnext : S.Next k ins) :
    processStep env w .execute =
      match execute env w S.task S.context ins with
      | none => none
      | some effect =>
        match w.apply S.task S.context effect with
        | none => none
        | some (w', .running c) => some { w' with running := some (S.task, c) }
        | some (w', .stopped) => w'.stop env S.task := by
  have hfetch : w.fetch S.task S.context = some (true, w) := by
    simp [World.fetch, h.context]
  simp only [JeffVm.processStep, h.running, World.iterate, hfetch, h.contextIns hnext.ins]
  cases execute env w S.task S.context ins with
  | none => rfl
  | some effect => rfl

/-- The step at an instruction of the code. -/
theorem At.step_iff (h : S.At w k f) (hnext : S.Next k ins) {w₁ : World}
    (hstep : JeffVm.processStep env w .execute = some w₁) (e : Option RunEvent) (w' : World) :
    S.Step env w e w' ↔ e = S.event ins f w₁ ∧ w' = w₁ := by
  constructor
  · intro hs
    cases hs with
    | own hat hins hown hrun =>
      cases h.position_unique hat
      cases h.frame_unique hat
      cases hnext.ins.symm.trans hins
      cases hstep.symm.trans hrun
      exact ⟨rfl, rfl⟩
    | part hmem heval =>
      cases h.position_unique heval.start
      exact absurd rfl (hnext.own _ hmem)
  · rintro ⟨rfl, rfl⟩
    exact .own h hnext.ins hnext.own hstep

theorem At.no_step (h : S.At w k f) (hnext : S.Next k ins)
    (hexec : execute env w S.task S.context ins = none) : S.Stops env w := by
  constructor
  · intro k' f' hat
    cases h.position_unique hat
    exact hnext.own
  · intro e w' hs
    cases hs with
    | own hat hins hown hrun =>
      cases h.position_unique hat
      cases hnext.ins.symm.trans hins
      rw [h.processStep env hnext, hexec] at hrun
      cases hrun
    | part hmem heval =>
      cases h.position_unique heval.start
      exact absurd rfl (hnext.own _ hmem)

theorem At.stops_end (h : S.At w k f) (hk : S.code[k]? = none)
    (hown : ∀ part ∈ S.parts, part.1 ≠ k) : S.Stops env w := by
  constructor
  · intro k' f' hat
    cases h.position_unique hat
    exact hown
  · intro e w' hs
    cases hs with
    | own hat hins _ _ =>
      cases h.position_unique hat
      rw [hk] at hins
      cases hins
    | part hmem heval =>
      cases h.position_unique heval.start
      exact absurd rfl (hown _ hmem)

/-! ## Steps by their effect -/

/-- After the step the task is at position `k'` with the frame `f'`, and nothing else could have
been done. -/
structure Goes (env : Env) (S : Site) (w w' : World) (e : Option RunEvent) (k' : Nat)
    (f' : Frame) : Prop where
  at_ : S.At w' k' f'
  step : ∀ e' w'', S.Step env w e' w'' ↔ e' = e ∧ w'' = w'

theorem event_of_no_error (h : (w'.contexts.context S.context).error = none) :
    S.event ins f w' = shown ins f := by
  simp [event, h]

theorem At.goes_next {x : Frame} (env : Env) (h : S.At w k f) (hnext : S.Next k ins)
    (hexec : execute env w S.task S.context ins = some (.next x))
    (htapes : ∀ m, (x.store.modules m).tape = (f.store.modules m).tape) :
    ∃ w', S.Goes env w w' (shown ins f) (k + 1) x := by
  have hstep := h.processStep env hnext
  rw [hexec] at hstep
  simp only [World.apply] at hstep
  have hstore : w.store = f.store := congrArg Frame.store h.frame
  have hat : S.At { (w.setFrame S.task x).incIns S.context with
      running := some (S.task, S.context) } (k + 1) x := by
    refine ⟨rfl, ?_, h.parent, ?_, ?_⟩
    · simp [World.incIns, World.modifyContext, World.setFrame, World.modifyTask, h.context,
        Int.add_assoc]
    · simp [World.frame, World.incIns, World.modifyContext, World.setFrame, World.modifyTask]
    · intro i hi
      have hcode := h.code i hi
      rw [hstore] at hcode
      simpa [World.incIns, World.modifyContext, World.setFrame, htapes] using hcode
  refine ⟨_, hat, ?_⟩
  intro e' w''
  rw [h.step_iff hnext hstep, event_of_no_error (by rw [hat.context])]

theorem At.goes_jump (h : S.At w k f) (hnext : S.Next k ins) {n : Int}
    (hexec : execute env w S.task S.context ins = some (.jump f n)) (hk : (k' : Int) = k + n + 1) :
    ∃ w', S.Goes env w w' (shown ins f) k' f := by
  have hstep := h.processStep env hnext
  rw [hexec] at hstep
  simp only [World.apply] at hstep
  have hstore : w.store = f.store := congrArg Frame.store h.frame
  have hat : S.At { (w.setFrame S.task f).modifyContext S.context
      (fun x => { x with ins := x.ins + n + 1 }) with
      running := some (S.task, S.context) } k' f := by
    refine ⟨rfl, ?_, h.parent, ?_, ?_⟩
    · simp only [World.modifyContext, World.setFrame, World.modifyTask, Contexts.modify_self,
        h.context, Context.mk.injEq, and_true, true_and]
      omega
    · simp [World.frame, World.modifyContext, World.setFrame, World.modifyTask]
    · intro i hi
      have hcode := h.code i hi
      rw [hstore] at hcode
      simpa [World.modifyContext, World.setFrame] using hcode
  refine ⟨_, hat, ?_⟩
  intro e' w''
  rw [h.step_iff hnext hstep, event_of_no_error (by rw [hat.context])]

theorem stops_of_not_at (h : ∀ k f, ¬ S.At w k f) : S.Stops env w := by
  constructor
  · intro k f hat
    exact absurd hat (h k f)
  · intro e w' hs
    cases hs with
    | own hat => exact h _ _ hat
    | part _ heval => exact h _ _ heval.start

/-- An instruction that raises is the last step. -/
theorem At.goes_error (h : S.At w k f) (hnext : S.Next k ins) {err : ObjectId}
    (hexec : execute env w S.task S.context ins = some (.raise f' err)) :
    ∃ w', (∀ e' w'', S.Step env w e' w'' ↔ e' = (shown ins f).or (some .raised) ∧ w'' = w') ∧
      ∀ k f, ¬ S.At w' k f := by
  have hstep := h.processStep env hnext
  rw [hexec] at hstep
  simp only [World.apply] at hstep
  have herror : ∀ w' : World, (w'.contexts.context S.context).error.isSome = true →
      ∀ k f, ¬ S.At w' k f := by
    intro w' hsome k f hat
    rw [hat.context] at hsome
    cases hsome
  have hraised : ((({ (((w.setFrame S.task (f'.withResval (.obj err))).modifyContext
      S.context (fun x => { x with error := some err })).incIns S.context) with
      running := some (S.task, S.context) } : World).contexts.context S.context).error).isSome =
      true := by
    simp [World.incIns, World.modifyContext]
  revert hraised hstep
  generalize ({ (((w.setFrame S.task (f'.withResval (.obj err))).modifyContext
      S.context (fun x => { x with error := some err })).incIns S.context) with
      running := some (S.task, S.context) } : World) = w₁
  intro hstep hraised
  refine ⟨w₁, ?_, herror w₁ hraised⟩
  intro e' w''
  rw [h.step_iff hnext hstep, event, if_pos hraised]

/-- An instruction that raises and shows nothing else shows the error. -/
theorem At.goes_raise (h : S.At w k f) (hnext : S.Next k ins) {err : ObjectId}
    (hexec : execute env w S.task S.context ins = some (.raise f' err))
    (hshown : shown ins f = none) :
    ∃ w', (∀ e' w'', S.Step env w e' w'' ↔ e' = some .raised ∧ w'' = w') ∧
      ∀ k f, ¬ S.At w' k f := by
  obtain ⟨w', hraise, herror⟩ := h.goes_error hnext hexec
  rw [hshown] at hraise
  exact ⟨w', hraise, herror⟩

end Site

/-! ## Code in pieces -/

/-- An instruction, or the code of a part. -/
inductive Piece where
  | own (ins : Instruction)
  | part (is : List Instruction)

namespace Piece

def code : Piece → List Instruction
  | own ins => [ins]
  | part is => is

def codeAll (ps : List Piece) : List Instruction := ps.flatMap code

def size (ps : List Piece) : Nat := (codeAll ps).length

/-- The parts when the pieces lie at `k`. -/
def parts : Nat → List Piece → List (Nat × Nat)
  | _, [] => []
  | k, own _ :: ps => parts (k + 1) ps
  | k, part is :: ps => (k, is.length) :: parts (k + is.length) ps

/-- No part is empty. -/
def Solid (ps : List Piece) : Prop := part [] ∉ ps

@[simp] theorem size_nil : size [] = 0 := rfl

@[simp] theorem size_own (ins : Instruction) (ps : List Piece) :
    size (own ins :: ps) = 1 + size ps := by
  simp [size, codeAll, code]
  omega

@[simp] theorem size_part (is : List Instruction) (ps : List Piece) :
    size (part is :: ps) = is.length + size ps := by
  simp [size, codeAll, code]

@[simp] theorem size_append (ps qs : List Piece) : size (ps ++ qs) = size ps + size qs := by
  simp [size, codeAll]

@[simp] theorem codeAll_append (ps qs : List Piece) :
    codeAll (ps ++ qs) = codeAll ps ++ codeAll qs := by
  simp [codeAll]

@[simp] theorem codeAll_cons (p : Piece) (ps : List Piece) :
    codeAll (p :: ps) = p.code ++ codeAll ps := rfl

@[simp] theorem codeAll_nil : codeAll [] = [] := rfl

theorem parts_append (k : Nat) (ps qs : List Piece) :
    parts k (ps ++ qs) = parts k ps ++ parts (k + size ps) qs := by
  induction ps generalizing k with
  | nil => rfl
  | cons p ps ih =>
    cases p with
    | own ins =>
      rw [List.cons_append, parts, parts, ih, size_own]
      congr 2
      omega
    | part is =>
      rw [List.cons_append, parts, parts, ih, size_part, List.cons_append]
      congr 3
      omega

theorem le_of_mem_parts {k : Nat} {ps : List Piece} {part : Nat × Nat} (h : part ∈ parts k ps) :
    k ≤ part.1 := by
  induction ps generalizing k with
  | nil => cases h
  | cons p ps ih =>
    cases p with
    | own ins => exact Nat.le_of_succ_le (ih h)
    | part is =>
      cases List.mem_cons.mp h with
      | inl heq => rw [heq]
      | inr hmem => exact Nat.le_trans (Nat.le_add_right ..) (ih hmem)

theorem lt_of_mem_parts {k : Nat} {ps : List Piece} (hsolid : Solid ps) {part : Nat × Nat}
    (h : part ∈ parts k ps) : part.1 < k + size ps := by
  induction ps generalizing k with
  | nil => cases h
  | cons p ps ih =>
    have hrest : Solid ps := fun hmem => hsolid (List.mem_cons_of_mem _ hmem)
    cases p with
    | own ins =>
      have hlt := ih hrest h
      rw [size_own]
      omega
    | part is =>
      have hpos : 0 < is.length := by
        cases is with
        | nil => exact absurd List.mem_cons_self hsolid
        | cons i is => simp
      rw [size_part]
      cases List.mem_cons.mp h with
      | inl heq =>
        rw [heq]
        show k < k + (is.length + size ps)
        omega
      | inr hmem =>
        have hlt := ih hrest hmem
        omega

end Piece

namespace Site

/-- The pieces lie at position `k` of the site. -/
def Lies (S : Site) : Nat → List Piece → Prop
  | _, [] => True
  | k, .own ins :: ps => S.Next k ins ∧ S.Lies (k + 1) ps
  | k, .part is :: ps =>
    ((k, is.length) ∈ S.parts ∧ ∀ len, (k, len) ∈ S.parts → len = is.length) ∧
      S.Lies (k + is.length) ps

variable {S : Site}

theorem lies_append {k : Nat} {ps qs : List Piece} :
    S.Lies k (ps ++ qs) ↔ S.Lies k ps ∧ S.Lies (k + Piece.size ps) qs := by
  induction ps generalizing k with
  | nil => simp [Lies]
  | cons p ps ih =>
    cases p with
    | own ins => simp only [List.cons_append, Lies, ih, Piece.size_own, and_assoc, Nat.add_assoc]
    | part is => simp only [List.cons_append, Lies, ih, Piece.size_part, and_assoc, Nat.add_assoc]

/-- The site has these pieces. -/
structure Holds (S : Site) (ps : List Piece) : Prop where
  code : S.code = Piece.codeAll ps
  parts : S.parts = Piece.parts 0 ps
  solid : Piece.Solid ps

theorem Holds.lies_of_split {all : List Piece} (h : S.Holds all) {ps : List Piece} :
    ∀ pre, all = pre ++ ps → S.Lies (Piece.size pre) ps := by
  induction ps with
  | nil => intro pre _; trivial
  | cons p ps ih =>
    intro pre hall
    have hsolid : Piece.Solid pre := by
      intro hmem
      exact h.solid (by rw [hall]; exact List.mem_append_left _ hmem)
    have hbefore : ∀ part ∈ Piece.parts 0 pre, part.1 < Piece.size pre := by
      intro part hmem
      have hlt := Piece.lt_of_mem_parts hsolid hmem
      omega
    have hparts : S.parts = Piece.parts 0 pre ++ Piece.parts (Piece.size pre) (p :: ps) := by
      rw [h.parts, hall, Piece.parts_append, Nat.zero_add]
    have hrest : S.Lies (Piece.size (pre ++ [p])) ps := ih (pre ++ [p]) (by simp [hall])
    rw [Piece.size_append] at hrest
    cases p with
    | own ins =>
      refine ⟨⟨?_, ?_⟩, hrest⟩
      · rw [h.code, hall, Piece.codeAll_append]
        simp [Piece.size, Piece.code]
      · intro part hmem
        rw [hparts] at hmem
        cases List.mem_append.mp hmem with
        | inl hmem => exact Nat.ne_of_lt (hbefore part hmem)
        | inr hmem =>
          have hle := Piece.le_of_mem_parts (k := Piece.size pre + 1) hmem
          omega
    | part is =>
      rw [Piece.size_part, Piece.size_nil, Nat.add_zero] at hrest
      have hpos : 0 < is.length := by
        cases is with
        | nil => exact absurd (by rw [hall]; simp) h.solid
        | cons i is => simp
      refine ⟨⟨?_, ?_⟩, hrest⟩
      · rw [hparts]
        exact List.mem_append_right _ List.mem_cons_self
      · intro len hmem
        rw [hparts] at hmem
        cases List.mem_append.mp hmem with
        | inl hmem => exact absurd (hbefore _ hmem) (Nat.lt_irrefl _)
        | inr hmem =>
          cases List.mem_cons.mp hmem with
          | inl heq => exact congrArg Prod.snd heq
          | inr hmem =>
            have hle := Piece.le_of_mem_parts hmem
            simp only at hle
            omega

theorem Holds.lies {all : List Piece} (h : S.Holds all) : S.Lies 0 all :=
  h.lies_of_split [] rfl

/-- The position after all pieces. -/
theorem Holds.at_end (env : Env) {all : List Piece} (h : S.Holds all) {w : World} {f : Frame}
    (hat : S.At w (Piece.size all) f) : S.Stops env w := by
  apply hat.stops_end
  · rw [h.code]
    exact List.getElem?_eq_none (Nat.le_refl _)
  · intro part hmem
    rw [h.parts] at hmem
    have hlt := Piece.lt_of_mem_parts h.solid hmem
    omega

end Site

/-! ## A task that starts the code -/

/-- A process with one task, which starts the code with `resval` and the operand stack `stack`.
The other objects of its heap are `objects`. -/
def codeWorld (code : List Instruction) (objects : ObjectId → Object) (resval : Entity)
    (stack : List Entity) : World where
  store :=
    { objects := fun o => if o = 0 then ⟨.Object, .empty, .none⟩ else objects o
      nextObject := 10
      classes := fun _ => ⟨"Object", [], .empty, 0⟩
      functions := fun _ => ⟨"f", 0, false, false, false, false, 0, 0⟩
      modules := fun _ => ⟨"m", code, .empty, .empty, 0, true⟩
      builtin := 0 }
  contexts :=
    { context := fun _ => ⟨0, none, 0, 0, 0, none, 0, none, -1⟩
      next := 1
      previous_lt := by
        intro c p h
        cases h }
  tasks := fun _ => ⟨.RUNNING, some 0, resval, stack, none, [], false⟩
  nextTask := 1
  queued := []
  waiting := []
  completed := []
  background := []
  running := some (0, 0)

def codeSite (code : List Instruction) (parts : List (Nat × Nat))
    (through : World → World → Prop) : Site :=
  ⟨0, 0, ⟨0, none, 0, 0, 0, none, 0, none, -1⟩, 0, code, parts, through⟩

theorem codeWorld_at (code : List Instruction) (parts : List (Nat × Nat))
    (through : World → World → Prop) (objects : ObjectId → Object) (resval : Entity)
    (stack : List Entity) :
    (codeSite code parts through).At (codeWorld code objects resval stack) 0
      ⟨(codeWorld code objects resval stack).store, resval, stack⟩ where
  running := rfl
  context := rfl
  parent := rfl
  frame := rfl
  code i _ := by simp [codeWorld, codeSite]

end JeffVm
