import JeffVm.MemoryEdges

/-!
# The memory graph of a process

A process with the edges that its instructions increment and decrement. The edges that a native
function or the loader of modules leaves are parameters.
-/

set_option autoImplicit false

namespace JeffVm

/-- The edges that the code outside of the instructions leaves. -/
structure EdgeEnv where
  env : Env
  called : World → TaskId → ContextId → Instruction → (ObjectId → ObjectId → Int) →
    ObjectId → ObjectId → Int
  finished : World → BackgroundThreadArgs → (ObjectId → ObjectId → Int) →
    ObjectId → ObjectId → Int

namespace EdgeHeap

/-- `context_let` -/
def contextLet (h : EdgeHeap) (cs : Contexts) (c : ContextId) (id : String) (e : Entity) :
    EdgeHeap :=
  h.objectSetMember (cs.context c).memberObj id e

/-- `context_set` -/
def contextSet (h : EdgeHeap) (cs : Contexts) (c : ContextId) (id : String) (e : Entity) :
    EdgeHeap :=
  let ctx := cs.context c
  if (h.store.get ctx.memberObj id).isSome then h.objectSetMember ctx.memberObj id e
  else
    match (cs.chain? ctx.previous).find? fun p =>
      (h.store.get (cs.context p).memberObj id).isSome with
    | some p => h.objectSetMember (cs.context p).memberObj id e
    | none =>
      if (h.store.get ctx.self id).isSome then h.objectSetMember ctx.self id e
      else h.objectSetMember ctx.memberObj id e

end EdgeHeap

section Edges

variable (w : World) (t : TaskId) (c : ContextId)

/-- What an instruction with a name looks up or stores under it. -/
def namedHeap (op : Op) (id : String) (resval : Entity) (h : EdgeHeap) : EdgeHeap :=
  match op with
  | .RES | .PUSH | .PEEK | .RET => (h.contextLookup w.contexts c id).2
  | .LET => h.contextLet w.contexts c id resval
  | .SET =>
    h.contextSet w.contexts c id (w.tasks (w.contexts.context c).parentTask).resval
  | .BOR =>
    match resval with
    | .obj _ => h
    | _ => (h.contextLookup w.contexts c id).2
  | .ADD | .SUB | .MULT | .DIV | .MOD | .AND | .OR | .BAND | .BXOR | .LT | .GT | .LTE | .GTE
  | .EQ | .NEQ =>
    match resval with
    | .prim _ => (h.contextLookup w.contexts c id).2
    | _ => h
  | _ => h

/-- The result that `WAIT` keeps in a future whose task has just been seen to be complete. -/
def awaitedHeap (resval : Entity) (h : EdgeHeap) : EdgeHeap :=
  match resval with
  | .obj o =>
    match h.store.cls o, h.store.internal o with
    | .Future, .future ⟨some task, isComplete, false⟩ =>
      if isComplete ∨ (w.tasks task).state = .COMPLETE ∨ (w.tasks task).state = .ERROR then
        h.objectSetMember o "$resval" (if task = t then resval else (w.tasks task).resval)
      else h
    | _, _ => h
  | _ => h

/-- The heap after the writes of an instruction, but for the error that it makes. -/
def writtenHeap (ins : Instruction) (resval : Entity) (h : EdgeHeap) : EdgeHeap :=
  match ins.op with
  | .WAIT => awaitedHeap w t resval h
  | _ =>
    match ins.arg with
    | .id id => namedHeap w c ins.op id resval h
    | _ => h

/-- `RAIS` does not make the error that it raises. -/
def raisesResval (ins : Instruction) : Bool :=
  match ins.op, (w.tasks t).resval with
  | .RAIS, .obj err => w.store.inheritsFrom (w.store.cls err) .Error
  | _, _ => false

/-- Whether an instruction calls a native function or the loader: it cannot do without. -/
def callsNative (env : Env) (ins : Instruction) : Bool :=
  let env : Env := { env with
    native := fun _ _ _ _ _ _ => none
    modulemanagerLookup := fun _ _ => none }
  (execute env w t c ins).isNone

/-- The edges after an instruction. Those of a new error do not depend on its message. -/
def executeEdges (env : EdgeEnv) (ins : Instruction) (edges : ObjectId → ObjectId → Int) :
    ObjectId → ObjectId → Int :=
  let f : EdgeFrame := ⟨⟨w.store, edges⟩, (w.tasks t).resval, (w.tasks t).entityStack⟩
  if callsNative w t c env.env ins then env.called w t c ins edges
  else
    match EdgeFrame.execute w t c ins f with
    | some effect => effect.heap.edges
    | none =>
      let h := writtenHeap w t c ins f.resval f.heap
      match execute env.env w t c ins with
      | some (.raise _ _) =>
        if raisesResval w t ins then h.edges else (h.errorNew (w.stackLines t) []).2.edges
      | _ => h.edges

end Edges

section Stores

variable {env : Env} {w : World} {t : TaskId} {c : ContextId} {op : Op} {id : String}
variable {f f' : Frame} {edges : ObjectId → ObjectId → Int}

theorem store_lookup (cs : Contexts) (id : String) :
    (EdgeHeap.contextLookup ⟨f.store, edges⟩ cs c id).2.store = (f.lookup cs c id).2.store :=
  congrArg Prod.snd (EdgeHeap.store_contextLookup ⟨f.store, edges⟩ cs c id)

theorem store_contextSet (h : EdgeHeap) (cs : Contexts) (id : String) (e : Entity) :
    (h.contextSet cs c id e).store = contextSet h.store cs c id e := by
  unfold EdgeHeap.contextSet contextSet
  dsimp only
  cases (cs.chain? (cs.context c).previous).find? _ with
  | some p =>
    split
    · rfl
    · rfl
  | none =>
    split
    · rfl
    · dsimp only
      split
      · rfl
      · rfl

theorem executePrimitive_store (hexec : executePrimitive w t c op (.id id) f = some (.next f')) :
    (∃ p, f.resval = .prim p) ∧ f'.store = (f.lookup w.contexts c id).2.store := by
  unfold executePrimitive at hexec
  dsimp only at hexec
  split at hexec
  · rename_i p hresval
    refine ⟨⟨p, hresval⟩, ?_⟩
    split at hexec
    · rename_i hlookup
      obtain ⟨e, -, heq⟩ := Option.map_eq_some_iff.mp hexec
      cases heq
      rw [hlookup]
      rfl
    · cases hexec
    · cases hexec
  · cases hexec

def arithmeticOps : List Op :=
  [.ADD, .SUB, .MULT, .DIV, .MOD, .AND, .OR, .BAND, .BXOR, .LT, .GT, .LTE, .GTE]

/-- The operations that take a name for a value, or store one under it. -/
def namedOps : List Op := arithmeticOps ++ [.BOR, .RES, .PUSH, .PEEK, .LET, .SET]

theorem store_namedHeap_BOR (hexec : executeBOR w t c (.id id) (w.frame t) = some (.next f)) :
    (namedHeap w c .BOR id (w.tasks t).resval ⟨w.store, edges⟩).store = f.store := by
  have hlookup : (EdgeHeap.contextLookup ⟨(w.frame t).store, edges⟩ w.contexts c id).2.store =
      ((w.frame t).lookup w.contexts c id).2.store := store_lookup w.contexts id
  have hresval : (w.frame t).resval = (w.tasks t).resval := rfl
  unfold executeBOR at hexec
  dsimp only at hexec
  rw [hresval] at hexec
  unfold namedHeap
  cases hcase : (w.tasks t).resval with
  | prim p =>
    rw [hcase] at hexec
    rw [(executePrimitive_store hexec).2]
    exact hlookup
  | obj o =>
    rw [hcase] at hexec
    cases hexec
    rfl
  | none =>
    rw [hcase] at hexec
    cases hexec
    exact hlookup

/-- They leave the store of the heap with edges. -/
theorem store_namedHeap (hop : op ∈ namedOps)
    (hexec : execute env w t c ⟨op, .id id⟩ = some (.next f)) :
    (namedHeap w c op id (w.tasks t).resval ⟨w.store, edges⟩).store = f.store := by
  have hlookup : (EdgeHeap.contextLookup ⟨(w.frame t).store, edges⟩ w.contexts c id).2.store =
      ((w.frame t).lookup w.contexts c id).2.store := store_lookup w.contexts id
  have hprimitive : executePrimitive w t c op (.id id) (w.frame t) = some (.next f) →
      (match (w.tasks t).resval with
        | .prim _ => (EdgeHeap.contextLookup ⟨w.store, edges⟩ w.contexts c id).2
        | _ => ⟨w.store, edges⟩).store = f.store := by
    intro h
    obtain ⟨⟨p, hp⟩, heq⟩ := executePrimitive_store h
    rw [show (w.tasks t).resval = .prim p from hp, heq]
    exact hlookup
  rcases List.mem_append.mp hop with hop | hop
  · simp only [arithmeticOps, List.mem_cons, List.not_mem_nil, or_false] at hop
    rcases hop with rfl | rfl | rfl | rfl | rfl | rfl | rfl | rfl | rfl | rfl | rfl | rfl | rfl
    all_goals exact hprimitive hexec
  · simp only [List.mem_cons, List.not_mem_nil, or_false] at hop
    rcases hop with rfl | rfl | rfl | rfl | rfl | rfl
    · exact store_namedHeap_BOR hexec
    · cases hexec
      exact hlookup
    · cases hexec
      exact hlookup
    · cases hexec
      exact hlookup
    · cases hexec
      rfl
    · cases hexec
      exact store_contextSet _ _ _ _

end Stores

/-- A process with the edges of its memory graph between objects. -/
structure EdgeWorld where
  world : World
  edges : ObjectId → ObjectId → Int

namespace EdgeWorld

/-- The edges after a step. An error that is caught or ends its task changes none. -/
def edgesAfter (env : EdgeEnv) (g : EdgeWorld) : Event → ObjectId → ObjectId → Int
  | .start _ => g.edges
  | .finish args => env.finished g.world args g.edges
  | .execute =>
    match g.world.running with
    | none => g.edges
    | some (t, c) =>
      match g.world.fetch t c with
      | some (true, w) =>
        match w.contextIns c with
        | some ins => executeEdges w t c env ins g.edges
        | none => g.edges
      | _ => g.edges

/-- A step of the process and of its graph. -/
def step (env : EdgeEnv) (g : EdgeWorld) (e : Event) : Option EdgeWorld :=
  (processStep env.env g.world e).map fun w => ⟨w, g.edgesAfter env e⟩

/-- The graph changes nothing in what the process does. -/
theorem runs_world {env : EdgeEnv} {g g' : EdgeWorld} (h : Runs (step env) g g') :
    Runs (processStep env.env) g.world g'.world := by
  induction h with
  | refl => exact .refl _
  | tail _ _ hstep ih =>
    obtain ⟨w, hw, rfl⟩ := Option.map_eq_some_iff.mp hstep
    exact ih.tail trivial hw

end EdgeWorld

end JeffVm
