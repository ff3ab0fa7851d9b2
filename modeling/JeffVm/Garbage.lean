import JeffVm.EdgeProcess
import JeffVm.Lib.MemoryGraph

/-!
# Garbage collection

`__collect_garbage` adds edges for what the tasks hold, lets the memory graph delete what is
not reachable, and takes the edges away again. Contexts and the data of a `FunctionRef` are not
in the graph.
-/

set_option autoImplicit false

namespace JeffVm

/-- The reflections of the process and of its tasks, and the objects. -/
inductive Node where
  | process
  | task (t : TaskId)
  | obj (o : ObjectId)
  deriving DecidableEq

namespace Store

/-- What a `FunctionRef` refers to: its object, and the variables of its parent context. -/
def refers (s : Store) (cs : Contexts) (r : ObjectId) : List ObjectId :=
  match s.internal r with
  | .functionRef obj _ parentContext =>
    obj :: (cs.chain? parentContext).map fun c => (cs.context c).memberObj
  | _ => []

end Store

namespace World

/-- The contexts of a task. -/
def taskContexts (w : World) (t : TaskId) : List ContextId := w.contexts.chain? (w.tasks t).current

/-- The stack, the result value and the variables of a task. -/
def taskObjects (w : World) (t : TaskId) : List ObjectId :=
  (w.tasks t).entityStack.flatMap Entity.objects ++ (w.tasks t).resval.objects ++
    (w.taskContexts t).map fun c => (w.contexts.context c).memberObj

/-- The edges of `_task_inc_all_context` and `_task_dec_all_context`. -/
def taskEdges (w : World) (t : TaskId) : List (Node × Node) :=
  (w.taskObjects t).map fun o => (.task t, .obj o)

/-- The temporary edges of a collection that task `t` asks for. -/
def tempEdges (w : World) (t : TaskId) : List (Node × Node) := (t :: w.waiting).flatMap w.taskEdges

/-- What the program can still reach. -/
inductive Holds (w : World) (t : TaskId) : ObjectId → Prop where
  | module (m : ModuleId) : Holds w t (w.store.modules m).reflection
  | task {s : TaskId} {o : ObjectId} : s ∈ t :: (w.queued ++ w.waiting) → o ∈ w.taskObjects s →
      Holds w t o
  | self {s : TaskId} {c : ContextId} : s ∈ t :: (w.queued ++ w.waiting) → c ∈ w.taskContexts s →
      Holds w t (w.contexts.context c).self
  | contents {a b : ObjectId} : Holds w t a → b ∈ w.store.contents a → Holds w t b
  | refers {r o : ObjectId} : Holds w t r → o ∈ w.store.refers w.contexts r → Holds w t o

end World

namespace EdgeWorld

/-- The memory graph of the heap while no task runs `__collect_garbage`. -/
def graph (g : EdgeWorld) : MGraph Node where
  root
    | .process => True
    | .task _ => False
    | .obj o => ∃ m, (g.world.store.modules m).reflection = o
  edges
    | .process, .task _ => 1
    | .obj a, .obj b => (g.edges a b).toNat
    | _, _ => 0

/-- The nodes that a collection does not delete. -/
def Traced (g : EdgeWorld) (t : TaskId) (n : Node) : Prop :=
  (g.graph.incAll (g.world.tempEdges t)).Reachable n

/-- `_collect_garbage`. `Q_value` is the address of a slot of the queue, which the loops over the
queued tasks take for the task itself. -/
noncomputable def collectGarbage (g : EdgeWorld) (t : TaskId) : Option (MGraph Node) :=
  if g.world.queued = [] then
    some (((g.graph.incAll (g.world.tempEdges t)).collect).decAll (g.world.tempEdges t))
  else none

/-- A collection deletes nothing that the program can reach, and leaves no temporary edge. -/
def CollectsSafely (g : EdgeWorld) (t : TaskId) : Prop :=
  ∃ graph, g.collectGarbage t = some graph ∧ (∀ o, g.world.Holds t o → g.Traced t (.obj o)) ∧
    ∀ s n, graph.edges (.task s) n = g.graph.edges (.task s) n

/-- What the program reaches through objects that are not deleted. -/
inductive Keeps (g : EdgeWorld) (t : TaskId) : ObjectId → Prop where
  | module (m : ModuleId) : Keeps g t (g.world.store.modules m).reflection
  | task {s : TaskId} {o : ObjectId} : s ∈ t :: g.world.waiting → o ∈ g.world.taskObjects s →
      Keeps g t o
  | self {s : TaskId} {c : ContextId} : s ∈ t :: g.world.waiting → c ∈ g.world.taskContexts s →
      g.Traced t (.obj (g.world.contexts.context c).self) →
      Keeps g t (g.world.contexts.context c).self
  | contents {a b : ObjectId} : Keeps g t a → b ∈ g.world.store.contents a →
      g.Traced t (.obj b) → Keeps g t b
  | refers {r o : ObjectId} : Keeps g t r → o ∈ g.world.store.refers g.world.contexts r →
      g.Traced t (.obj o) → Keeps g t o

/-- No task is queued, and the trace finds what has no edge: every `self`, and of each object that
is kept the contents that were stored without one and what it refers to as a `FunctionRef`. -/
structure Closed (g : EdgeWorld) (t : TaskId) : Prop where
  queued : g.world.queued = []
  self : ∀ s ∈ t :: g.world.waiting, ∀ c ∈ g.world.taskContexts s,
    g.Traced t (.obj (g.world.contexts.context c).self)
  contents : ∀ a, g.Keeps t a → ∀ b ∈ g.world.store.contents a, g.edges a b ≤ 0 →
    g.Traced t (.obj b)
  refers : ∀ r, g.Keeps t r → ∀ o ∈ g.world.store.refers g.world.contexts r, g.Traced t (.obj o)

end EdgeWorld

variable {w : World} {g : EdgeWorld} {t : TaskId}

theorem World.mem_tempEdges {a b : Node} :
    (a, b) ∈ w.tempEdges t ↔ ∃ s o, s ∈ t :: w.waiting ∧ o ∈ w.taskObjects s ∧
      a = .task s ∧ b = .obj o := by
  simp only [World.tempEdges, World.taskEdges, List.mem_flatMap, List.mem_map, Prod.mk.injEq]
  constructor
  · rintro ⟨s, hs, o, ho, rfl, rfl⟩
    exact ⟨s, o, hs, ho, rfl, rfl⟩
  · rintro ⟨s, o, hs, ho, rfl, rfl⟩
    exact ⟨s, hs, o, ho, rfl, rfl⟩

namespace EdgeWorld

theorem Traced.edge {a b : ObjectId} (h : g.Traced t (.obj a)) (hb : 0 < g.edges a b) :
    g.Traced t (.obj b) := by
  refine MGraph.Reachable.edge h ?_
  rw [MGraph.edges_incAll_pos]
  exact .inl (Int.pos_iff_toNat_pos.mp hb)

theorem Traced.module (g : EdgeWorld) (t : TaskId) (m : ModuleId) :
    g.Traced t (.obj (g.world.store.modules m).reflection) := by
  refine .root ?_
  rw [MGraph.root_incAll]
  exact ⟨m, rfl⟩

theorem Traced.task {s : TaskId} {o : ObjectId} (hs : s ∈ t :: g.world.waiting)
    (ho : o ∈ g.world.taskObjects s) : g.Traced t (.obj o) := by
  have hprocess : g.Traced t .process := by
    refine .root ?_
    rw [MGraph.root_incAll]
    trivial
  have htask : g.Traced t (.task s) := by
    refine MGraph.Reachable.edge hprocess ?_
    rw [MGraph.edges_incAll_pos]
    exact .inl Nat.one_pos
  refine MGraph.Reachable.edge htask ?_
  rw [MGraph.edges_incAll_pos]
  exact .inr (World.mem_tempEdges.mpr ⟨s, o, hs, ho, rfl, rfl⟩)

/-- What is kept is traced. -/
theorem Keeps.traced {o : ObjectId} (h : g.Keeps t o) : g.Traced t (.obj o) := by
  cases h with
  | module m => exact .module g t m
  | task hs ho => exact .task hs ho
  | self _ _ htraced => exact htraced
  | contents _ _ htraced => exact htraced
  | refers _ _ htraced => exact htraced

theorem mem_tasks_of_mem_waiting {s : TaskId} (hs : s ∈ t :: g.world.waiting) :
    s ∈ t :: (g.world.queued ++ g.world.waiting) := by
  rw [List.mem_cons, List.mem_append]
  exact (List.mem_cons.mp hs).imp_right .inr

/-- What is kept is held. -/
theorem Keeps.holds {o : ObjectId} (h : g.Keeps t o) : g.world.Holds t o := by
  induction h with
  | module m => exact .module m
  | task hs ho => exact .task (mem_tasks_of_mem_waiting hs) ho
  | self hs hc _ => exact .self (mem_tasks_of_mem_waiting hs) hc
  | contents _ hb _ ih => exact .contents ih hb
  | refers _ ho _ ih => exact .refers ih ho

/-- When the condition holds, all that is held is kept. -/
theorem Closed.keeps (h : g.Closed t) {o : ObjectId} (ho : g.world.Holds t o) : g.Keeps t o := by
  have htasks : ∀ s ∈ t :: (g.world.queued ++ g.world.waiting), s ∈ t :: g.world.waiting := by
    intro s hs
    rwa [h.queued, List.nil_append] at hs
  induction ho with
  | module m => exact .module m
  | task hs ho => exact .task (htasks _ hs) ho
  | self hs hc => exact .self (htasks _ hs) hc (h.self _ (htasks _ hs) _ hc)
  | @contents a b _ hb ih =>
    refine .contents ih hb ?_
    by_cases hedge : 0 < g.edges a b
    · exact ih.traced.edge hedge
    · exact h.contents a ih b hb (Int.not_lt.mp hedge)
  | refers _ ho ih => exact .refers ih ho (h.refers _ ih _ ho)

/-- The edges of a task's reflection are as before. -/
theorem edges_task_collected (g : EdgeWorld) (t s : TaskId) (n : Node) :
    (((g.graph.incAll (g.world.tempEdges t)).collect).decAll (g.world.tempEdges t)).edges
      (.task s) n = g.graph.edges (.task s) n := by
  by_cases h : g.Traced t (.task s) ∧ g.Traced t n
  · exact MGraph.edges_collect_between _ _ h.1 h.2
  · rw [MGraph.edges_collect_deleted _ _ h]
    rfl

end EdgeWorld

/-- The next instruction calls `__collect_garbage`, for task `t` with the process in state `g'`. -/
def EdgeWorld.CallsCollector (g : EdgeWorld) (t : TaskId) (g' : EdgeWorld) : Prop :=
  ∃ c ins f func self parentContext, g.world.running = some (t, c) ∧
    (g.world.contexts.context c).error = none ∧ g.world.contextIns c = some ins ∧
    (∀ env, execute env g.world t c ins =
      callFunctionBase env g.world t c f func self parentContext) ∧
    (f.store.functions func).isNative = true ∧
    (f.store.functions func).name = "__collect_garbage" ∧ g' = ⟨g.world.setFrame t f, g.edges⟩

/-- A function without a name is kept in `g`, and the block with its variable `x` is left. -/
def garbageStore : Store where
  objects := fun o =>
    if o = 0 then ⟨.Module, .empty, .moduleObj 0⟩
    else if o = 1 then ⟨.Function, .empty, .functionObj 0⟩
    else ⟨.Function, .empty, .functionObj 1⟩
  nextObject := 3
  classes := fun _ => ⟨"Module", [], .empty, 0⟩
  functions := fun f =>
    if f = 0 then ⟨"$anon_1_7", 0, false, true, false, false, 10, 1⟩
    else ⟨"__collect_garbage", 0, true, false, false, false, 0, 2⟩
  modules := fun _ => ⟨"m",
    [⟨.RNIL, .noArg⟩, ⟨.SET, .id "g"⟩, ⟨.NBLK, .noArg⟩, ⟨.RES, .str "'s'"⟩, ⟨.SET, .id "x"⟩,
      ⟨.RES, .id "$anon_1_7"⟩, ⟨.SET, .id "g"⟩, ⟨.BBLK, .noArg⟩,
      ⟨.PUSH, .id "__collect_garbage"⟩, ⟨.CLLN, .noArg⟩],
    .empty, ⟨[("$anon_1_7", 0), ("__collect_garbage", 1)], by decide⟩, 0, true⟩
  builtin := 0

/-- No native function is called. -/
def noNativeEdges : EdgeEnv := ⟨noNatives, fun _ _ _ _ edges => edges, fun _ _ edges => edges⟩

/-- The process before its first step. Its graph has no edges, as no object refers to another. -/
def garbageBoot : EdgeWorld := ⟨World.boot garbageStore 0, fun _ _ => 0⟩

/-- The collector is about to be called. -/
def garbageRun : Option EdgeWorld :=
  runSteps (EdgeWorld.step noNativeEdges) garbageBoot
    [.start 0, .execute, .execute, .execute, .execute, .execute, .execute, .execute, .execute,
      .execute]

theorem garbageBoot_mirrors : EdgeHeap.Mirrors ⟨garbageBoot.world.store, garbageBoot.edges⟩ := by
  intro p c
  have hnone : garbageBoot.world.store.held p = [] := by
    by_cases hp : p = 3
    · subst hp
      rfl
    · simp only [garbageBoot, World.boot, Store.heapNew, garbageStore, Store.held, Store.internal,
        Function.update_of_ne hp]
      split
      · rfl
      · split
        · rfl
        · rfl
  rw [hnone]
  rfl

theorem garbageRun_next : garbageRun.map (fun g => (g.world.running,
      (g.world.contexts.context 0).error, g.world.contextIns 0)) =
    some (some (0, 0), none, some ⟨.CLLN, .noArg⟩) := by
  decide +kernel

theorem garbageRun_task : garbageRun.map (fun g => ((g.world.tasks 0).entityStack,
      g.world.waiting, g.world.taskContexts 0)) = some ([.obj 2], [], [0]) := by
  decide +kernel

theorem garbageRun_objects : garbageRun.map (fun g => (g.world.store.cls 2,
      g.world.store.internal 2, (g.world.store.functions 1).isNative,
      (g.world.store.functions 1).name, (g.world.contexts.context 0).memberObj)) =
    some (.Function, .functionObj 1, true, "__collect_garbage", 3) := by
  decide +kernel

theorem garbageRun_calls : ∃ g g', garbageRun = some g ∧ g.CallsCollector 0 g' ∧
    g'.world.waiting = [] ∧ g'.world.taskObjects 0 = [3] ∧ g'.world.store = g.world.store ∧
      g'.world.contexts = g.world.contexts ∧ g'.edges = g.edges := by
  obtain ⟨g, hrun, hnext⟩ := Option.map_eq_some_iff.mp garbageRun_next
  have htask := garbageRun_task
  have hobjects := garbageRun_objects
  rw [hrun] at htask hobjects
  simp only [Option.map_some, Option.some.injEq, Prod.mk.injEq] at hnext htask hobjects
  obtain ⟨hrunning, herror, hins⟩ := hnext
  obtain ⟨hstack, hwaiting, hcurrent⟩ := htask
  obtain ⟨hcls, hinternal, hnative, hname, hmembers⟩ := hobjects
  refine ⟨g, ⟨g.world.setFrame 0 ⟨g.world.store, .none, []⟩, g.edges⟩, hrun,
    ⟨0, ⟨.CLLN, .noArg⟩, ⟨g.world.store, .none, []⟩, 1,
      (g.world.store.modules (g.world.store.functions 1).module).reflection, some 0, hrunning,
      herror, hins, ?_, hnative, hname, rfl⟩, hwaiting, ?_, rfl, rfl, rfl⟩
  · intro env
    simp [execute, executeCALL, World.frame, Frame.pop, hstack, callEntity, hcls, hinternal,
      Frame.withResval]
  · have hcontexts : (g.world.setFrame 0 ⟨g.world.store, .none, []⟩).taskContexts 0 = [0] := by
      simpa [World.taskContexts, World.setFrame, World.modifyTask] using hcurrent
    rw [World.taskObjects, hcontexts]
    simp [World.setFrame, World.modifyTask, Entity.objects, hmembers]

theorem garbageRun_contents {g : EdgeWorld} (h : garbageRun = some g) :
    [3, 4].map g.world.store.contents = [[6], [5]] ∧
      g.world.store.refers g.world.contexts 6 = [0, 4, 3] ∧
      ∀ m, (g.world.store.modules m).reflection = 0 := by
  have hcontents : garbageRun.map (fun g => [3, 4].map g.world.store.contents) =
      some [[6], [5]] := by decide +kernel
  have hrefers : garbageRun.map (fun g => g.world.store.refers g.world.contexts 6) =
      some [0, 4, 3] := by decide +kernel
  have hmodules : ∀ m, garbageRun.map (fun g => (g.world.store.modules m).reflection) = some 0 :=
    fun _ => rfl
  simp only [h, Option.map_some, Option.some.injEq] at hcontents hrefers hmodules
  exact ⟨hcontents, hrefers, hmodules⟩

/-- The objects that the trace finds: the module, the collector, and the variable `g` with its
function. -/
def garbageFound : List ObjectId := [0, 2, 3, 6]

/-- No edge leads out of them. -/
theorem garbageRun_edges {g : EdgeWorld} (h : garbageRun = some g) :
    ∀ a ∈ garbageFound, ∀ b, 0 < g.edges a b → b ∈ garbageFound := by
  have hmodule : ∀ b, garbageRun.map (fun g => g.edges 0 b) =
      some (0 + if 0 = 0 ∧ Entity.obj 2 = Entity.obj b then 1 else 0) := fun _ => rfl
  have hvariables : ∀ b, garbageRun.map (fun g => g.edges 3 b) =
      some (0 + (if 3 = 3 ∧ Entity.obj 6 = Entity.obj b then 1 else 0) - 0 + 0) := fun _ => rfl
  have hcollector : ∀ b, garbageRun.map (fun g => g.edges 2 b) = some 0 := fun _ => rfl
  have hfunction : ∀ b, garbageRun.map (fun g => g.edges 6 b) = some 0 := fun _ => rfl
  simp only [h, Option.map_some, Option.some.injEq, true_and, Entity.obj.injEq, Int.zero_add,
    Int.sub_zero, Int.add_zero] at hmodule hvariables hcollector hfunction
  intro a ha b hb
  simp only [garbageFound, List.mem_cons, List.not_mem_nil, or_false] at ha
  obtain rfl | rfl | rfl | rfl := ha
  · rw [hmodule] at hb
    split at hb
    · rename_i heq
      rw [← heq]
      decide
    · exact absurd hb (Int.lt_irrefl 0)
  · rw [hcollector] at hb
    exact absurd hb (Int.lt_irrefl 0)
  · rw [hvariables] at hb
    split at hb
    · rename_i heq
      rw [← heq]
      decide
    · exact absurd hb (Int.lt_irrefl 0)
  · rw [hfunction] at hb
    exact absurd hb (Int.lt_irrefl 0)

end JeffVm
