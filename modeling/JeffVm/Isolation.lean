import JeffVm.Effects
import JeffVm.Ownership

/-!
# Tasks keep to their contexts

In a run whose steps stay within the contexts of the running task, every task has only
contexts of its own, unwinding changes no other, and an error that no own block handles ends
its task.
-/

set_option autoImplicit false

namespace JeffVm

variable {env : Env} {w w' : World} {t : TaskId} {c : Nat}

/-- The contexts that are unwound, up to the nearest handler, belong to the task. -/
theorem UnwindsWithin.own (h : UnwindsWithin w t c)
    (hpending : (w.contexts.context c).error.isSome) (hc : (w.contexts.context c).catchIns < 0)
    {cur d : ContextId} {pre post : List ContextId} (hcurrent : (w.tasks t).current = some cur)
    (hchain : w.contexts.chain cur = cur :: (pre ++ d :: post))
    (hpre : ∀ e ∈ pre, (w.contexts.context e).catchIns < 0) :
    (w.contexts.context d).parentTask = t := by
  rcases h hpending hc cur hcurrent with hall | ⟨pre', handler, post', hchain', hhandler, hown⟩
  · apply hall
    simp [hchain]
  · rw [hchain, List.cons.injEq] at hchain'
    rcases List.append_eq_append_iff.mp hchain'.2 with ⟨mid, hmid, hrest⟩ | ⟨mid, hmid, hrest⟩
    · cases mid with
      | nil =>
        cases hrest
        apply hown
        simp
      | cons e mid =>
        cases hrest
        apply hown
        simp [hmid]
    · cases mid with
      | nil =>
        cases hrest
        apply hown
        simp
      | cons e mid =>
        cases hrest
        have hneg := hpre handler (by simp [hmid])
        omega

theorem UnwindsWithin.own_of_mem (h : UnwindsWithin w t c)
    (hpending : (w.contexts.context c).error.isSome) (hc : (w.contexts.context c).catchIns < 0)
    {cur : ContextId} {pre post : List ContextId} (hcurrent : (w.tasks t).current = some cur)
    (hchain : w.contexts.chain cur = cur :: (pre ++ post))
    (hpre : ∀ e ∈ pre, (w.contexts.context e).catchIns < 0) :
    ∀ d ∈ pre, (w.contexts.context d).parentTask = t := by
  intro d hd
  obtain ⟨as, bs, rfl⟩ := List.append_of_mem hd
  have hsplit : w.contexts.chain cur = cur :: (as ++ d :: (bs ++ post)) := by simpa using hchain
  apply h.own hpending hc hcurrent hsplit
  intro e he
  exact hpre e (List.mem_append_left _ he)

namespace World

/-- The contexts below the current one, with the nearest handler among them. -/
theorem attempCatchError_cases {cur : ContextId} (hcurrent : (w.tasks t).current = some cur)
    (hc : (w.contexts.context c).catchIns < 0) :
    (∃ pre handler post, w.contexts.chain cur = cur :: (pre ++ handler :: post) ∧
      (∀ d ∈ pre, (w.contexts.context d).catchIns < 0) ∧
      0 ≤ (w.contexts.context handler).catchIns ∧
      w.attempCatchError t c = some (true,
        (w.unwind t (pre ++ [handler]) (w.contexts.context cur).ins (some handler)).resumeAt
          handler)) ∨
    (∃ pre, w.contexts.chain cur = cur :: pre ∧
      (∀ d ∈ pre, (w.contexts.context d).catchIns < 0) ∧
      w.attempCatchError t c = some (false,
        (w.unwind t pre (w.contexts.context cur).ins none).setState t .ERROR)) := by
  obtain ⟨ds, hds⟩ : ∃ ds, w.contexts.chain cur = cur :: ds := ⟨_, w.contexts.chain_eq cur⟩
  cases hfind : ds.find? fun d => decide (0 ≤ (w.contexts.context d).catchIns) with
  | none =>
    right
    have hpre : ∀ d ∈ ds, (w.contexts.context d).catchIns < 0 := by
      intro d hd
      simpa using List.find?_eq_none.mp hfind d hd
    exact ⟨ds, hds, hpre, attempCatchError_none hcurrent hds hc hpre⟩
  | some handler =>
    left
    obtain ⟨hhandler, pre, post, rfl, hpre⟩ := List.find?_eq_some_iff_append.mp hfind
    have hhandler : 0 ≤ (w.contexts.context handler).catchIns := by simpa using hhandler
    have hpre : ∀ d ∈ pre, (w.contexts.context d).catchIns < 0 := by
      intro d hd
      simpa using hpre d hd
    exact ⟨pre, handler, post, hds, hpre, hhandler,
      attempCatchError_some hcurrent hds hc hpre hhandler⟩

theorem fetch_here (hpending : (w.contexts.context c).error.isSome)
    (hc : 0 ≤ (w.contexts.context c).catchIns) : w.fetch t c = some (true, w.resumeAt c) := by
  rw [fetch, if_pos hpending, attempCatchError_here hc]

end World

namespace Touches

theorem resumeAt (w : World) {handler : Nat}
    (h : (w.contexts.context handler).parentTask = t) : Touches t w (w.resumeAt handler) :=
  modifyContext w (fun x => { x with ins := x.catchIns, error := none, catchIns := -1 }) (fun _ => rfl) h

/-- The top of the loop. -/
theorem fetch {b : Bool} (hw : WellOwned w) (hrunning : w.running = some (t, c))
    (hunwind : UnwindsWithin w t c) (h : w.fetch t c = some (b, w')) : Touches t w w' := by
  unfold World.fetch at h
  split at h
  · rename_i hpending
    by_cases hc : (w.contexts.context c).catchIns < 0
    · cases hcur : (w.tasks t).current with
      | none =>
        rw [World.attempCatchError, World.findHandler, if_pos hc, World.taskBackContext, hcur] at h
        simp at h
      | some cur =>
        rcases World.attempCatchError_cases hcur hc with
          ⟨pre, handler, post, hchain, hpre, -, heq⟩ | ⟨pre, hchain, hpre, heq⟩
        · have hhandler := hunwind.own hpending hc hcur hchain hpre
          have hlt : handler < w.contexts.next := by
            refine lt_trans ?_ (hw.current t cur hcur).1
            apply @Contexts.lt_of_mem_chain w.contexts
            rw [Contexts.chain_eq, List.cons.injEq] at hchain
            simp [hchain.2]
          have hunwound : Touches t w (w.unwind t (pre ++ [handler])
              (w.contexts.context cur).ins (some handler)) := by
            apply unwind
            · intro d hd
              rcases List.mem_append.mp hd with hd | hd
              · exact hunwind.own_of_mem hpending hc hcur hchain hpre d hd
              · rw [List.mem_singleton.mp hd, hhandler]
            · intro d hd
              cases hd
              exact ⟨hlt, hhandler⟩
          rw [heq] at h
          cases h
          exact hunwound.trans (resumeAt _ ((hunwound.own ⟨hlt, hhandler⟩).2))
        · rw [heq] at h
          cases h
          refine Touches.trans ?_ (setState _ t .ERROR)
          apply unwind
          · have hsplit : w.contexts.chain cur = cur :: (pre ++ []) := by simpa using hchain
            exact hunwind.own_of_mem hpending hc hcur hsplit hpre
          · intro d hd
            cases hd
    · rw [World.attempCatchError_here (by omega)] at h
      cases h
      exact resumeAt w (hw.running t c hrunning).2
  · cases h
    exact refl w

end Touches

/-- One iteration of the loop of `vm_execute_task`. -/
theorem iterate_touches {out : World.Outcome} (hw : WellOwned w) (hrunning : w.running = some (t, c))
    (hunwind : UnwindsWithin w t c) (hcloses : ClosesWithin w t c)
    (h : w.iterate env t c = some (w', out)) :
    Touches t w w' ∧ ∀ d, out = .running d →
      d < w'.contexts.next ∧ (w'.contexts.context d).parentTask = t := by
  unfold World.iterate at h
  split at h
  · cases h
  · rename_i w₁ hfetch
    cases h
    refine ⟨Touches.fetch hw hrunning hunwind hfetch, ?_⟩
    intro d hd
    cases hd
  · rename_i w₁ hfetch
    have hfetched := Touches.fetch hw hrunning hunwind hfetch
    have hc := hfetched.own (hw.running t c hrunning)
    split at h
    · cases h
    · rename_i ins hins
      split at h
      · cases h
      · rename_i effect heffect
        have hback : ∀ f, effect = .backBlock f → ∀ cur p, (w₁.tasks t).current = some cur →
            (w₁.contexts.context cur).previous = some p →
              p < w₁.contexts.next ∧ (w₁.contexts.context p).parentTask = t := by
          rintro f rfl cur p hcur hprevious
          obtain ⟨op, arg⟩ := ins
          obtain rfl := op_of_backBlock heffect
          have hlt : cur < w₁.contexts.next := by
            rcases hfetched.current t cur hcur with hold | hnew
            · exact (hw.current t cur hold).1.trans_le hfetched.next_le
            · exact hnew.1
          exact ⟨(w₁.contexts.previous_lt cur p hprevious).trans hlt,
            hcloses w₁ arg cur p hfetch hins hcur hprevious⟩
        obtain ⟨happlied, hrest⟩ := apply_touches hc hback h
        exact ⟨hfetched.trans happlied, hrest⟩

namespace World

@[simp] theorem wake_running (resval : Entity) (w : World) (d : TaskId) :
    (wake resval w d).running = w.running := by
  unfold wake
  split <;> rfl

@[simp] theorem markTaskComplete_running (w : World) (t : TaskId) :
    (w.markTaskComplete t).running = w.running := by
  have hfold : ∀ (ds : List TaskId) (e : Entity) (w : World),
      (ds.foldl (wake e) w).running = w.running := by
    intro ds e
    induction ds with
    | nil => exact fun _ => rfl
    | cons d ds ih =>
      intro w
      rw [List.foldl_cons, ih, wake_running]
  exact hfold _ _ _

theorem executeAsNewTask_running {self : ObjectId} {m : ModuleId} {insPos : Int}
    {func : Option FunctionId} {previous : Option ContextId} {child : TaskId}
    (h : w.executeAsNewTask t self m insPos func previous = some (child, w')) :
    w'.running = w.running := by
  unfold executeAsNewTask createContext at h
  obtain ⟨⟨c, w₁⟩, hcreate, heq⟩ := Option.map_eq_some_iff.mp h
  cases heq
  simp only at hcreate
  split at hcreate
  · cases hcreate
  · cases hcreate
    rfl

end World

/-- The switch of `process_run`. -/
theorem stop_touches (h : w.stop env t = some w') : Touches t w w' ∧ w'.running = none := by
  have hnone : Touches t w { w with running := none } := .of_same rfl (fun _ => rfl)
  unfold World.stop at h
  simp only at h
  split at h
  · cases h
    exact ⟨.of_same rfl (fun _ => rfl), rfl⟩
  · split at h
    · rename_i parent hparent
      cases h
      refine ⟨(hnone.trans (Touches.modifyTask _ parent
        (fun x => { x with childTaskHasError := true }) fun _ => rfl)).trans
        (Touches.markTaskComplete _ t), ?_⟩
      rw [World.markTaskComplete_running]
      rfl
    · split at h
      · cases h
      · obtain ⟨⟨child, w₁⟩, htask, heq⟩ := Option.map_eq_some_iff.mp h
        cases heq
        exact ⟨(hnone.trans (Touches.executeAsNewTask htask)).trans
          (Touches.addDependent w₁ child t), World.executeAsNewTask_running htask⟩
  · cases h
    exact ⟨hnone.trans (Touches.markTaskComplete _ t), World.markTaskComplete_running _ t⟩
  · cases h

/-- The task goes on in a context of its own. -/
theorem WellOwned.resume (hw : WellOwned w) (h : Touches t w w')
    (hc : c < w'.contexts.next ∧ (w'.contexts.context c).parentTask = t) :
    WellOwned { w' with running := some (t, c) } := by
  have hrunning : Touches t w' { w' with running := some (t, c) } := .of_same rfl fun _ => rfl
  refine (h.trans hrunning).wellOwned hw ?_
  intro s d hd
  cases hd
  exact hc

theorem wellOwned_start (hw : WellOwned w) (h : w.start t = some w') : WellOwned w' := by
  have hqueued : Touches t w { w.setState t .RUNNING with queued := w.queued.erase t } :=
    (Touches.setState w t .RUNNING).trans (.of_same rfl fun _ => rfl)
  unfold World.start at h
  simp only at h
  split at h
  · cases h
    refine Touches.wellOwned (t := t) ?_ hw (fun s d hd => by cases hd)
    exact (hqueued.trans (Touches.markTaskComplete _ t)).trans (.of_same rfl fun _ => rfl)
  · rename_i c hc
    have hc : (w.tasks t).current = some c := by simpa [World.setState, World.modifyTask] using hc
    split at h
    · split at h
      · split at h
        · rename_i err _ _
          cases h
          have hflagged := (hqueued.trans (Touches.modifyContext _
            (fun x => { x with error := some err }) (fun _ => rfl)
            (hw.current t c hc).2)).trans
            (Touches.modifyTask _ t (fun x => { x with childTaskHasError := false })
              fun _ => rfl)
          exact hw.resume hflagged (hflagged.own (hw.current t c hc))
        · cases h
      · cases h
    · cases h
      exact hw.resume hqueued (hqueued.own (hw.current t c hc))

theorem wellOwned_finish {args : BackgroundThreadArgs} (hw : WellOwned w)
    (h : w.finish env args = some w') : WellOwned w' := by
  obtain ⟨t, ht⟩ : ∃ t, (w.contexts.context args.context).parentTask = t := ⟨_, rfl⟩
  have hdone : ∀ w₁ : World, Touches t w w₁ → w₁.running = w.running →
      WellOwned ((w₁.setState args.task .COMPLETE).markTaskComplete args.task) := by
    intro w₁ h₁ hrunning
    have h₂ := (h₁.trans (Touches.setState w₁ args.task .COMPLETE)).trans
      (Touches.markTaskComplete _ args.task)
    refine h₂.wellOwned hw ?_
    intro s d hd
    rw [World.markTaskComplete_running] at hd
    exact h₂.own (hw.running s d (hrunning ▸ hd))
  have hkept : ∀ (store : Store) (e : Entity), Touches t w
      { ({ w with background := w.background.erase args } : World).setResval args.task e with
        store := store } := by
    intro store e
    exact ((Touches.withBackground w (w.background.erase args)).trans
      (Touches.setResval _ args.task e)).trans (.of_same rfl fun _ => rfl)
  unfold World.finish at h
  simp only at h
  split at h
  · cases h
  · rename_i store value _
    cases h
    exact hdone _ (hkept store value) rfl
  · rename_i store err _
    cases h
    refine hdone _ ((hkept store (.obj err)).trans (Touches.modifyContext _
      (fun x => { x with error := some err }) (fun _ => rfl) ?_)) rfl
    exact ht

theorem wellOwned_step {e : Event} (hw : WellOwned w) (hwithin : StaysWithin w e)
    (h : processStep env w e = some w') : WellOwned w' := by
  cases e with
  | start t =>
    simp only [processStep] at h
    split at h
    · exact wellOwned_start hw h
    · cases h
  | finish args =>
    simp only [processStep] at h
    split at h
    · exact wellOwned_finish hw h
    · cases h
  | execute =>
    cases hrunning : w.running with
    | none => simp [processStep, hrunning] at h
    | some tc =>
      obtain ⟨t, c⟩ := tc
      obtain ⟨hunwind, hcloses⟩ := hwithin rfl t c hrunning
      simp only [processStep, hrunning] at h
      split at h
      · cases h
      · rename_i w₁ d hiterate
        obtain ⟨htouches, hd⟩ := iterate_touches hw hrunning hunwind hcloses hiterate
        cases h
        exact hw.resume htouches (hd d rfl)
      · rename_i w₁ hiterate
        have htouches := (iterate_touches hw hrunning hunwind hcloses hiterate).1
        obtain ⟨hstopped, hnone⟩ := stop_touches h
        refine (htouches.trans hstopped).wellOwned hw ?_
        intro s d hd
        rw [hnone] at hd
        cases hd

theorem wellOwned_boot (store : Store) (m : ModuleId) : WellOwned (World.boot store m) where
  current := by
    intro t d h
    by_cases ht : t = 0
    · subst ht
      cases h
      exact ⟨Nat.zero_lt_one, rfl⟩
    · simp [World.boot, ht] at h
  running := by
    intro t c h
    cases h

/-! ## Whole runs -/

/-- What the loop of `vm_execute_task` does for its task is done to contexts of this task only. -/
structure IsolatesErrors (env : Env) (w : World) : Prop where
  /-- An iteration, with the unwinding at its top, changes no context of another task. -/
  frame : ∀ (t : TaskId) (c : Nat) (w' : World), w.running = some (t, c) →
    processStep env w .execute = some w' → ∀ d : Nat, d < w.contexts.next →
      (w.contexts.context d).parentTask ≠ t → w'.contexts.context d = w.contexts.context d
  /-- An error that no block of the task handles ends the task. -/
  uncaught : ∀ (t : TaskId) (c cur : Nat), w.running = some (t, c) →
    (w.contexts.context c).error.isSome → (w.contexts.context c).catchIns < 0 →
    (w.tasks t).current = some cur →
    (∀ d ∈ w.contexts.chain cur, (w.contexts.context d).parentTask = t →
      (w.contexts.context d).catchIns < 0) →
    ∃ w', w.iterate env t c = some (w', .stopped) ∧ (w'.tasks t).state = .ERROR
  /-- The task that waited for a failed one handles its error at its own catch position. -/
  owner : ∀ (p : TaskId) (c : Nat) (w' : World), (w.tasks p).childTaskHasError = true →
    (w.tasks p).current = some c → 0 ≤ (w.contexts.context c).catchIns →
    processStep env w (.start p) = some w' →
    ∃ w'', w'.running = some (p, c) ∧ w'.fetch p c = some (true, w'') ∧
      (w''.contexts.context c).ins = (w.contexts.context c).catchIns

theorem frame_of_within (hw : WellOwned w) (hrunning : w.running = some (t, c))
    (hwithin : StaysWithin w .execute) (h : processStep env w .execute = some w') :
    Touches t w w' := by
  obtain ⟨hunwind, hcloses⟩ := hwithin rfl t c hrunning
  simp only [processStep, hrunning] at h
  split at h
  · cases h
  · rename_i w₁ d hiterate
    have htouches := (iterate_touches hw hrunning hunwind hcloses hiterate).1
    cases h
    exact htouches.trans (.of_same rfl fun _ => rfl)
  · rename_i w₁ hiterate
    have htouches := (iterate_touches hw hrunning hunwind hcloses hiterate).1
    exact htouches.trans (stop_touches h).1

theorem uncaught_of_within (env : Env) (hunwind : UnwindsWithin w t c)
    (hpending : (w.contexts.context c).error.isSome) (hc : (w.contexts.context c).catchIns < 0)
    {cur : Nat} (hcurrent : (w.tasks t).current = some cur)
    (hown : ∀ d ∈ w.contexts.chain cur, (w.contexts.context d).parentTask = t →
      (w.contexts.context d).catchIns < 0) :
    ∃ w', w.iterate env t c = some (w', .stopped) ∧ (w'.tasks t).state = .ERROR := by
  rcases World.attempCatchError_cases hcurrent hc with
    ⟨pre, handler, post, hchain, hpre, hhandler, -⟩ | ⟨pre, hchain, -, heq⟩
  · -- The nearest handler would be one of the task's own.
    have hparent := hunwind.own hpending hc hcurrent hchain hpre
    have hneg := hown handler (by simp [hchain]) hparent
    omega
  · refine ⟨(w.unwind t pre (w.contexts.context cur).ins none).setState t .ERROR, ?_, ?_⟩
    · rw [World.iterate, World.fetch, if_pos hpending, heq]
    · simp [World.setState, World.modifyTask]

/-- A task that is resumed for the error of another has it pending. -/
theorem start_pending (hflag : (w.tasks t).childTaskHasError = true)
    (hcurrent : (w.tasks t).current = some c) (h : w.start t = some w') :
    w'.running = some (t, c) ∧ (w'.contexts.context c).error.isSome ∧
      (w'.contexts.context c).catchIns = (w.contexts.context c).catchIns := by
  unfold World.start at h
  simp only [World.setState, World.modifyTask, Function.update_self, hcurrent, hflag,
    if_true] at h
  split at h
  · split at h
    · cases h
      refine ⟨rfl, ?_, ?_⟩ <;> simp [World.modifyContext]
    · cases h
  · cases h

theorem owner_catches (hflag : (w.tasks t).childTaskHasError = true)
    (hcurrent : (w.tasks t).current = some c) (hc : 0 ≤ (w.contexts.context c).catchIns)
    (h : processStep env w (.start t) = some w') :
    ∃ w'', w'.running = some (t, c) ∧ w'.fetch t c = some (true, w'') ∧
      (w''.contexts.context c).ins = (w.contexts.context c).catchIns := by
  simp only [processStep] at h
  split at h
  · obtain ⟨hrunning, hpending, hcatch⟩ := start_pending hflag hcurrent h
    refine ⟨w'.resumeAt c, hrunning, World.fetch_here hpending (by rw [hcatch]; exact hc), ?_⟩
    simp [World.resumeAt, World.modifyContext, hcatch]
  · cases h

/-- A module that calls an anonymous function in a `try` block; the function raises. -/
def closureStore : Store where
  objects := fun o => ⟨if o = 1 then .Function else .Module, .empty,
    if o = 1 then .functionObj 0 else .moduleObj 0⟩
  nextObject := 2
  classes := fun _ => ⟨"Module", [], .empty, 0⟩
  functions := fun _ => ⟨"$anon_1_7", 0, false, true, false, false, 3, 1⟩
  modules := fun _ => ⟨"m",
    [⟨.NBLK, .noArg⟩, ⟨.CTCH, .val (.int 8)⟩,
      ⟨.JMP, .val (.int 3)⟩, ⟨.RES, .val (.int 0)⟩, ⟨.RAIS, .noArg⟩, ⟨.RET, .noArg⟩,
      ⟨.RES, .id "$anon_1_7"⟩, ⟨.PUSH, .noArg⟩, ⟨.CLLN, .noArg⟩,
      ⟨.JMP, .val (.int 1)⟩, ⟨.SET, .id "e"⟩,
      ⟨.RNIL, .noArg⟩, ⟨.SET, .id "$try_goto"⟩, ⟨.BBLK, .noArg⟩],
    .empty, ⟨[("$anon_1_7", 0)], by decide⟩, 0, true⟩
  builtin := 0

/-- In every run of a process that stays within the contexts of the running task, errors do. -/
theorem isolates_errors_of_stays_within (env : Env) (store : Store) (m : ModuleId) (w : World)
    (hrun : RunsIn (processStep env) StaysWithin (World.boot store m) w)
    (hwithin : StaysWithin w .execute) : IsolatesErrors env w := by
  have hw : WellOwned w :=
    hrun.invariant (fun _ _ _ hs hC h => wellOwned_step hs hC h) (wellOwned_boot store m)
  constructor
  · intro t c w' hrunning h
    exact (frame_of_within hw hrunning hwithin h).other
  · intro t c cur hrunning hpending hc hcurrent hown
    exact uncaught_of_within env (hwithin rfl t c hrunning).1 hpending hc hcurrent hown
  · intro p c w' hflag hcurrent hc h
    exact owner_catches hflag hcurrent hc h

/-- Of the contexts `ds`, those up to the nearest handler are of task `t`. -/
def Contexts.ownToHandler (cs : Contexts) (t : TaskId) : List ContextId → Bool
  | [] => true
  | d :: ds => decide ((cs.context d).parentTask = t) &&
      (decide (0 ≤ (cs.context d).catchIns) || cs.ownToHandler t ds)

theorem Contexts.ownToHandler_cases {cs : Contexts} {ds : List ContextId}
    (h : cs.ownToHandler t ds = true) : (∀ d ∈ ds, (cs.context d).parentTask = t) ∨
      ∃ pre handler post, ds = pre ++ handler :: post ∧ 0 ≤ (cs.context handler).catchIns ∧
        ∀ d ∈ pre ++ [handler], (cs.context d).parentTask = t := by
  induction ds with
  | nil => exact .inl fun d hd => absurd hd List.not_mem_nil
  | cons d ds ih =>
    rw [Contexts.ownToHandler, Bool.and_eq_true, Bool.or_eq_true, decide_eq_true_eq,
      decide_eq_true_eq] at h
    obtain ⟨hown, hcatch | hrest⟩ := h
    · exact .inr ⟨[], d, ds, rfl, hcatch, by simpa using hown⟩
    · rcases ih hrest with hall | ⟨pre, handler, post, rfl, hcatch, hpre⟩
      · exact .inl (List.forall_mem_cons.mpr ⟨hown, hall⟩)
      · exact .inr ⟨d :: pre, handler, post, rfl, hcatch, List.forall_mem_cons.mpr ⟨hown, hpre⟩⟩

/-- Whether the error of context `c` is unwound within task `t`. -/
def World.unwindsOwn (w : World) (t : TaskId) (c : ContextId) : Bool :=
  if (w.contexts.context c).error.isSome then
    match (w.tasks t).current with
    | none => true
    | some cur => decide ((w.contexts.context cur).parentTask = t) &&
        w.contexts.ownToHandler t (w.contexts.chain? (w.contexts.context cur).previous)
  else true

/-- Whether the block that an instruction closes lies in one of task `t`. -/
def World.closesOwn (w : World) (t : TaskId) (c : ContextId) : Bool :=
  match w.fetch t c with
  | some (true, w') =>
    match w'.contextIns c, (w'.tasks t).current with
    | some ⟨.BBLK, _⟩, some cur =>
      (w'.contexts.context cur).previous.all fun p => (w'.contexts.context p).parentTask = t
    | _, _ => true
  | _ => true

def World.staysOwn (w : World) : Event → Bool
  | .execute => w.running.all fun tc => w.unwindsOwn tc.1 tc.2 && w.closesOwn tc.1 tc.2
  | .start _ => true
  | .finish _ => true

theorem unwindsWithin_of_own (h : w.unwindsOwn t c = true) : UnwindsWithin w t c := by
  intro hpending hc cur hcurrent
  rw [World.unwindsOwn, if_pos hpending, hcurrent] at h
  obtain ⟨hown, hrest⟩ := Bool.and_eq_true_iff.mp h
  have hcur : (w.contexts.context cur).parentTask = t := of_decide_eq_true hown
  rw [Contexts.chain_eq]
  rcases Contexts.ownToHandler_cases hrest with hall | ⟨pre, handler, post, heq, hcatch, hpre⟩
  · exact .inl (List.forall_mem_cons.mpr ⟨hcur, hall⟩)
  · exact .inr ⟨pre, handler, post, by rw [heq], hcatch, hpre⟩

theorem closesWithin_of_own (h : w.closesOwn t c = true) : ClosesWithin w t c := by
  intro w' arg cur p hfetch hins hcurrent hprevious
  rw [World.closesOwn, hfetch] at h
  simp only [hins, hcurrent, hprevious, Option.all_some] at h
  exact of_decide_eq_true h

theorem staysWithin_of_own {e : Event} (h : w.staysOwn e = true) : StaysWithin w e := by
  rintro rfl t c hrunning
  rw [World.staysOwn, hrunning, Option.all_some, Bool.and_eq_true] at h
  exact ⟨unwindsWithin_of_own h.1, closesWithin_of_own h.2⟩

/-- The function of the module raises in a block inside its own `try` block. -/
def handlingStore : Store :=
  { closureStore with
    modules := fun _ => ⟨"m",
      [⟨.NBLK, .noArg⟩, ⟨.CTCH, .val (.int 15)⟩, ⟨.JMP, .val (.int 10)⟩,
        ⟨.NBLK, .noArg⟩, ⟨.CTCH, .val (.int 5)⟩, ⟨.NBLK, .noArg⟩, ⟨.RES, .val (.int 0)⟩,
        ⟨.RAIS, .noArg⟩, ⟨.RES, .val (.int 1)⟩, ⟨.BBLK, .noArg⟩, ⟨.SET, .id "e"⟩,
        ⟨.BBLK, .noArg⟩, ⟨.RET, .noArg⟩,
        ⟨.RES, .id "$anon_1_7"⟩, ⟨.PUSH, .noArg⟩, ⟨.CLLN, .noArg⟩, ⟨.JMP, .val (.int 1)⟩,
        ⟨.SET, .id "e"⟩, ⟨.BBLK, .noArg⟩],
      .empty, ⟨[("$anon_1_7", 0)], by decide⟩, 0, true⟩ }

/-- The function's own block takes the error, and the block of the module, which the function has
captured, keeps its handler. -/
theorem isolates_errors_handlingStore : ∃ w w',
    RunsIn (processStep noNatives) StaysWithin (World.boot handlingStore 0) w ∧
      w.running = some (1, 4) ∧ (w.contexts.context 4).error.isSome = true ∧
      w.contexts.chain 4 = [4, 3, 2, 1, 0] ∧ IsolatesErrors noNatives w ∧
      processStep noNatives w .execute = some w' ∧ (w.contexts.context 3).catchIns = 10 ∧
      (w'.contexts.context 3).ins = 10 ∧ (w'.contexts.context 3).catchIns = -1 ∧
      w'.contexts.context 1 = w.contexts.context 1 ∧ (w'.contexts.context 1).catchIns = 17 := by
  have hrun : (runSteps (guarded (processStep noNatives) fun w e => w.staysOwn e = true)
      (World.boot handlingStore 0) (.start 0 :: List.replicate 6 .execute ++
        .start 1 :: List.replicate 5 .execute)).any (fun w => w.staysOwn .execute &&
          w.running = some (1, 4) && (w.contexts.context 4).error.isSome &&
          w.contexts.chain 4 = [4, 3, 2, 1, 0] && w.contexts.next = 5 &&
          (w.contexts.context 1).parentTask = 0 &&
          (w.contexts.context 3).catchIns = 10 && (processStep noNatives w .execute).any fun w' =>
            (w'.contexts.context 3).ins = 10 && (w'.contexts.context 3).catchIns = -1 &&
              (w'.contexts.context 1).catchIns = 17) = true := by
    decide +kernel
  simp only [Option.any_eq_true, Bool.and_eq_true, decide_eq_true_eq] at hrun
  obtain ⟨w, hw, ⟨⟨⟨⟨⟨⟨hown, hrunning⟩, hpending⟩, hchain⟩, hnext⟩, hparent⟩, hhandler⟩, w', hstep,
    ⟨hins, htaken⟩, hkept⟩ := hrun
  have hreached : RunsIn (processStep noNatives) StaysWithin (World.boot handlingStore 0) w :=
    (runsIn_of_guarded hw).mono fun _ _ => staysWithin_of_own
  have hisolates := isolates_errors_of_stays_within noNatives handlingStore 0 w hreached
    (staysWithin_of_own hown)
  have hframe := hisolates.frame 1 4 w' hrunning hstep 1 (by rw [hnext]; decide)
    (by rw [hparent]; decide)
  exact ⟨w, w', hreached, hrunning, hpending, hchain, hisolates, hstep, hhandler, hins, htaken,
    hframe, hkept⟩

/-- The module calls the function, which raises. -/
def closureRun : Option World :=
  runSteps (processStep noNatives) (World.boot closureStore 0)
    [.start 0, .execute, .execute, .execute, .execute, .execute, .execute,
      .start 1, .execute, .execute]

/-- The function's task takes the handler of the module's `try` block. -/
theorem not_isolates_errors : ¬ ∀ (env : Env) (store : Store) (m : ModuleId) (w : World),
    Runs (processStep env) (World.boot store m) w → IsolatesErrors env w := by
  intro h
  have hstep : ∃ w w', closureRun = some w ∧ processStep noNatives w .execute = some w' ∧
      w.running = some (1, 2) ∧ w.contexts.next = 3 ∧ (w.contexts.context 1).parentTask = 0 ∧
        (w.contexts.context 1).catchIns = 10 ∧ (w'.contexts.context 1).catchIns = -1 :=
    ⟨_, _, rfl, rfl, rfl, rfl, rfl, rfl, rfl⟩
  obtain ⟨w, w', hrun, hexecute, hrunning, hnext, hparent, hcatch, hcatch'⟩ := hstep
  have hframe := (h noNatives closureStore 0 w (runs_of_runSteps hrun)).frame 1 2 w' hrunning
    hexecute 1 (hnext ▸ Nat.succ_lt_succ (Nat.succ_pos 1)) (hparent ▸ Nat.zero_ne_one)
  rw [hframe, hcatch] at hcatch'
  cases hcatch'

end JeffVm
