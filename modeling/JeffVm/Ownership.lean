import JeffVm.Unwind

/-!
# Contexts and their tasks

A closure's context has the context it captured before it, which may belong to another task.
While unwinding stays within the contexts of the running task, a step changes no context of
any other task.
-/

set_option autoImplicit false

namespace JeffVm

/-- Between `w` and `w'` the contexts of tasks other than `t` stay as they are, and a task
that gets another current context gets one of its own. -/
structure Touches (t : TaskId) (w w' : World) : Prop where
  next_le : w.contexts.next ≤ w'.contexts.next
  parent : ∀ d : Nat, d < w.contexts.next →
    (w'.contexts.context d).parentTask = (w.contexts.context d).parentTask
  other : ∀ d : Nat, d < w.contexts.next → (w.contexts.context d).parentTask ≠ t →
    w'.contexts.context d = w.contexts.context d
  current : ∀ (s : TaskId) (d : Nat), (w'.tasks s).current = some d →
    (w.tasks s).current = some d ∨
      (d < w'.contexts.next ∧ (w'.contexts.context d).parentTask = s)

/-- Every current context, and the local context of the running task, belongs to its task. -/
structure WellOwned (w : World) : Prop where
  current : ∀ (t : TaskId) (d : Nat), (w.tasks t).current = some d →
    d < w.contexts.next ∧ (w.contexts.context d).parentTask = t
  running : ∀ (t : TaskId) (c : Nat), w.running = some (t, c) →
    c < w.contexts.next ∧ (w.contexts.context c).parentTask = t

namespace Touches

variable {t : TaskId} {w w' w'' : World}

theorem of_same (hcontexts : w'.contexts = w.contexts)
    (hcurrent : ∀ s, (w'.tasks s).current = (w.tasks s).current) : Touches t w w' where
  next_le := by rw [hcontexts]
  parent := by
    intro d _
    rw [hcontexts]
  other := by
    intro d _ _
    rw [hcontexts]
  current := by
    intro s d h
    rw [hcurrent] at h
    exact .inl h

theorem refl (w : World) : Touches t w w := of_same rfl (fun _ => rfl)

theorem trans (h : Touches t w w') (h' : Touches t w' w'') : Touches t w w'' where
  next_le := h.next_le.trans h'.next_le
  parent := by
    intro d hd
    rw [h'.parent d (hd.trans_le h.next_le), h.parent d hd]
  other := by
    intro d hd hne
    rw [h'.other d (hd.trans_le h.next_le) (by rwa [h.parent d hd]), h.other d hd hne]
  current := by
    intro s d hcurrent
    rcases h'.current s d hcurrent with hmid | hnew
    · rcases h.current s d hmid with hold | ⟨hlt, hparent⟩
      · exact .inl hold
      · exact .inr ⟨hlt.trans_le h'.next_le, by rw [h'.parent d hlt, hparent]⟩
    · exact .inr hnew

theorem wellOwned (h : Touches t w w') (hw : WellOwned w)
    (hrunning : ∀ (s : TaskId) (c : Nat), w'.running = some (s, c) →
      c < w'.contexts.next ∧ (w'.contexts.context c).parentTask = s) : WellOwned w' where
  current := by
    intro s d hcurrent
    rcases h.current s d hcurrent with hold | hnew
    · obtain ⟨hlt, hparent⟩ := hw.current s d hold
      exact ⟨hlt.trans_le h.next_le, by rw [h.parent d hlt, hparent]⟩
    · exact hnew
  running := hrunning

/-- A context of `t` is still one of `t`. -/
theorem own (h : Touches t w w') {c : Nat} {s : TaskId}
    (hc : c < w.contexts.next ∧ (w.contexts.context c).parentTask = s) :
    c < w'.contexts.next ∧ (w'.contexts.context c).parentTask = s :=
  ⟨hc.1.trans_le h.next_le, by rw [h.parent c hc.1, hc.2]⟩

theorem modifyTask (w : World) (s : TaskId) (f : Task → Task)
    (hf : ∀ x, (f x).current = x.current) : Touches t w (w.modifyTask s f) := by
  apply of_same
  · rfl
  · intro r
    by_cases hr : r = s
    · subst hr
      simp [World.modifyTask, hf]
    · simp [World.modifyTask, hr]

theorem setState (w : World) (s : TaskId) (state : TaskState) : Touches t w (w.setState s state) :=
  modifyTask w s _ (fun _ => rfl)

theorem setResval (w : World) (s : TaskId) (e : Entity) : Touches t w (w.setResval s e) :=
  modifyTask w s _ (fun _ => rfl)

theorem addDependent (w : World) (s dependent : TaskId) :
    Touches t w (w.addDependent s dependent) :=
  modifyTask w s _ (fun _ => rfl)

theorem withBackground (w : World) (background : List BackgroundThreadArgs) :
    Touches t w { w with background := background } :=
  of_same rfl (fun _ => rfl)

theorem futureCreate (w : World) (s : TaskId) : Touches t w (w.futureCreate s).2 :=
  of_same rfl (fun _ => rfl)

theorem setFrame (w : World) (s : TaskId) (f : Frame) : Touches t w (w.setFrame s f) := by
  apply of_same
  · rfl
  · intro r
    by_cases hr : r = s
    · subst hr
      simp [World.setFrame, World.modifyTask]
    · simp [World.setFrame, World.modifyTask, hr]

theorem modifyContext (w : World) {c : Nat} (f : Context → Context)
    (hparent : ∀ x, (f x).parentTask = x.parentTask)
    (hc : (w.contexts.context c).parentTask = t) : Touches t w (w.modifyContext c f) where
  next_le := Nat.le_refl _
  parent := by
    intro d _
    by_cases hd : d = c
    · subst hd
      simp [World.modifyContext, hparent]
    · simp [World.modifyContext, hd]
  other := by
    intro d _ hne
    have hd : d ≠ c := by
      rintro rfl
      exact hne hc
    simp [World.modifyContext, hd]
  current := by
    intro s d h
    exact .inl h

theorem createTask (w : World) (parent : TaskId) (resval : Entity) :
    Touches t w (w.createTask parent resval).2 where
  next_le := Nat.le_refl _
  parent := by
    intro d _
    rfl
  other := by
    intro d _ _
    rfl
  current := by
    intro s d h
    by_cases hs : s = w.nextTask
    · subst hs
      simp [World.createTask] at h
    · simp only [World.createTask, Function.update_of_ne hs] at h
      exact .inl h

theorem createContext {s : TaskId} {self : ObjectId} {m : ModuleId} {insPos : Int}
    {func : Option FunctionId} {previous : Option ContextId} {c : ContextId}
    (h : w.createContext s self m insPos func previous = some (c, w')) :
    Touches t w w' ∧ c < w'.contexts.next ∧ (w'.contexts.context c).parentTask = s := by
  unfold World.createContext at h
  simp only at h
  split at h
  · cases h
  · rename_i c' contexts hcreate
    unfold Contexts.create at hcreate
    split at hcreate
    · cases hcreate
      cases h
      refine ⟨⟨Nat.le_succ _, ?_, ?_, ?_⟩, Nat.lt_succ_self _, by simp⟩
      · intro d hd
        simp [Nat.ne_of_lt hd]
      · intro d hd _
        simp [Nat.ne_of_lt hd]
      · intro r d hcurrent
        by_cases hr : r = s
        · subst hr
          simp [World.modifyTask] at hcurrent
          subst hcurrent
          exact .inr ⟨Nat.lt_succ_self _, by simp⟩
        · simp only [World.modifyTask, Function.update_of_ne hr] at hcurrent
          exact .inl hcurrent
    · cases hcreate

theorem executeAsNewTask {s : TaskId} {self : ObjectId} {m : ModuleId} {insPos : Int}
    {func : Option FunctionId} {previous : Option ContextId} {child : TaskId}
    (h : w.executeAsNewTask s self m insPos func previous = some (child, w')) : Touches t w w' := by
  unfold World.executeAsNewTask at h
  obtain ⟨⟨c, w''⟩, hcreate, heq⟩ := Option.map_eq_some_iff.mp h
  cases heq
  refine Touches.trans ?_ (createContext hcreate).1
  exact (createTask w s _).trans (of_same rfl (fun _ => rfl))

theorem incIns (w : World) {c : Nat} (hc : (w.contexts.context c).parentTask = t) :
    Touches t w (w.incIns c) :=
  modifyContext w _ (fun _ => rfl) hc

theorem wake (resval : Entity) (w : World) (s : TaskId) : Touches t w (World.wake resval w s) := by
  unfold World.wake
  split
  · exact (modifyTask w s (fun x => { x with resval := resval }) (fun _ => rfl)).trans
      (of_same rfl (fun _ => rfl))
  · exact refl w

theorem markTaskComplete (w : World) (s : TaskId) : Touches t w (w.markTaskComplete s) := by
  have hfold : ∀ (ds : List TaskId) (e : Entity) (w : World),
      Touches t w (ds.foldl (World.wake e) w) := by
    intro ds e
    induction ds with
    | nil => exact refl
    | cons d ds ih =>
      intro w
      exact (wake e w d).trans (ih _)
  have hmark : Touches t w { w with completed := setInsert s w.completed } :=
    of_same rfl (fun _ => rfl)
  exact hmark.trans (hfold _ _ _)

/-- Unwinding along contexts of `t`. -/
theorem unwind (w : World) (ds : List ContextId) (ins : Int) (current : Option ContextId)
    (hds : ∀ d ∈ ds, (w.contexts.context d).parentTask = t)
    (hcurrent : ∀ d : Nat, current = some d →
      d < w.contexts.next ∧ (w.contexts.context d).parentTask = t) :
    Touches t w (w.unwind t ds ins current) := by
  have hnext : ∀ (ds : List ContextId) (cs : Contexts), (cs.setAllIns ds ins).next = cs.next := by
    intro ds
    induction ds with
    | nil => intro cs; rfl
    | cons d ds ih => intro cs; exact ih _
  have hparent : ∀ d, ((w.unwind t ds ins current).contexts.context d).parentTask =
      (w.contexts.context d).parentTask := by
    intro d
    rw [World.unwind_context]
    split <;> rfl
  refine ⟨?_, fun d _ => hparent d, ?_, ?_⟩
  · rw [World.unwind_contexts, hnext]
  · intro d _ hne
    rw [World.unwind_context, if_neg]
    intro hmem
    exact hne (hds d hmem)
  · intro s d h
    by_cases hs : s = t
    · subst hs
      rw [World.unwind_current] at h
      rw [hparent, World.unwind_contexts, hnext]
      exact .inr (hcurrent d h)
    · left
      simpa [World.unwind, World.modifyTask, hs] using h

theorem taskBackContext {p : ContextId} (h : w.taskBackContext t = some (some p, w'))
    (hback : ∀ cur p, (w.tasks t).current = some cur → (w.contexts.context cur).previous = some p →
      p < w.contexts.next ∧ (w.contexts.context p).parentTask = t) :
    Touches t w w' ∧ p < w'.contexts.next ∧ (w'.contexts.context p).parentTask = t := by
  rw [World.taskBackContext] at h
  cases hcur : (w.tasks t).current with
  | none => simp [hcur] at h
  | some cur =>
    cases hq : (w.contexts.context cur).previous with
    | none => simp [hcur, hq] at h
    | some q =>
      simp only [hcur, hq, Option.some.injEq, Prod.mk.injEq] at h
      obtain ⟨rfl, rfl⟩ := h
      have hown := hback cur q hcur hq
      have ht := unwind (t := t) w [q] (w.contexts.context cur).ins (some q)
        (fun d hd => by rw [List.mem_singleton.mp hd]; exact hown.2)
        (fun d hd => by cases hd; exact hown)
      exact ⟨ht, ht.own hown⟩

end Touches

/-! ## Steps -/

/-- When an error without a handler in `c` is pending, the task was not entered through a
closure, or a block of its own around the current one has a handler. -/
def UnwindsWithin (w : World) (t : TaskId) (c : ContextId) : Prop :=
  (w.contexts.context c).error.isSome → (w.contexts.context c).catchIns < 0 →
    ∀ cur, (w.tasks t).current = some cur →
      (∀ d ∈ w.contexts.chain cur, (w.contexts.context d).parentTask = t) ∨
      ∃ pre handler post, w.contexts.chain cur = cur :: (pre ++ handler :: post) ∧
        0 ≤ (w.contexts.context handler).catchIns ∧
        ∀ d ∈ pre ++ [handler], (w.contexts.context d).parentTask = t

/-- A block is closed in a context that was opened within a context of the same task. -/
def ClosesWithin (w : World) (t : TaskId) (c : ContextId) : Prop :=
  ∀ w' arg cur p, w.fetch t c = some (true, w') → w'.contextIns c = some ⟨.BBLK, arg⟩ →
    (w'.tasks t).current = some cur → (w'.contexts.context cur).previous = some p →
    (w'.contexts.context p).parentTask = t

/-- The step does not leave the contexts of the running task. -/
def StaysWithin (w : World) (e : Event) : Prop :=
  e = .execute → ∀ t c, w.running = some (t, c) → UnwindsWithin w t c ∧ ClosesWithin w t c

/-- What an instruction does, for a context and a current context of the running task. -/
theorem apply_touches {t : TaskId} {c : Nat} {w w' : World} {effect : Effect}
    {out : World.Outcome} (hc : c < w.contexts.next ∧ (w.contexts.context c).parentTask = t)
    (hback : ∀ f, effect = .backBlock f → ∀ cur p, (w.tasks t).current = some cur →
      (w.contexts.context cur).previous = some p →
        p < w.contexts.next ∧ (w.contexts.context p).parentTask = t)
    (h : w.apply t c effect = some (w', out)) :
    Touches t w w' ∧ ∀ d, out = .running d →
      d < w'.contexts.next ∧ (w'.contexts.context d).parentTask = t := by
  have hstay : ∀ {w' : World}, Touches t w w' → ∀ d, World.Outcome.running c = .running d →
      d < w'.contexts.next ∧ (w'.contexts.context d).parentTask = t := by
    intro w' ht d hd
    cases hd
    exact ht.own hc
  have hstop : ∀ {w' : World} (d : ContextId), World.Outcome.stopped = .running d →
      d < w'.contexts.next ∧ (w'.contexts.context d).parentTask = t := by
    intro w' d hd
    cases hd
  cases effect with
  | next f =>
    cases h
    have ht := (Touches.setFrame w t f).trans (Touches.incIns (w.setFrame t f) hc.2)
    exact ⟨ht, hstay ht⟩
  | raise f err =>
    cases h
    have hraised := Touches.modifyContext (w.setFrame t (f.withResval (.obj err)))
      (fun x => { x with error := some err }) (fun _ => rfl) hc.2
    have ht := ((Touches.setFrame w t _).trans hraised).trans
      (Touches.incIns _ (((Touches.setFrame w t _).trans hraised).own hc).2)
    exact ⟨ht, hstay ht⟩
  | jump f n =>
    cases h
    have ht := (Touches.setFrame w t f).trans (Touches.modifyContext (w.setFrame t f)
      (fun x => { x with ins := x.ins + n + 1 }) (fun _ => rfl) hc.2)
    exact ⟨ht, hstay ht⟩
  | call f func self parentContext =>
    simp only [World.apply] at h
    split at h
    · cases h
    · rename_i child w₁ htask
      have h₁ : Touches t w w₁ := (Touches.setFrame w t f).trans (Touches.executeAsNewTask htask)
      split at h
      · cases h
        have h₂ := (h₁.trans (Touches.futureCreate w₁ child)).trans
          (Touches.setResval _ t (.obj (w₁.futureCreate child).1))
        have ht := h₂.trans (Touches.incIns _ (h₂.own hc).2)
        exact ⟨ht, hstay ht⟩
      · cases h
        have h₂ := (h₁.trans (Touches.addDependent w₁ child t)).trans
          (Touches.setState _ t .WAITING)
        exact ⟨h₂.trans (Touches.incIns _ (h₂.own hc).2), hstop⟩
  | background f func self =>
    simp only [World.apply] at h
    cases h
    have h₁ : Touches t w ((w.setFrame t f).createTask t f.resval).2 :=
      (Touches.setFrame w t f).trans (Touches.createTask _ _ _)
    have h₂ := h₁.trans (Touches.futureCreate _ (w.setFrame t f).nextTask)
    have h₃ := h₂.trans (Touches.withBackground _
      (w.background ++ [BackgroundThreadArgs.mk (w.setFrame t f).nextTask c func self]))
    have h₄ := h₃.trans (Touches.setResval _ t (.obj
      (((w.setFrame t f).createTask t f.resval).2.futureCreate (w.setFrame t f).nextTask).1))
    have ht := h₄.trans (Touches.incIns _ (h₄.own hc).2)
    exact ⟨ht, hstay ht⟩
  | load f m =>
    simp only [World.apply] at h
    split at h
    · cases h
    · rename_i child w₁ htask
      cases h
      have h₁ : Touches t w w₁ := (Touches.setFrame w t f).trans (Touches.executeAsNewTask htask)
      have h₂ := (h₁.trans (Touches.addDependent w₁ child t)).trans
        (Touches.setState _ t .WAITING)
      exact ⟨h₂.trans (Touches.incIns _ (h₂.own hc).2), hstop⟩
  | wait f task =>
    cases h
    have h₂ := ((Touches.setFrame w t f).trans (Touches.addDependent (t := t) _ task t)).trans
      (Touches.setState _ t .WAITING)
    exact ⟨h₂.trans (Touches.incIns _ (h₂.own hc).2), hstop⟩
  | newBlock f =>
    simp only [World.apply] at h
    split at h
    · cases h
    · rename_i new w₁ hcreate
      cases h
      have hself : ((w.setFrame t f).contexts.context c).parentTask = t := hc.2
      rw [hself] at hcreate
      obtain ⟨h₁, hnew⟩ := Touches.createContext (t := t) hcreate
      have h₂ := ((Touches.setFrame w t f).trans h₁).trans (Touches.incIns w₁ hnew.2)
      refine ⟨h₂, fun d hd => ?_⟩
      cases hd
      exact (Touches.incIns w₁ hnew.2).own hnew
  | backBlock f =>
    simp only [World.apply] at h
    split at h
    · rename_i p w₁ htaskBack
      cases h
      have hframe : Touches t w (w.setFrame t f) := Touches.setFrame w t f
      obtain ⟨h₁, hp⟩ := Touches.taskBackContext htaskBack (fun cur p hcur hprevious => by
        refine hback f rfl cur p ?_ hprevious
        simpa [World.setFrame, World.modifyTask] using hcur)
      have h₂ := (hframe.trans h₁).trans (Touches.incIns w₁ hp.2)
      refine ⟨h₂, fun d hd => ?_⟩
      cases hd
      exact (Touches.incIns w₁ hp.2).own hp
    · cases h
  | setCatch f n =>
    cases h
    have hcatch := Touches.modifyContext (w.setFrame t f)
      (fun x => { x with catchIns := x.ins + n + 1 }) (fun _ => rfl) hc.2
    have ht := ((Touches.setFrame w t f).trans hcatch).trans
      (Touches.incIns _ (((Touches.setFrame w t f).trans hcatch).own hc).2)
    exact ⟨ht, hstay ht⟩
  | complete f =>
    cases h
    have h₂ := (Touches.setFrame w t f).trans (Touches.setState (t := t) _ t .COMPLETE)
    exact ⟨h₂.trans (Touches.incIns _ (h₂.own hc).2), hstop⟩

end JeffVm
