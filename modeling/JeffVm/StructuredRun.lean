import JeffVm.Placement

/-!
# The machine runs structured code

What a piece of structured code does is what the virtual machine does with its instructions: the
process gets from the start of the code to its end, to the target of a `break` or `continue`, or
to the instruction that completes the task. Nothing else is possible on the way, but for tasks
that were queued before and background calls.
-/

set_option autoImplicit false

namespace JeffVm

/-- The functions have the code on their tapes, at their positions. -/
def Program.HostedBy (program : Program) (store : Store) : Prop :=
  ∀ func body, program func = some body → ∃ base : Nat,
    (store.functions func).insPos = base ∧ body.tidy = true ∧
      Placed (store.modules (store.functions func).module).tape noTargets base body.emit

theorem Program.HostedBy.same {program : Program} {store store' : Store}
    (h : program.HostedBy store) (hsame : store.SameProgram store') : program.HostedBy store' := by
  intro func body hbody
  obtain ⟨base, hbase, htidy, hplaced⟩ := h func body hbody
  refine ⟨base, ?_, htidy, ?_⟩
  · rw [hsame.functions]
    exact hbase
  · rw [hsame.functions, hsame.tapes]
    exact hplaced

/-- The fragment stands on the tape between `start` and `stop`. -/
def Fragment.Placed (tape : List Instruction) (targets : Targets) (start stop : Nat) :
    Fragment → Prop
  | .code body =>
    JeffVm.Placed tape targets start body.emit ∧ body.tidy = true ∧ stop = start + body.size
  | .cases branches otherwise => ∃ (tail after : Nat) (jumps : Bool),
    JeffVm.Placed tape targets start (Code.emitBranches branches tail after jumps) ∧
      Code.tidyBranches branches = true ∧ (jumps = false → after = 0) ∧
      stop = start + (Code.emitBranches branches tail after jumps).length + after ∧
      match otherwise with
      | none => tail = after
      | some body => JeffVm.Placed tape targets
          (start + (Code.emitBranches branches tail after jumps).length + tail) body.emit ∧
        body.tidy = true ∧ after = tail + body.size
  | .test loop => loop.Placed start tape ∧ stop = loop.exitAt start
  | .first loop => ∃ base, loop.Placed base tape ∧ start = loop.firstAt base ∧
    stop = loop.exitAt base
  | .second loop => ∃ base, loop.Placed base tape ∧ start = loop.secondAt base ∧
    stop = loop.exitAt base

/-- From the world the task gets to where the signal leads, with the scene. -/
def Realises (env : Env) (w : World) (t c : Nat) (targets : Targets) (stop : Nat) (s' : Scene) :
    Signal → Prop
  | .normal => ∃ w', Reaches env w w' t c ∧ w'.At t c stop s'
  | .jump type => ∀ target, targets type = some target →
    ∃ w', Reaches env w w' t c ∧ w'.At t c target s'
  | .ret => ∃ w', Reaches env w w' t c ∧ Returning env w' t c s'

section

variable {env : Env} {program : Program} {w w' w₁ : World} {t c d : Nat} {targets : Targets}
  {start stop pos pos' : Nat} {s s' s₁ : Scene} {signal : Signal} {ins : Instruction}

theorem Realises.after (h : Reaches env w w₁ t c)
    (h' : Realises env w₁ t c targets stop s' signal) :
    Realises env w t c targets stop s' signal := by
  cases signal with
  | normal =>
    obtain ⟨w', hreaches, hat⟩ := h'
    exact ⟨w', h.trans hreaches, hat⟩
  | jump type =>
    intro target htarget
    obtain ⟨w', hreaches, hat⟩ := h' target htarget
    exact ⟨w', h.trans hreaches, hat⟩
  | ret =>
    obtain ⟨w', hreaches, hreturning⟩ := h'
    exact ⟨w', h.trans hreaches, hreturning⟩

/-! ## What stays -/

theorem World.At.program_same (h : w.At t c pos s) (hreaches : Reaches env w w' t c)
    (h' : w'.At t c pos' s') : s.store.SameProgram s'.store := by
  obtain rfl := h.scene
  obtain rfl := h'.scene
  exact hreaches.alongside.program

theorem World.At.tape_same (h : w.At t c pos s) (hreaches : Reaches env w w' t c)
    (h' : w'.At t c pos' s') : s'.tape c = s.tape c := by
  have hprogram := h.program_same hreaches h'
  have hmodule : (w'.contexts.context c).module = (w.contexts.context c).module := by
    rw [hreaches.alongside.here]
  rw [← h.tape, ← h'.tape, hmodule]
  exact hreaches.alongside.program.tapes _

theorem Scene.enterBlock_tape (h : s.enterBlock c = some (d, s')) : s'.tape d = s.tape c := by
  obtain ⟨cs', hcreate, rfl⟩ := Scene.enterBlock_some h
  obtain ⟨rfl, -, hcontext⟩ := Contexts.create_eq hcreate
  unfold Scene.tape
  rw [hcontext, Function.update_self]
  rfl

theorem Scene.enterBlock_program (h : s.enterBlock c = some (d, s')) :
    s.store.SameProgram s'.store := by
  obtain ⟨cs', -, rfl⟩ := Scene.enterBlock_some h
  exact s.store.sameProgram_heapNew .Object

theorem Scene.enter_tape {func : FunctionId} {self : ObjectId} {parentContext : Option ContextId}
    (h : s.enter func self parentContext = some (d, s')) :
    s'.tape d = (s.store.modules (s.store.functions func).module).tape := by
  obtain ⟨cs', hcreate, rfl⟩ := Scene.enter_some h
  obtain ⟨rfl, -, hcontext⟩ := Contexts.create_eq hcreate
  unfold Scene.tape
  rw [hcontext, Function.update_self]
  rfl

theorem Scene.enter_program {func : FunctionId} {self : ObjectId}
    {parentContext : Option ContextId} (h : s.enter func self parentContext = some (d, s')) :
    s.store.SameProgram s'.store := by
  obtain ⟨cs', -, rfl⟩ := Scene.enter_some h
  exact s.store.sameProgram_heapNew .Object

theorem Returning.mono (hcd : c ≤ d) (h : Returning env w t d s') : Returning env w t c s' := by
  obtain ⟨e, pos, s, ins, f, hde, hat, hins, hexec, hprogram, heq⟩ := h
  exact ⟨e, pos, s, ins, f, Nat.le_trans hcd hde, hat, hins, hexec, hprogram, heq⟩

/-! ## Jumps -/

theorem World.At.goto (env : Env) {n : Int} (h : w.At t c pos s)
    (hins : (s.tape c)[pos]? = some ⟨.JMP, .val (.int n)⟩) (hn : (pos' : Int) = pos + (n + 1)) :
    ∃ w', Reaches env w w' t c ∧ w'.At t c pos' s := by
  have hexec : execute env w t c ⟨.JMP, .val (.int n)⟩ = some (.jump s.frame n) := by
    rw [← h.frame]
    rfl
  exact h.jump hins hexec (.refl _) hn

/-- A conditional jump to `pos'`. -/
theorem World.At.branch (env : Env) {test : Test} {n : Int} (h : w.At t c pos s)
    (hins : (s.tape c)[pos]? = some ⟨test.op, .val (.int n)⟩) (hn : (pos' : Int) = pos + (n + 1)) :
    ∃ w', Reaches env w w' t c ∧
      w'.At t c (if test.jumps s.resval then pos' else pos + 1) s := by
  have hframe := h.frame
  have hresval : (w.frame t).resval = s.resval := by
    rw [hframe]
    rfl
  have hexec : execute env w t c ⟨test.op, .val (.int n)⟩ =
      if test.jumps s.resval then some (.jump s.frame n) else some (.next s.frame) := by
    rw [← hframe]
    unfold Test.jumps
    rw [← hresval]
    cases test with
    | IF => cases hnone : (w.frame t).resval.isNone <;> simp [Test.op, execute, executeIF, hnone]
    | IFN => cases hnone : (w.frame t).resval.isNone <;> simp [Test.op, execute, executeIF, hnone]
  cases hjumps : test.jumps s.resval with
  | true =>
    rw [hjumps] at hexec
    exact h.jump hins hexec (.refl _) hn
  | false =>
    rw [hjumps] at hexec
    exact h.next hins hexec (.refl _)

end

/-- A task stands at the start of the fragment. -/
structure Begins (program : Program) (w : World) (t c : Nat) (targets : Targets)
    (start stop : Nat) (fragment : Fragment) (s : Scene) : Prop where
  hosted : program.HostedBy s.store
  at_ : w.At t c start s
  placed : fragment.Placed (s.tape c) targets start stop

/-- Wherever the fragment stands, the machine does what the signal and the scenes say. -/
def RunsAs (env : Env) (program : Program) (c : Nat) (fragment : Fragment) (s : Scene)
    (signal : Signal) (s' : Scene) : Prop :=
  ∀ {w : World} {t : Nat} {targets : Targets} {start stop : Nat},
    Begins program w t c targets start stop fragment s → Realises env w t c targets stop s' signal

section

variable {env : Env} {program : Program} {w w' w₁ : World} {t c d : Nat} {targets targets' : Targets}
  {start stop stop' pos pos' : Nat} {s s' s₁ s₂ s₃ : Scene} {signal inner : Signal}
  {ins : Instruction} {f : Frame} {fragment fragment' : Fragment}
  {a b condition body init inc iterable lhs assign handler : Code}
  {branches : Branches} {otherwise : Option Code} {loop : Loop}

/-- What is next on the tape after a part has run. -/
theorem Begins.next (h : Begins program w t c targets start stop fragment s)
    (hreaches : Reaches env w w₁ t c) (hat : w₁.At t c pos s₁)
    (hplaced : fragment'.Placed (s.tape c) targets' pos stop') :
    Begins program w₁ t c targets' pos stop' fragment' s₁ where
  hosted := h.hosted.same (h.at_.program_same hreaches hat)
  at_ := hat
  placed := by
    rw [h.at_.tape_same hreaches hat]
    exact hplaced

/-- A part of the code at its start. -/
theorem Begins.part (h : Begins program w t c targets start stop fragment s)
    (hplaced : fragment'.Placed (s.tape c) targets' start stop') :
    Begins program w t c targets' start stop' fragment' s := ⟨h.hosted, h.at_, hplaced⟩

/-- After a part that ends normally, the rest. -/
theorem RunsAs.andThen (h : RunsAs env program c fragment' s .normal s₁)
    (hbegins : Begins program w t c targets start stop fragment s)
    (hplaced : fragment'.Placed (s.tape c) targets' start pos)
    (hrest : ∀ w₁, Reaches env w w₁ t c → w₁.At t c pos s₁ →
      Realises env w₁ t c targets stop s' signal) :
    Realises env w t c targets stop s' signal := by
  obtain ⟨w₁, hreaches, hat⟩ := h (hbegins.part hplaced)
  exact (hrest w₁ hreaches hat).after hreaches

/-! ## Straight code -/

theorem RunsAs.nil : RunsAs env program c (.code .nil) s .normal s := by
  intro w t targets start stop h
  have hstop : stop = start := h.placed.2.2
  subst hstop
  exact ⟨w, .refl env w t c, h.at_⟩

theorem Begins.plain (h : Begins program w t c targets start stop (.code (.plain ins)) s) :
    (s.tape c)[start]? = some ins ∧ stop = start + 1 := by
  have hitem := (Placed.cons_iff.mp h.placed.1).1
  exact ⟨hitem, h.placed.2.2⟩

theorem RunsAs.plain (hdoes : s.Does env c ins (.next f)) :
    RunsAs env program c (.code (.plain ins)) s .normal (s.withFrame f) := by
  intro w t targets start stop h
  obtain ⟨hins, rfl⟩ := h.plain
  exact h.at_.next hins (hdoes.2 w t h.at_.block h.at_.scene) hdoes.1

theorem RunsAs.complete (hdoes : s.Does env c ins (.complete f)) :
    RunsAs env program c (.code (.plain ins)) s .ret (s.withFrame f) := by
  intro w t targets start stop h
  obtain ⟨hins, -⟩ := h.plain
  exact ⟨w, .refl env w t c, c, start, s, ins, f, Nat.le_refl c, h.at_, hins,
    hdoes.2 w t h.at_.block h.at_.scene, hdoes.1, rfl⟩

/-- The callee stands at the start of its code, and its caller goes on when it completes. -/
theorem RunsAs.call {func : FunctionId} {self : ObjectId} {parentContext : Option ContextId}
    (hdoes : s.Does env c ins (.call f func self parentContext))
    (hsync : (f.store.functions func).isAsync = false) (hbody : program func = some body)
    (henter : (s.withFrame f).enter func self parentContext = some (d, s₁))
    (hcallee : RunsAs env program d (.code body) s₁ .ret s₂) :
    RunsAs env program c (.code (.plain ins)) s .normal { s₂ with stack := f.stack } := by
  intro w t targets start stop h
  obtain ⟨hins, rfl⟩ := h.plain
  have hhosted := h.hosted.same hdoes.1
  obtain ⟨base, hbase, htidy, hplaced⟩ := hhosted func body hbody
  obtain ⟨child, w₁, hcalled, hat⟩ := h.at_.call hins (hdoes.2 w t h.at_.block h.at_.scene)
    hdoes.1 hsync hbase henter
  have hbegins : Begins program w₁ child d noTargets base (base + body.size) (.code body) s₁ := by
    refine ⟨hhosted.same (Scene.enter_program henter), hat, ?_, htidy, rfl⟩
    rw [Scene.enter_tape henter]
    exact hplaced
  obtain ⟨w₂, hreaches, hreturning⟩ := hcallee hbegins
  exact hcalled.return h.at_ hreaches hreturning

theorem RunsAs.brk {type : BreakType} :
    RunsAs env program c (.code (.brk type)) s (.jump type) s := by
  intro w t targets start stop h target htarget
  have hitem := (Placed.cons_iff.mp h.placed.1).1 target htarget
  exact h.at_.goto env hitem (by omega)

theorem Begins.seq (h : Begins program w t c targets start stop (.code (.seq a b)) s) :
    (Fragment.code a).Placed (s.tape c) targets start (start + a.size) ∧
      (Fragment.code b).Placed (s.tape c) targets (start + a.size) stop := by
  obtain ⟨hplaced, htidy, hstop⟩ := h.placed
  rw [Code.emit, Placed.append_iff] at hplaced
  rw [Code.tidy, Bool.and_eq_true] at htidy
  have hsize : (Code.seq a b).size = a.size + b.size := by
    unfold Code.size
    rw [Code.emit, List.length_append]
  refine ⟨⟨hplaced.1, htidy.1, rfl⟩, hplaced.2, htidy.2, ?_⟩
  rw [hstop, hsize]
  omega

theorem RunsAs.seq (ha : RunsAs env program c (.code a) s .normal s₁)
    (hb : RunsAs env program c (.code b) s₁ signal s') :
    RunsAs env program c (.code (.seq a b)) s signal s' := by
  intro w t targets start stop h
  obtain ⟨hfirst, hsecond⟩ := h.seq
  apply ha.andThen h hfirst
  intro w₁ hreaches hat
  exact hb (h.next hreaches hat hsecond)

theorem Realises.stop_of_ne (h : Realises env w t c targets stop s' signal)
    (hne : signal ≠ .normal) : Realises env w t c targets stop' s' signal := by
  cases signal with
  | normal => exact absurd rfl hne
  | jump type => exact h
  | ret => exact h

theorem RunsAs.seqStop (hne : signal ≠ .normal) (ha : RunsAs env program c (.code a) s signal s') :
    RunsAs env program c (.code (.seq a b)) s signal s' := by
  intro w t targets start stop h
  exact (ha (h.part h.seq.1)).stop_of_ne hne

/-! ## Branches -/

theorem Begins.skip (env : Env) {test : Test}
    (h : Begins program w t c targets start stop (.code (.skip test body)) s) :
    (∃ w₁, Reaches env w w₁ t c ∧
      w₁.At t c (if test.jumps s.resval then stop else start + 1) s) ∧
      (Fragment.code body).Placed (s.tape c) targets (start + 1) stop := by
  obtain ⟨hplaced, htidy, hstop⟩ := h.placed
  have hsize : (Code.skip test body).size = body.size + 1 := by
    unfold Code.size
    rw [Code.emit, List.length_cons]
  rw [Code.emit, Placed.cons_iff] at hplaced
  refine ⟨h.at_.branch env hplaced.1 ?_, hplaced.2, htidy, ?_⟩
  · rw [hstop, hsize, Code.length_emit]
    push_cast
    omega
  · omega

theorem RunsAs.skipOver {test : Test} (hjumps : test.jumps s.resval = true) :
    RunsAs env program c (.code (.skip test body)) s .normal s := by
  intro w t targets start stop h
  obtain ⟨w₁, hreaches, hat⟩ := (h.skip env).1
  rw [hjumps] at hat
  exact ⟨w₁, hreaches, hat⟩

theorem RunsAs.skipInto {test : Test} (hjumps : test.jumps s.resval = false)
    (hbody : RunsAs env program c (.code body) s signal s') :
    RunsAs env program c (.code (.skip test body)) s signal s' := by
  intro w t targets start stop h
  obtain ⟨⟨w₁, hreaches, hat⟩, hplaced⟩ := h.skip env
  rw [hjumps] at hat
  exact (hbody (h.next hreaches hat hplaced)).after hreaches

theorem Begins.choice (env : Env) {test : Test}
    (h : Begins program w t c targets start stop (.code (.choice test a b)) s) :
    (∃ w₁, Reaches env w w₁ t c ∧
      w₁.At t c (if test.jumps s.resval then start + a.size + 2 else start + 1) s) ∧
      (Fragment.code a).Placed (s.tape c) targets (start + 1) (start + 1 + a.size) ∧
      (s.tape c)[start + 1 + a.size]? = some ⟨.JMP, .val (.int b.size)⟩ ∧
      (Fragment.code b).Placed (s.tape c) targets (start + a.size + 2) stop ∧
      stop = start + a.size + 2 + b.size := by
  obtain ⟨hplaced, htidy, hstop⟩ := h.placed
  rw [Code.tidy, Bool.and_eq_true] at htidy
  have hitems : (Code.choice test a b).emit = .jump test.op (a.size + 1) ::
      (a.emit ++ (.jump .JMP b.size :: b.emit)) := by
    rw [Code.emit]
    simp [Code.size]
  have hsize : (Code.choice test a b).size = a.size + 2 + b.size := by
    rw [Code.size, hitems, List.length_cons, List.length_append, List.length_cons,
      Code.length_emit, Code.length_emit]
    omega
  rw [hitems, Placed.cons_iff, Placed.append_iff, Placed.cons_iff, Code.length_emit] at hplaced
  obtain ⟨hbranch, hfirst, hjump, hsecond⟩ := hplaced
  have hpos : start + 1 + a.size + 1 = start + a.size + 2 := by omega
  rw [hpos] at hsecond
  refine ⟨h.at_.branch env hbranch ?_, ⟨hfirst, htidy.1, rfl⟩, hjump, ⟨hsecond, htidy.2, ?_⟩, ?_⟩
  · push_cast
    omega
  · omega
  · omega

/-- After a part that ends normally a jump to the end. -/
theorem Realises.thenGoto {n : Int} (h : Realises env w t c targets pos s' signal)
    (hstart : w.At t c start s) (hins : (s.tape c)[pos]? = some ⟨.JMP, .val (.int n)⟩)
    (hn : (stop : Int) = pos + (n + 1)) : Realises env w t c targets stop s' signal := by
  cases signal with
  | normal =>
    obtain ⟨w₁, hreaches, hat⟩ := h
    rw [← hstart.tape_same hreaches hat] at hins
    obtain ⟨w₂, hreaches₂, hat₂⟩ := hat.goto env hins hn
    exact ⟨w₂, hreaches.trans hreaches₂, hat₂⟩
  | jump type => exact h
  | ret => exact h

theorem RunsAs.choiceFirst {test : Test} (hjumps : test.jumps s.resval = false)
    (ha : RunsAs env program c (.code a) s signal s') :
    RunsAs env program c (.code (.choice test a b)) s signal s' := by
  intro w t targets start stop h
  obtain ⟨⟨w₁, hreaches, hat⟩, hfirst, hjump, -, hstop⟩ := h.choice env
  rw [hjumps] at hat
  have hbegins := h.next hreaches hat hfirst
  rw [← h.at_.tape_same hreaches hat] at hjump
  refine Realises.after hreaches ((ha hbegins).thenGoto hat hjump ?_)
  rw [hstop]
  push_cast
  omega

theorem RunsAs.choiceSecond {test : Test} (hjumps : test.jumps s.resval = true)
    (hb : RunsAs env program c (.code b) s signal s') :
    RunsAs env program c (.code (.choice test a b)) s signal s' := by
  intro w t targets start stop h
  obtain ⟨⟨w₁, hreaches, hat⟩, -, -, hsecond, -⟩ := h.choice env
  rw [hjumps] at hat
  exact (hb (h.next hreaches hat hsecond)).after hreaches

theorem RunsAs.func : RunsAs env program c (.code (.func body)) s .normal s := by
  intro w t targets start stop h
  obtain ⟨hplaced, -, hstop⟩ := h.placed
  have hsize : (Code.func body).size = body.size + 1 := by
    unfold Code.size
    rw [Code.emit, List.length_cons]
  rw [Code.emit, Placed.cons_iff] at hplaced
  apply h.at_.goto env hplaced.1
  rw [hstop, hsize, Code.length_emit]
  push_cast
  omega

/-- Where the branches from one of them on lie: its condition and the jump after it, its body and
what follows it. -/
structure BranchPlaced (tape : List Instruction) (targets : Targets) (start stop bodyAt : Nat)
    (condition body : Code) (test : Test) (pos' : Nat) : Prop where
  conditionPlaced : (Fragment.code condition).Placed tape targets start (start + condition.size)
  jump : ∃ n : Int, tape[start + condition.size]? = some ⟨test.op, .val (.int n)⟩ ∧
    (pos' : Int) = (start + condition.size : Nat) + (n + 1)
  bodyPlaced : (Fragment.code body).Placed tape targets bodyAt (bodyAt + body.size)
  after : stop = bodyAt + body.size ∨ ∃ n : Int,
    tape[bodyAt + body.size]? = some ⟨.JMP, .val (.int n)⟩ ∧
      (stop : Int) = (bodyAt + body.size : Nat) + (n + 1)
  inside : start ≤ bodyAt ∧ bodyAt + body.size ≤ stop ∧ start + condition.size ≤ stop
  ahead : start ≤ pos'

/-- The jump at the end of a body, where there is one. -/
theorem placed_end {tape : List Instruction} {base after : Nat} {jumps : Bool}
    (h : Placed tape targets base (if jumps then [.jump .JMP after] else []))
    (hafter : jumps = false → after = 0) (hstop : stop = base + jumps.toNat + after) :
    stop = base ∨ ∃ n : Int, tape[base]? = some ⟨.JMP, .val (.int n)⟩ ∧
      (stop : Int) = base + (n + 1) := by
  cases jumps with
  | false =>
    rw [hafter rfl] at hstop
    exact .inl hstop
  | true =>
    refine .inr ⟨after, (Placed.cons_iff.mp h).1, ?_⟩
    rw [hstop]
    simp only [Bool.toNat_true]
    push_cast
    omega

theorem length_end (after : Nat) (jumps : Bool) :
    (if jumps then [Item.jump .JMP after] else []).length = jumps.toNat := by
  cases jumps <;> rfl

theorem Begins.last (h : Begins program w t c targets start stop
      (.cases (.last condition body) otherwise) s) : ∃ pos',
    BranchPlaced (s.tape c) targets start stop (start + condition.size + 1) condition body .IFN
      pos' ∧ match otherwise with
      | none => pos' = stop
      | some code => (Fragment.code code).Placed (s.tape c) targets pos' stop := by
  obtain ⟨tail, after, jumps, hplaced, htidy, hafter, hstop, hotherwise⟩ := h.placed
  rw [Code.tidyBranches, Bool.and_eq_true] at htidy
  have hlength : (Code.emitBranches (.last condition body) tail after jumps).length =
      condition.size + 1 + body.size + jumps.toNat := by
    rw [Code.emitBranches, List.length_append, List.length_append, List.length_cons, length_end,
      Code.length_emit, Code.length_emit]
    omega
  rw [hlength] at hstop hotherwise
  rw [Code.emitBranches, Placed.append_iff, Placed.append_iff, Placed.cons_iff,
    List.length_append, List.length_cons, Code.length_emit, Code.length_emit] at hplaced
  obtain ⟨⟨hcondition, hjump, hbody⟩, hend⟩ := hplaced
  have hpos : start + (condition.size + (body.size + 1)) =
      start + condition.size + 1 + body.size := by omega
  rw [hpos] at hend
  refine ⟨start + (condition.size + 1 + body.size + jumps.toNat) + tail,
    ⟨⟨hcondition, htidy.1, rfl⟩, ⟨_, hjump, ?_⟩, ⟨hbody, htidy.2, rfl⟩,
      placed_end hend hafter ?_, by omega, by omega⟩, ?_⟩
  · push_cast
    omega
  · omega
  · cases otherwise with
    | none =>
      simp only at hotherwise
      omega
    | some code =>
      refine ⟨hotherwise.1, hotherwise.2.1, ?_⟩
      omega

theorem Begins.more {rest : Branches} (h : Begins program w t c targets start stop
      (.cases (.more condition body rest) otherwise) s) : ∃ pos',
    BranchPlaced (s.tape c) targets start stop pos' condition body .IF pos' ∧
      (Fragment.cases rest otherwise).Placed (s.tape c) targets (start + condition.size + 1)
        stop := by
  obtain ⟨tail, after, jumps, hplaced, htidy, hafter, hstop, hotherwise⟩ := h.placed
  rw [Code.tidyBranches, Bool.and_eq_true, Bool.and_eq_true] at htidy
  generalize hinnerDef : Code.emitBranches rest (body.size + jumps.toNat + tail)
    (body.size + jumps.toNat + after) true = inner
  have hlength : (Code.emitBranches (.more condition body rest) tail after jumps).length =
      condition.size + 1 + inner.length + body.size + jumps.toNat := by
    rw [Code.emitBranches, List.length_append, List.length_append, List.length_append,
      List.length_cons, length_end, Code.length_emit, Code.length_emit, hinnerDef]
    omega
  rw [hlength] at hstop hotherwise
  rw [Code.emitBranches, Placed.append_iff, Placed.append_iff, Placed.append_iff,
    Placed.cons_iff] at hplaced
  simp only [List.length_append, List.length_cons, Code.length_emit, hinnerDef] at hplaced
  obtain ⟨⟨⟨hcondition, hjump, hinner⟩, hbody⟩, hend⟩ := hplaced
  have hbodyAt : start + (condition.size + (inner.length + 1)) =
      start + condition.size + 1 + inner.length := by omega
  have hendAt : start + (condition.size + (inner.length + 1) + body.size) =
      start + condition.size + 1 + inner.length + body.size := by omega
  rw [hbodyAt] at hbody
  rw [hendAt] at hend
  refine ⟨start + condition.size + 1 + inner.length,
    ⟨⟨hcondition, htidy.1.1, rfl⟩, ⟨_, hjump, ?_⟩, ⟨hbody, htidy.1.2, rfl⟩,
      placed_end hend hafter ?_, by omega, by omega⟩,
    body.size + jumps.toNat + tail, body.size + jumps.toNat + after, true, ?_, htidy.2,
      (fun hfalse => by cases hfalse), ?_, ?_⟩
  · push_cast
    omega
  · omega
  · rw [hinnerDef]
    exact hinner
  · rw [hinnerDef]
    omega
  · cases otherwise with
    | none =>
      simp only at hotherwise ⊢
      omega
    | some code =>
      obtain ⟨hcode, hcodeTidy, hsum⟩ := hotherwise
      have hpos : start + condition.size + 1 + inner.length + (body.size + jumps.toNat + tail) =
          start + (condition.size + 1 + inner.length + body.size + jumps.toNat) + tail := by
        omega
      refine ⟨?_, hcodeTidy, ?_⟩
      · rw [hinnerDef, hpos]
        exact hcode
      · omega

/-- The body of the branch that is taken. -/
theorem BranchPlaced.taken {test : Test}
    (hbranch : BranchPlaced (s.tape c) targets start stop pos condition body test pos')
    (h : Begins program w t c targets start stop fragment s)
    (hcondition : RunsAs env program c (.code condition) s .normal s₁)
    (hbody : RunsAs env program c (.code body) s₁ signal s')
    (htaken : pos = if test.jumps s₁.resval then pos' else start + condition.size + 1) :
    Realises env w t c targets stop s' signal := by
  apply hcondition.andThen h hbranch.conditionPlaced
  intro w₁ hreaches hat
  obtain ⟨n, hjump, hn⟩ := hbranch.jump
  rw [← h.at_.tape_same hreaches hat] at hjump
  obtain ⟨w₂, hreaches₂, hat₂⟩ := hat.branch env hjump hn
  rw [← htaken] at hat₂
  have hall := hreaches.trans hreaches₂
  have hbegins := h.next hall hat₂ hbranch.bodyPlaced
  have hrealised := hbody hbegins
  refine Realises.after hreaches₂ ?_
  rcases hbranch.after with rfl | ⟨m, hend, hm⟩
  · exact hrealised
  · rw [← h.at_.tape_same hall hat₂] at hend
    exact hrealised.thenGoto hat₂ hend hm

/-- What follows where the branch is not taken. -/
theorem BranchPlaced.passed {test : Test}
    (hbranch : BranchPlaced (s.tape c) targets start stop pos condition body test pos')
    (h : Begins program w t c targets start stop fragment s)
    (hcondition : RunsAs env program c (.code condition) s .normal s₁) :
    ∃ w₁, Reaches env w w₁ t c ∧
      w₁.At t c (if test.jumps s₁.resval then pos' else start + condition.size + 1) s₁ := by
  obtain ⟨w₁, hreaches, hat⟩ := hcondition (h.part hbranch.conditionPlaced)
  obtain ⟨n, hjump, hn⟩ := hbranch.jump
  rw [← h.at_.tape_same hreaches hat] at hjump
  obtain ⟨w₂, hreaches₂, hat₂⟩ := hat.branch env hjump hn
  exact ⟨w₂, hreaches.trans hreaches₂, hat₂⟩

theorem RunsAs.lastThen (hcondition : RunsAs env program c (.code condition) s .normal s₁)
    (hsome : s₁.resval.isNone = false) (hbody : RunsAs env program c (.code body) s₁ signal s') :
    RunsAs env program c (.cases (.last condition body) otherwise) s signal s' := by
  intro w t targets start stop h
  obtain ⟨pos', hbranch, -⟩ := h.last
  refine hbranch.taken h hcondition hbody ?_
  rw [Test.jumps, hsome]
  rfl

theorem RunsAs.lastNone (hcondition : RunsAs env program c (.code condition) s .normal s₁)
    (hnone : s₁.resval.isNone = true) :
    RunsAs env program c (.cases (.last condition body) none) s .normal s₁ := by
  intro w t targets start stop h
  obtain ⟨pos', hbranch, hpos⟩ := h.last
  obtain ⟨w₁, hreaches, hat⟩ := hbranch.passed h hcondition
  rw [Test.jumps, hnone] at hat
  exact ⟨w₁, hreaches, hpos ▸ hat⟩

theorem RunsAs.lastElse (hcondition : RunsAs env program c (.code condition) s .normal s₁)
    (hnone : s₁.resval.isNone = true) (helse : RunsAs env program c (.code a) s₁ signal s') :
    RunsAs env program c (.cases (.last condition body) (some a)) s signal s' := by
  intro w t targets start stop h
  obtain ⟨pos', hbranch, hplaced⟩ := h.last
  obtain ⟨w₁, hreaches, hat⟩ := hbranch.passed h hcondition
  rw [Test.jumps, hnone] at hat
  exact (helse (h.next hreaches hat hplaced)).after hreaches

theorem RunsAs.moreThen {rest : Branches}
    (hcondition : RunsAs env program c (.code condition) s .normal s₁)
    (hsome : s₁.resval.isNone = false) (hbody : RunsAs env program c (.code body) s₁ signal s') :
    RunsAs env program c (.cases (.more condition body rest) otherwise) s signal s' := by
  intro w t targets start stop h
  obtain ⟨pos', hbranch, -⟩ := h.more
  refine hbranch.taken h hcondition hbody ?_
  rw [Test.jumps, hsome]
  rfl

theorem RunsAs.moreRest {rest : Branches}
    (hcondition : RunsAs env program c (.code condition) s .normal s₁)
    (hnone : s₁.resval.isNone = true)
    (hrest : RunsAs env program c (.cases rest otherwise) s₁ signal s') :
    RunsAs env program c (.cases (.more condition body rest) otherwise) s signal s' := by
  intro w t targets start stop h
  obtain ⟨pos', hbranch, hplaced⟩ := h.more
  obtain ⟨w₁, hreaches, hat⟩ := hbranch.passed h hcondition
  rw [Test.jumps, hnone] at hat
  exact (hrest (h.next hreaches hat hplaced)).after hreaches

theorem Begins.ifThen (h : Begins program w t c targets start stop (.code (.ifThen branches)) s) :
    (Fragment.cases branches none).Placed (s.tape c) targets start stop := by
  obtain ⟨hplaced, htidy, hstop⟩ := h.placed
  refine ⟨0, 0, false, ?_, htidy, fun _ => rfl, ?_, rfl⟩
  · rwa [Code.emit] at hplaced
  · rw [hstop, Code.size, Code.emit]
    rfl

theorem RunsAs.ifThen (h : RunsAs env program c (.cases branches none) s signal s') :
    RunsAs env program c (.code (.ifThen branches)) s signal s' := by
  intro w t targets start stop hbegins
  exact h (hbegins.part hbegins.ifThen)

theorem Begins.ifElse
    (h : Begins program w t c targets start stop (.code (.ifElse branches a)) s) :
    (Fragment.cases branches (some a)).Placed (s.tape c) targets start stop := by
  obtain ⟨hplaced, htidy, hstop⟩ := h.placed
  rw [Code.emit, Placed.append_iff] at hplaced
  rw [Code.tidy, Bool.and_eq_true] at htidy
  refine ⟨0, a.size, true, hplaced.1, htidy.1, (fun hfalse => by cases hfalse), ?_, hplaced.2,
    htidy.2, (Nat.zero_add _).symm⟩
  rw [hstop, Code.size, Code.emit, List.length_append, Code.length_emit, Nat.add_assoc]

theorem RunsAs.ifElse (h : RunsAs env program c (.cases branches (some a)) s signal s') :
    RunsAs env program c (.code (.ifElse branches a)) s signal s' := by
  intro w t targets start stop hbegins
  exact h (hbegins.part hbegins.ifElse)

/-! ## Loops -/

theorem Begins.test (h : Begins program w t c targets start stop (.test loop) s) :
    (Fragment.code loop.test).Placed (s.tape c) noTargets start (loop.branchAt start) :=
  ⟨h.placed.1.test, h.placed.1.tidy.1, rfl⟩

/-- The test and the jump after it. -/
theorem Begins.tested (h : Begins program w t c targets start stop (.test loop) s)
    (htest : RunsAs env program c (.code loop.test) s .normal s₁) : ∃ w₁, Reaches env w w₁ t c ∧
      w₁.At t c (if s₁.resval.isNone then stop else loop.firstAt start) s₁ := by
  obtain ⟨hloop, hstop⟩ := h.placed
  obtain ⟨w₁, hreaches, hat⟩ := htest (h.part h.test)
  have hbranch : (s.tape c)[loop.branchAt start]? = some ⟨Test.op .IFN,
      .val (.int ((loop.exitAt start : Int) - loop.branchAt start - 1))⟩ := hloop.branch
  rw [← h.at_.tape_same hreaches hat] at hbranch
  have htarget : (stop : Int) = loop.branchAt start +
      ((loop.exitAt start : Int) - loop.branchAt start - 1 + 1) := by
    rw [hstop]
    omega
  obtain ⟨w₂, hreaches₂, hat₂⟩ := hat.branch env hbranch htarget
  exact ⟨w₂, hreaches.trans hreaches₂, hat₂⟩

theorem RunsAs.exit (htest : RunsAs env program c (.code loop.test) s .normal s₁)
    (hnone : s₁.resval.isNone = true) : RunsAs env program c (.test loop) s .normal s₁ := by
  intro w t targets start stop h
  obtain ⟨w₁, hreaches, hat⟩ := h.tested htest
  rw [hnone] at hat
  exact ⟨w₁, hreaches, hat⟩

theorem RunsAs.enter (htest : RunsAs env program c (.code loop.test) s .normal s₁)
    (hsome : s₁.resval.isNone = false) (hfirst : RunsAs env program c (.first loop) s₁ signal s') :
    RunsAs env program c (.test loop) s signal s' := by
  intro w t targets start stop h
  obtain ⟨w₁, hreaches, hat⟩ := h.tested htest
  rw [hsome] at hat
  exact (hfirst (h.next hreaches hat ⟨start, h.placed.1, rfl, h.placed.2⟩)).after hreaches

theorem RunsAs.firstNext (hinner : inner = .normal ∨ inner = .jump .continue)
    (hfirst : RunsAs env program c (.code loop.first) s inner s₁)
    (hsecond : RunsAs env program c (.second loop) s₁ signal s') :
    RunsAs env program c (.first loop) s signal s' := by
  intro w t targets start stop h
  obtain ⟨base, hloop, rfl, hstop⟩ := h.placed
  have hreached : ∃ w₁, Reaches env w w₁ t c ∧ w₁.At t c (loop.secondAt base) s₁ := by
    have hrealised := hfirst (h.part ⟨hloop.first, hloop.tidy.2.1, rfl⟩)
    rcases hinner with rfl | rfl
    · exact hrealised
    · exact hrealised _ rfl
  obtain ⟨w₁, hreaches, hat⟩ := hreached
  exact (hsecond (h.next hreaches hat ⟨base, hloop, rfl, hstop⟩)).after hreaches

theorem RunsAs.firstBreak (hfirst : RunsAs env program c (.code loop.first) s (.jump .break) s') :
    RunsAs env program c (.first loop) s .normal s' := by
  intro w t targets start stop h
  obtain ⟨base, hloop, rfl, rfl⟩ := h.placed
  exact hfirst (h.part ⟨hloop.first, hloop.tidy.2.1, rfl⟩) _ rfl

theorem RunsAs.firstReturn (hfirst : RunsAs env program c (.code loop.first) s .ret s') :
    RunsAs env program c (.first loop) s .ret s' := by
  intro w t targets start stop h
  obtain ⟨base, hloop, rfl, -⟩ := h.placed
  have hrealised := hfirst (h.part ⟨hloop.first, hloop.tidy.2.1, rfl⟩)
  exact hrealised

theorem Begins.second (h : Begins program w t c targets start stop (.second loop) s) :
    ∃ base, loop.Placed base (s.tape c) ∧ stop = loop.exitAt base ∧
      start = loop.secondAt base ∧
      (Fragment.code loop.second).Placed (s.tape c) (loop.targets base) start (loop.backAt base) := by
  obtain ⟨base, hloop, rfl, hstop⟩ := h.placed
  exact ⟨base, hloop, hstop, rfl, hloop.second, hloop.tidy.2.2, rfl⟩

theorem RunsAs.secondNext (hsecond : RunsAs env program c (.code loop.second) s .normal s₁)
    (htest : RunsAs env program c (.test loop) s₁ signal s') :
    RunsAs env program c (.second loop) s signal s' := by
  intro w t targets start stop h
  obtain ⟨base, hloop, hstop, -, hplaced⟩ := h.second
  obtain ⟨w₁, hreaches, hat⟩ := hsecond (h.part hplaced)
  have hback := hloop.back
  rw [← h.at_.tape_same hreaches hat] at hback
  have htarget : (base : Int) = loop.backAt base + ((base : Int) - loop.backAt base - 1 + 1) := by
    omega
  obtain ⟨w₂, hreaches₂, hat₂⟩ := hat.goto env hback htarget
  have hall := hreaches.trans hreaches₂
  exact (htest (h.next hall hat₂ ⟨hloop, hstop⟩)).after hall

theorem RunsAs.secondAgain
    (hsecond : RunsAs env program c (.code loop.second) s (.jump .continue) s₁)
    (hagain : RunsAs env program c (.second loop) s₁ signal s') :
    RunsAs env program c (.second loop) s signal s' := by
  intro w t targets start stop h
  obtain ⟨base, hloop, hstop, hstart, hplaced⟩ := h.second
  obtain ⟨w₁, hreaches, hat⟩ := hsecond (h.part hplaced) _ rfl
  exact (hagain (h.next hreaches hat ⟨base, hloop, rfl, hstop⟩)).after hreaches

theorem RunsAs.secondBreak
    (hsecond : RunsAs env program c (.code loop.second) s (.jump .break) s') :
    RunsAs env program c (.second loop) s .normal s' := by
  intro w t targets start stop h
  obtain ⟨base, hloop, rfl, -, hplaced⟩ := h.second
  exact hsecond (h.part hplaced) _ rfl

theorem RunsAs.secondReturn (hsecond : RunsAs env program c (.code loop.second) s .ret s') :
    RunsAs env program c (.second loop) s .ret s' := by
  intro w t targets start stop h
  obtain ⟨base, hloop, -, -, hplaced⟩ := h.second
  have hrealised := hsecond (h.part hplaced)
  exact hrealised

/-! ## Blocks -/

/-- The block of a statement, from its first instruction on. -/
theorem Begins.block (env : Env) (h : Begins program w t c targets start stop fragment s)
    (hins : (s.tape c)[start]? = some ⟨.NBLK, .noArg⟩) (henter : s.enterBlock c = some (d, s₁)) :
    ∃ w₁, EntersBlock env w w₁ t c d ∧ w₁.At t d (start + 1) s₁ ∧ program.HostedBy s₁.store ∧
      s₁.tape d = s.tape c := by
  obtain ⟨w₁, hopens, hat⟩ := h.at_.newBlock env hins henter
  exact ⟨w₁, hopens, hat, h.hosted.same (Scene.enterBlock_program henter),
    Scene.enterBlock_tape henter⟩

theorem EntersBlock.realisesReturn (hopens : EntersBlock env w w₁ t c d) (h : w.At t c start s)
    (hreaches : Reaches env w₁ w' t d) (hreturning : Returning env w' t d s') :
    Realises env w t c targets stop s' .ret := by
  have hlt : c < w.contexts.next := h.block.lt
  have hcd : c ≤ d := Nat.le_of_lt (Nat.lt_of_lt_of_le hlt hopens.fresh)
  exact ⟨w', (hopens.reaches hreaches).toReaches hlt, hreturning.mono hcd⟩

theorem EntersBlock.realisesLeave (hopens : EntersBlock env w w₁ t c d) (h : w.At t c start s)
    (hreaches : Reaches env w₁ w' t d) (hat : w'.At t d pos s')
    (hins : (s'.tape d)[pos]? = some ⟨.BBLK, .noArg⟩) (hstop : pos + 1 = stop) :
    Realises env w t c targets stop s' .normal := by
  obtain ⟨w₂, hreaches₂, hat₂⟩ := (hopens.reaches hreaches).backBlock h hat hins
  exact ⟨w₂, hreaches₂, hstop ▸ hat₂⟩

theorem Begins.loop_end (hsignal : signal = .normal ∨ signal = .ret)
    (h : Begins program w t c targets start stop fragment s)
    (hopens : EntersBlock env w w₁ t c d) (hbefore : Reaches env w₁ w' t d)
    (hat : w'.At t d pos s₁) (htape : s₁.tape d = s.tape c) (hhosted : program.HostedBy s₁.store)
    (hloop : RunsAs env program d (.test loop) s₁ signal s')
    (hplaced : loop.Placed pos (s.tape c))
    (hins : (s.tape c)[loop.exitAt pos]? = some ⟨.BBLK, .noArg⟩)
    (hstop : loop.exitAt pos + 1 = stop) : Realises env w t c targets stop s' signal := by
  have hbegins : Begins program w' t d noTargets pos (loop.exitAt pos) (.test loop) s₁ :=
    ⟨hhosted, hat, htape ▸ hplaced, rfl⟩
  have hrealised := hloop hbegins
  rcases hsignal with rfl | rfl
  · obtain ⟨w₂, hreaches₂, hat₂⟩ := hrealised
    rw [← htape, ← hat.tape_same hreaches₂ hat₂] at hins
    exact hopens.realisesLeave h.at_ (hbefore.trans hreaches₂) hat₂ hins hstop
  · obtain ⟨w₂, hreaches₂, hreturning⟩ := hrealised
    exact hopens.realisesReturn h.at_ (hbefore.trans hreaches₂) hreturning

theorem RunsAs.whileLoop (hsignal : signal = .normal ∨ signal = .ret)
    (henter : s.enterBlock c = some (d, s₁))
    (hloop : RunsAs env program d (.test (.ofWhile condition body)) s₁ signal s') :
    RunsAs env program c (.code (.whileLoop condition body)) s signal s' := by
  intro w t targets start stop h
  obtain ⟨hplaced, htidy, hstop⟩ := h.placed
  obtain ⟨hnblk, hat, hbblk, hend⟩ := whileLoop_placed hplaced htidy
  obtain ⟨w₁, hopens, hat₁, hhosted, htape⟩ := h.block env hnblk henter
  exact h.loop_end hsignal hopens (.refl env w₁ t d) hat₁ htape hhosted hloop hat hbblk
    (hend.trans hstop.symm)

theorem RunsAs.forLoop (hsignal : signal = .normal ∨ signal = .ret)
    (henter : s.enterBlock c = some (d, s₁))
    (hinit : RunsAs env program d (.code init) s₁ .normal s₂)
    (hloop : RunsAs env program d (.test (.ofFor condition inc body)) s₂ signal s') :
    RunsAs env program c (.code (.forLoop init condition inc body)) s signal s' := by
  intro w t targets start stop h
  obtain ⟨hplaced, htidy, hstop⟩ := h.placed
  obtain ⟨hnblk, hinitPlaced, hat, hbblk, hend⟩ := forLoop_placed hplaced htidy
  obtain ⟨w₁, hopens, hat₁, hhosted, htape⟩ := h.block env hnblk henter
  have hinitTidy : init.tidy = true := by
    simp only [Code.tidy, Bool.and_eq_true] at htidy
    exact htidy.1.1.1.1
  obtain ⟨w₂, hreaches, hat₂⟩ := hinit
    (show Begins program w₁ t d noTargets (start + 1) _ (.code init) s₁ from
      ⟨hhosted, hat₁, htape ▸ hinitPlaced, hinitTidy, rfl⟩)
  exact h.loop_end hsignal hopens hreaches hat₂ ((hat₁.tape_same hreaches hat₂).trans htape)
    (hhosted.same (hat₁.program_same hreaches hat₂)) hloop hat hbblk (hend.trans hstop.symm)

/-- The start of a `foreach`, up to the test of its loop. -/
theorem Begins.foreach (env : Env)
    (h : Begins program w t c targets start stop (.code (.foreachLoop iterable lhs body)) s)
    (henter : s.enterBlock c = some (d, s₁))
    (hinit : RunsAs env program d (.code (foreachInit iterable)) s₁ .normal s₂) :
    ∃ w₁ w₂, EntersBlock env w w₁ t c d ∧ Reaches env w₁ w₂ t d ∧
      Begins program w₂ t d noTargets (start + 1 + (foreachInit iterable).size)
        ((Loop.ofForeach lhs body).exitAt (start + 1 + (foreachInit iterable).size))
        (.test (.ofForeach lhs body)) s₂ ∧ s₂.tape d = s.tape c := by
  obtain ⟨hplaced, htidy, hstop⟩ := h.placed
  obtain ⟨hnblk, hinitPlaced, hloop, -, -, -⟩ := foreachLoop_placed hplaced htidy
  obtain ⟨w₁, hopens, hat₁, hhosted, htape⟩ := h.block env hnblk henter
  have hinitTidy : (foreachInit iterable).tidy = true := by
    simp only [Code.tidy, Bool.and_eq_true] at htidy
    simp only [foreachInit, HAppend.hAppend, Append.append, opCode, idCode, Code.tidy,
      htidy.1.1.1, Bool.and_self]
  have hbegins : Begins program w₁ t d noTargets (start + 1)
      (start + 1 + (foreachInit iterable).size) (.code (foreachInit iterable)) s₁ :=
    ⟨hhosted, hat₁, htape ▸ hinitPlaced, hinitTidy, rfl⟩
  obtain ⟨w₂, hreaches, hat₂⟩ := hinit hbegins
  refine ⟨w₁, w₂, hopens, hreaches, hbegins.next hreaches hat₂ ⟨?_, rfl⟩,
    (hat₁.tape_same hreaches hat₂).trans htape⟩
  rw [htape]
  exact hloop

theorem RunsAs.foreachDone (henter : s.enterBlock c = some (d, s₁))
    (hinit : RunsAs env program d (.code (foreachInit iterable)) s₁ .normal s₂)
    (hloop : RunsAs env program d (.test (.ofForeach lhs body)) s₂ .normal s₃)
    (hres : RunsAs env program d (.code (opCode .RES)) s₃ .normal s') :
    RunsAs env program c (.code (.foreachLoop iterable lhs body)) s .normal s' := by
  intro w t targets start stop h
  obtain ⟨-, -, -, hresPlaced, hbblk, hend⟩ := foreachLoop_placed h.placed.1 h.placed.2.1
  obtain ⟨w₁, w₂, hopens, hreaches₁, hbegins, htape⟩ := h.foreach env henter hinit
  obtain ⟨w₃, hreaches₂, hat₃⟩ := hloop hbegins
  have hresCode : (Fragment.code (opCode .RES)).Placed (s₂.tape d) noTargets
      ((Loop.ofForeach lhs body).exitAt (start + 1 + (foreachInit iterable).size))
      ((Loop.ofForeach lhs body).exitAt (start + 1 + (foreachInit iterable).size) + 1) := by
    rw [htape]
    exact ⟨Placed.cons_iff.mpr ⟨hresPlaced, .nil⟩, rfl, rfl⟩
  obtain ⟨w₄, hreaches₃, hat₄⟩ := hres (hbegins.next hreaches₂ hat₃ hresCode)
  have hall := hreaches₂.trans hreaches₃
  rw [← htape, ← hbegins.at_.tape_same hall hat₄] at hbblk
  exact hopens.realisesLeave h.at_ (hreaches₁.trans hall) hat₄ hbblk
    (hend.trans h.placed.2.2.symm)

theorem RunsAs.foreachReturn (henter : s.enterBlock c = some (d, s₁))
    (hinit : RunsAs env program d (.code (foreachInit iterable)) s₁ .normal s₂)
    (hloop : RunsAs env program d (.test (.ofForeach lhs body)) s₂ .ret s') :
    RunsAs env program c (.code (.foreachLoop iterable lhs body)) s .ret s' := by
  intro w t targets start stop h
  obtain ⟨w₁, w₂, hopens, hreaches₁, hbegins, -⟩ := h.foreach env henter hinit
  obtain ⟨w₃, hreaches₂, hreturning⟩ := hloop hbegins
  exact hopens.realisesReturn h.at_ (hreaches₁.trans hreaches₂) hreturning

theorem tryCatch_placed {tape : List Instruction} {base : Nat}
    (h : Placed tape targets base (Code.tryCatch body assign handler).emit)
    (htidy : (Code.tryCatch body assign handler).tidy = true) : ∃ n : Int,
    tape[base]? = some ⟨.NBLK, .noArg⟩ ∧ tape[base + 1]? = some ⟨.CTCH, .val (.int n)⟩ ∧
      (Fragment.code body).Placed tape targets (base + 2) (base + 2 + body.size) ∧
      tape[base + 2 + body.size]? = some ⟨.JMP, .val (.int (assign.size + handler.size))⟩ ∧
      (Fragment.code afterTry).Placed tape targets
        (base + 3 + body.size + assign.size + handler.size)
        (base + 5 + body.size + assign.size + handler.size) ∧
      tape[base + 5 + body.size + assign.size + handler.size]? = some ⟨.BBLK, .noArg⟩ ∧
      base + 5 + body.size + assign.size + handler.size + 1 =
        base + (Code.tryCatch body assign handler).size := by
  simp only [Code.tidy, Bool.and_eq_true] at htidy
  have hitems : (Code.tryCatch body assign handler).emit = .op .NBLK ::
      .jump .CTCH (body.size + 1) :: (body.emit ++ (.jump .JMP (assign.size + handler.size) ::
        (assign.emit ++ (handler.emit ++ (afterTry.emit ++ [.op .BBLK]))))) := by
    rw [Code.emit]
    simp [afterTry, Code.emit, opCode, idCode, Item.op, Item.named, Item.plain, Code.size]
  have hafter : afterTry.emit.length = 2 := rfl
  have hsize : (Code.tryCatch body assign handler).size =
      body.size + assign.size + handler.size + 6 := by
    rw [Code.size, hitems]
    simp only [List.length_cons, List.length_append, List.length_nil, hafter, Code.length_emit]
    omega
  rw [hitems, Placed.cons_iff, Placed.cons_iff, Placed.append_iff, Placed.cons_iff,
    Placed.append_iff, Placed.append_iff, Placed.append_iff, Placed.cons_iff] at h
  simp only [Code.length_emit, hafter] at h
  obtain ⟨hnblk, hctch, hbody, hjump, -, -, hend, hbblk, -⟩ := h
  have hendAt : base + 1 + 1 + body.size + 1 + assign.size + handler.size =
      base + 3 + body.size + assign.size + handler.size := by omega
  have hbblkAt : base + 1 + 1 + body.size + 1 + assign.size + handler.size + 2 =
      base + 5 + body.size + assign.size + handler.size := by omega
  rw [hendAt] at hend
  rw [hbblkAt] at hbblk
  refine ⟨_, hnblk, hctch, ⟨hbody, htidy.1.1, rfl⟩, hjump, ⟨hend, rfl, ?_⟩, hbblk, ?_⟩
  · have hafter' : afterTry.size = 2 := rfl
    omega
  · omega

/-- The start of a `try`, up to its body. -/
theorem Begins.try (env : Env)
    (h : Begins program w t c targets start stop (.code (.tryCatch body assign handler)) s)
    (henter : s.enterBlock c = some (d, s₁)) :
    ∃ w₁, EntersBlock env w w₁ t c d ∧ s₁.tape d = s.tape c ∧
      Begins program w₁ t d targets (start + 2) (start + 2 + body.size) (.code body) s₁ := by
  obtain ⟨n, hnblk, hctch, hbody, -, -, -, -⟩ := tryCatch_placed h.placed.1 h.placed.2.1
  obtain ⟨w₁, hopens, hat₁, hhosted, htape⟩ := h.block env hnblk henter
  rw [← htape] at hctch
  obtain ⟨w₂, hopens₂, hat₂⟩ := hopens.setCatch hat₁ hctch
  exact ⟨w₂, hopens₂, htape, hhosted, hat₂, htape ▸ hbody⟩

theorem RunsAs.tryDone (henter : s.enterBlock c = some (d, s₁))
    (hbody : RunsAs env program d (.code body) s₁ .normal s₂)
    (hafter : RunsAs env program d (.code afterTry) s₂ .normal s') :
    RunsAs env program c (.code (.tryCatch body assign handler)) s .normal s' := by
  intro w t targets start stop h
  obtain ⟨n, -, -, -, hjump, hafterPlaced, hbblk, hend⟩ :=
    tryCatch_placed h.placed.1 h.placed.2.1
  obtain ⟨w₁, hopens, htape, hbegins⟩ := h.try env henter
  obtain ⟨w₂, hreaches₂, hat₂⟩ := hbody hbegins
  rw [← htape, ← hbegins.at_.tape_same hreaches₂ hat₂] at hjump
  have htarget : ((start + 3 + body.size + assign.size + handler.size : Nat) : Int) =
      (start + 2 + body.size : Nat) + ((assign.size : Int) + handler.size + 1) := by
    push_cast
    omega
  obtain ⟨w₃, hreaches₃, hat₃⟩ := hat₂.goto env hjump htarget
  have hbody₃ := hreaches₂.trans hreaches₃
  rw [← htape] at hafterPlaced
  obtain ⟨w₄, hreaches₄, hat₄⟩ := hafter (hbegins.next hbody₃ hat₃ hafterPlaced)
  have hall := hbody₃.trans hreaches₄
  rw [← htape, ← hbegins.at_.tape_same hall hat₄] at hbblk
  exact hopens.realisesLeave h.at_ hall hat₄ hbblk (hend.trans h.placed.2.2.symm)

theorem RunsAs.tryReturn (henter : s.enterBlock c = some (d, s₁))
    (hbody : RunsAs env program d (.code body) s₁ .ret s') :
    RunsAs env program c (.code (.tryCatch body assign handler)) s .ret s' := by
  intro w t targets start stop h
  obtain ⟨w₁, hopens, -, hbegins⟩ := h.try env henter
  obtain ⟨w₂, hreaches, hreturning⟩ := hbody hbegins
  exact hopens.realisesReturn h.at_ hreaches hreturning

end

/-! ## All structured code -/

/-- Whatever a fragment does, the machine does. -/
theorem Exec.sound {env : Env} {program : Program} {c : ContextId} {fragment : Fragment}
    {s s' : Scene} {signal : Signal} (h : Exec env program c fragment s signal s') :
    RunsAs env program c fragment s signal s' := by
  induction h with
  | nil => exact RunsAs.nil
  | plain hdoes => exact RunsAs.plain hdoes
  | call hdoes hsync hbody henter _ ih => exact RunsAs.call hdoes hsync hbody henter ih
  | complete hdoes => exact RunsAs.complete hdoes
  | brk => exact RunsAs.brk
  | seq _ _ iha ihb => exact RunsAs.seq iha ihb
  | seqStop hne _ ih => exact RunsAs.seqStop hne ih
  | skipOver hjumps => exact RunsAs.skipOver hjumps
  | skipInto hjumps _ ih => exact RunsAs.skipInto hjumps ih
  | choiceFirst hjumps _ ih => exact RunsAs.choiceFirst hjumps ih
  | choiceSecond hjumps _ ih => exact RunsAs.choiceSecond hjumps ih
  | ifThen _ ih => exact RunsAs.ifThen ih
  | ifElse _ ih => exact RunsAs.ifElse ih
  | lastThen _ hsome _ ihc ihb => exact RunsAs.lastThen ihc hsome ihb
  | lastNone _ hnone ihc => exact RunsAs.lastNone ihc hnone
  | lastElse _ hnone _ ihc ihe => exact RunsAs.lastElse ihc hnone ihe
  | moreThen _ hsome _ ihc ihb => exact RunsAs.moreThen ihc hsome ihb
  | moreRest _ hnone _ ihc ihr => exact RunsAs.moreRest ihc hnone ihr
  | func => exact RunsAs.func
  | tryDone henter _ _ ihb iha => exact RunsAs.tryDone henter ihb iha
  | tryReturn henter _ ih => exact RunsAs.tryReturn henter ih
  | whileLoop henter hloop ih => exact RunsAs.whileLoop (hloop.loop_signal rfl) henter ih
  | forLoop henter _ hloop ihi ih => exact RunsAs.forLoop (hloop.loop_signal rfl) henter ihi ih
  | foreachDone henter _ _ _ ihi ihl ihr => exact RunsAs.foreachDone henter ihi ihl ihr
  | foreachReturn henter _ _ ihi ihl => exact RunsAs.foreachReturn henter ihi ihl
  | exit _ hnone iht => exact RunsAs.exit iht hnone
  | enter _ hsome _ iht ihf => exact RunsAs.enter iht hsome ihf
  | firstNext hinner _ _ ihf ihs => exact RunsAs.firstNext hinner ihf ihs
  | firstBreak _ ih => exact RunsAs.firstBreak ih
  | firstReturn _ ih => exact RunsAs.firstReturn ih
  | secondNext _ _ ihs iht => exact RunsAs.secondNext ihs iht
  | secondAgain _ _ ihs iha => exact RunsAs.secondAgain ihs iha
  | secondBreak _ ih => exact RunsAs.secondBreak ih
  | secondReturn _ ih => exact RunsAs.secondReturn ih

end JeffVm
