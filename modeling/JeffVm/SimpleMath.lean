import JeffVm.Resolve
import JeffVm.Site

/-!
# The operand of an operation

`optimizer_SimpleMath` makes the second operand of an operation its argument and the first one
the result value. The ten operations have a path for each place their operands may be in; those
of `EQ` differ.
-/

set_option autoImplicit false

namespace JeffVm

open Editing

/-! ## What the pass does -/

/-- The pass rewrites the three instructions from index `i` on. -/
structure FoldsMath (tape : List Instruction) (i : Nat) (first second third : Instruction) :
    Prop where
  first_at : tape[i]? = some first
  second_at : tape[i + 1]? = some second
  third_at : tape[i + 2]? = some third
  first_op : first.op = .PUSH
  second_op : second.op = .PUSH
  third_op : third.op.isMathOp = true
  operand : (second.arg.isPrimitive || second.arg.isId) = true
  no_goto : hasGoto tape (i + 2) = false ∧ hasGoto tape (i + 1) = false

theorem mem_optimizerSimpleMath {tape : List Instruction} {j : Nat} {a : Adjustment} :
    (j, a) ∈ optimizerSimpleMath tape ↔ ∃ i first second third,
      FoldsMath tape i first second third ∧
        ((j, a) = (i, if first.isNoArg then .remove else .setOp .RES) ∨
          (j, a) = (i + 1, .setOp third.op) ∨ (j, a) = (i + 2, .remove)) := by
  unfold optimizerSimpleMath
  rw [mem_tripleRounds]
  constructor
  · rintro ⟨i, first, second, third, hfirst, hsecond, hthird, hround⟩
    have hsub₂ : 2 + i - 2 = i := by omega
    have hsub₁ : 2 + i - 1 = i + 1 := by omega
    have hsub : 2 + i = i + 2 := Nat.add_comm 2 i
    split at hround
    · rename_i hc
      simp only [Bool.and_eq_true, Bool.not_eq_true', hsub, beq_iff_eq] at hc
      obtain ⟨⟨⟨⟨⟨hpush, hpush'⟩, hmath⟩, harg⟩, hgoto⟩, hgoto'⟩ := hc
      rw [hsub₂, hsub₁, hsub] at hround
      refine ⟨i, first, second, third, ⟨hfirst, hsecond, hthird, hpush, hpush', hmath, harg,
        hgoto, hgoto'⟩, ?_⟩
      simpa using hround
    · cases hround
  · rintro ⟨i, first, second, third, hfolds, hround⟩
    refine ⟨i, first, second, third, hfolds.first_at, hfolds.second_at, hfolds.third_at, ?_⟩
    have hsub₂ : 2 + i - 2 = i := by omega
    have hsub₁ : 2 + i - 1 = i + 1 := by omega
    have hsub : 2 + i = i + 2 := Nat.add_comm 2 i
    rw [if_pos]
    · rw [hsub₂, hsub₁, hsub]
      simpa using hround
    · simp [hsub, hfolds.first_op, hfolds.second_op, hfolds.third_op, hfolds.operand,
        hfolds.no_goto]

theorem isMathOp_ne_push {op : Op} (h : op.isMathOp = true) : op ≠ .PUSH := by
  rintro rfl
  cases h

namespace FoldsMath

variable {tape : List Instruction} {i i' : Nat} {first second third : Instruction}
variable {first' second' third' : Instruction}

/-- Two occurrences do not overlap, since the last instruction is not `PUSH`. -/
theorem eq_of_overlap (h : FoldsMath tape i first second third)
    (h' : FoldsMath tape i' first' second' third') (hle : i ≤ i') (hlt : i' ≤ i + 2) :
    i' = i := by
  have hne := isMathOp_ne_push h.third_op
  obtain rfl | rfl | rfl : i' = i ∨ i' = i + 1 ∨ i' = i + 2 := by omega
  · rfl
  · have heq := Option.some.inj (h.third_at.symm.trans h'.second_at)
    exact absurd (heq ▸ h'.second_op) hne
  · have heq := Option.some.inj (h.third_at.symm.trans h'.first_at)
    exact absurd (heq ▸ h'.first_op) hne

/-- The adjustments of the three instructions come from one round. -/
theorem round_eq (h : FoldsMath tape i first second third) {k : Nat} (hk : k ≤ 2)
    {a : Adjustment} (hmem : (i + k, a) ∈ optimizerSimpleMath tape) :
    (i + k, a) = (i, if first.isNoArg then .remove else .setOp .RES) ∨
      (i + k, a) = (i + 1, .setOp third.op) ∨ (i + k, a) = (i + 2, .remove) := by
  obtain ⟨i', first', second', third', h', hround⟩ := mem_optimizerSimpleMath.mp hmem
  have hi : i' = i := by
    have hat : i + k = i' ∨ i + k = i' + 1 ∨ i + k = i' + 2 := by
      rcases hround with heq | heq | heq
      · exact .inl (congrArg Prod.fst heq)
      · exact .inr (.inl (congrArg Prod.fst heq))
      · exact .inr (.inr (congrArg Prod.fst heq))
    by_cases hle : i ≤ i'
    · exact eq_of_overlap h h' hle (by omega)
    · exact (eq_of_overlap h' h (by omega) (by omega)).symm
  subst hi
  have hfirst := Option.some.inj (h.first_at.symm.trans h'.first_at)
  have hthird := Option.some.inj (h.third_at.symm.trans h'.third_at)
  rw [hfirst, hthird]
  exact hround

theorem lookups (h : FoldsMath tape i first second third) :
    (optimizerSimpleMath tape).lookup i =
        some (if first.isNoArg then .remove else .setOp .RES) ∧
      (optimizerSimpleMath tape).lookup (i + 1) = some (.setOp third.op) ∧
      (optimizerSimpleMath tape).lookup (i + 2) = some .remove := by
  refine ⟨?_, ?_, ?_⟩
  · apply Adjustments.lookup_of_unique
    · exact mem_optimizerSimpleMath.mpr ⟨i, first, second, third, h, .inl rfl⟩
    · intro a' ha'
      rcases h.round_eq (Nat.zero_le 2) ha' with heq | heq | heq
      · exact congrArg Prod.snd heq
      · have hfst : i + 0 = i + 1 := congrArg Prod.fst heq
        omega
      · have hfst : i + 0 = i + 2 := congrArg Prod.fst heq
        omega
  · apply Adjustments.lookup_of_unique
    · exact mem_optimizerSimpleMath.mpr ⟨i, first, second, third, h, .inr (.inl rfl)⟩
    · intro a' ha'
      rcases h.round_eq (Nat.le_succ 1) ha' with heq | heq | heq
      · have hfst : i + 1 = i := congrArg Prod.fst heq
        omega
      · exact congrArg Prod.snd heq
      · have hfst : i + 1 = i + 2 := congrArg Prod.fst heq
        omega
  · apply Adjustments.lookup_of_unique
    · exact mem_optimizerSimpleMath.mpr ⟨i, first, second, third, h, .inr (.inr rfl)⟩
    · intro a' ha'
      rcases h.round_eq (Nat.le_refl 2) ha' with heq | heq | heq
      · have hfst : i + 2 = i := congrArg Prod.fst heq
        omega
      · have hfst : i + 2 = i + 1 := congrArg Prod.fst heq
        omega
      · exact congrArg Prod.snd heq

/-- What is left of the three instructions. -/
theorem edited_eq (h : FoldsMath tape i first second third) :
    (edited (optimizerSimpleMath tape).edit i [first, second, third]).map Prod.snd =
      (if first.isNoArg then [] else [⟨.RES, first.arg⟩]) ++ [⟨third.op, second.arg⟩] := by
  obtain ⟨hfirst, hsecond, hthird⟩ := h.lookups
  have hedit₁ : (optimizerSimpleMath tape).edit (i + 1) second =
      some ⟨third.op, second.arg⟩ := by
    rw [Adjustments.edit, hsecond]
    rfl
  have hedit₂ : (optimizerSimpleMath tape).edit (i + 1 + 1) third = none :=
    Adjustments.edit_eq_none.mpr hthird
  by_cases hnoArg : first.isNoArg = true
  · rw [if_pos hnoArg] at hfirst
    rw [if_pos hnoArg, edited_cons_none (Adjustments.edit_eq_none.mpr hfirst),
      edited_cons_some hedit₁, edited_cons_none hedit₂]
    rfl
  · rw [if_neg hnoArg] at hfirst
    have hedit₀ : (optimizerSimpleMath tape).edit i first = some ⟨.RES, first.arg⟩ := by
      rw [Adjustments.edit, hfirst]
      rfl
    rw [if_neg hnoArg, edited_cons_some hedit₀, edited_cons_some hedit₁,
      edited_cons_none hedit₂]
    rfl

end FoldsMath

/-! ## Executing the instructions -/

/-- The instructions executed one after the other, up to the first that does not just let the
task go on. -/
def executeEach (env : Env) (t : TaskId) (c : ContextId) : World → List Instruction → Option Effect
  | w, [] => some (.next (w.frame t))
  | w, ins :: rest =>
    match execute env w t c ins with
    | some (.next f) => executeEach env t c ((w.setFrame t f).incIns c) rest
    | effect => effect

/-- Both go on with the same stack, result value and heap, both raise an error, or both are
undefined. -/
inductive SameOutcome : Option Effect → Option Effect → Prop
  | next (f : Frame) : SameOutcome (some (.next f)) (some (.next f))
  | raise (f f' : Frame) (err err' : ObjectId) :
      SameOutcome (some (.raise f err)) (some (.raise f' err'))
  | undefined : SameOutcome none none

/-- The value of the operand of `PUSH`, and what the lookup leaves. -/
def Frame.operand (f : Frame) (cs : Contexts) (c : ContextId) : Arg → Entity × Frame
  | .noArg => (f.resval, f)
  | .id id => f.lookupOrNone cs c id
  | .val val => (.prim val, f)
  | .str str => f.string str

/-- An identifier has a value. -/
def Frame.Bound (f : Frame) (cs : Contexts) (c : ContextId) : Arg → Prop
  | .id id => (f.lookup cs c id).1.isSome
  | _ => True

/-- The world after `PUSH`. -/
def World.afterPush (w : World) (t : TaskId) (c : ContextId) (arg : Arg) : World :=
  let (e, f) := (w.frame t).operand w.contexts c arg
  (w.setFrame t (f.push e)).incIns c

/-- The paths of `EQ` differ before an operation on the two uppermost values: `EQ` with an
identifier compares with a primitive that is never set, and only `EQ` without an operand calls
`__eq__`. A native method may still raise an error, as the other paths do for every object. -/
def EqDiffers (env : Env) (t : TaskId) (c : ContextId) (arg : Arg) (w : World) : Prop :=
  match (w.frame t).stack with
  | second :: .prim _ :: _ => arg.isId = true ∧ ∃ p, second = .prim p
  | second :: .obj o :: rest =>
    ∃ func, w.store.classGetFunction (w.store.cls o) (equalityKey .EQ) = some func ∧
      ∀ f err, callFunctionBase env w t c ⟨w.store, second, rest⟩ func o (some c) ≠
        some (.raise f err)
  | _ => False

theorem contextLookup_congr {cs cs' : Contexts} (s : Store)
    (h : ∀ d, (cs'.context d).memberObj = (cs.context d).memberObj ∧
      (cs'.context d).self = (cs.context d).self ∧ (cs'.context d).module = (cs.context d).module ∧
        (cs'.context d).previous = (cs.context d).previous) (c : ContextId) (id : String) :
    contextLookup s cs' c id = contextLookup s cs c id := by
  have hmember : (fun p => s.get (cs'.context p).memberObj id) =
      fun p => s.get (cs.context p).memberObj id := by
    funext p
    rw [(h p).1]
  have hchain : cs'.chain? (cs'.context c).previous = cs.chain? (cs.context c).previous := by
    rw [(h c).2.2.2]
    cases (cs.context c).previous with
    | none => rfl
    | some p => exact Contexts.chain_congr fun d _ => (h d).2.2.2
  unfold contextLookup
  simp only [hmember, hchain, (h c).1, (h c).2.1, (h c).2.2.1]

theorem contextLookup_incIns (s : Store) (w : World) (c d : ContextId) (id : String) :
    contextLookup s (w.incIns c).contexts d id = contextLookup s w.contexts d id := by
  apply contextLookup_congr
  intro p
  by_cases hp : p = c
  · subst hp
    simp [World.incIns, World.modifyContext]
  · simp [World.incIns, World.modifyContext, hp]

section

variable (env : Env) (t : TaskId) (c : ContextId) (w : World)

theorem executeEach_next {ins : Instruction} {f : Frame} (rest : List Instruction)
    (h : execute env w t c ins = some (.next f)) : executeEach env t c w (ins :: rest) =
      executeEach env t c ((w.setFrame t f).incIns c) rest := by
  rw [executeEach, h]

theorem frame_step (f : Frame) : ((w.setFrame t f).incIns c).frame t = f :=
  World.frame_setFrame w t f

theorem executeEach_single (ins : Instruction) :
    executeEach env t c w [ins] = execute env w t c ins := by
  unfold executeEach
  cases execute env w t c ins with
  | none => rfl
  | some effect =>
    cases effect with
    | next f =>
      show some (Effect.next (((w.setFrame t f).incIns c).frame t)) = some (.next f)
      rw [frame_step]
    | _ => rfl

theorem execute_push (arg : Arg) : execute env w t c ⟨.PUSH, arg⟩ =
    some (.next (((w.frame t).operand w.contexts c arg).2.push
      ((w.frame t).operand w.contexts c arg).1)) := by
  cases arg <;> rfl

theorem execute_res {arg : Arg} (h : arg ≠ .noArg) : execute env w t c ⟨.RES, arg⟩ =
    some (.next (((w.frame t).operand w.contexts c arg).2.withResval
      ((w.frame t).operand w.contexts c arg).1)) := by
  cases arg with
  | noArg => exact absurd rfl h
  | _ => rfl

end

theorem executeEach_push (env : Env) (t : TaskId) (c : ContextId) (w : World) (arg : Arg)
    (rest : List Instruction) : executeEach env t c w (⟨.PUSH, arg⟩ :: rest) =
      executeEach env t c (w.afterPush t c arg) rest :=
  executeEach_next env t c w rest (execute_push env t c w arg)

theorem frame_afterPush {w : World} {t : TaskId} {c : ContextId} {arg : Arg} {e : Entity}
    {f : Frame} (h : (w.frame t).operand w.contexts c arg = (e, f)) :
    (w.afterPush t c arg).frame t = f.push e := by
  unfold World.afterPush
  rw [h]
  exact frame_step t c w (f.push e)

theorem lookup_afterPush (s : Store) (w : World) (t : TaskId) (c : ContextId) (arg : Arg)
    (id : String) : contextLookup s (w.afterPush t c arg).contexts c id =
      contextLookup s w.contexts c id :=
  contextLookup_incIns s (w.setFrame t _) c c id

/-- The second operand is `u`, a constant or the value of an identifier. -/
inductive Reads (s : Store) (cs : Contexts) (c : ContextId) : Arg → Entity → Store → Prop
  | val (val : Primitive) : Reads s cs c (.val val) (.prim val) s
  | id {id : String} {u : Entity} {s' : Store} (h : contextLookup s cs c id = (some u, s')) :
      Reads s cs c (.id id) u s'

section

variable {env : Env} {t : TaskId} {c : ContextId} {w w' : World} {s s' : Store} {r u v : Entity}
variable {stack : List Entity} {arg : Arg} {op : Op}

theorem execute_mathOp (h : op.isMathOp = true) (hne : op ≠ .EQ) :
    execute env w t c ⟨op, arg⟩ = executePrimitive w t c op arg (w.frame t) := by
  cases op with
  | EQ => exact absurd rfl hne
  | ADD => rfl
  | SUB => rfl
  | DIV => rfl
  | MULT => rfl
  | MOD => rfl
  | LT => rfl
  | LTE => rfl
  | GTE => rfl
  | GT => rfl
  | _ => cases h

theorem sameOutcome_map (o : Option Entity) (f : Entity → Frame) :
    SameOutcome (o.map fun e => .next (f e)) (o.map fun e => .next (f e)) := by
  cases o with
  | none => exact .undefined
  | some e => exact .next (f e)

/-- The paths of the arithmetic and the comparisons agree. -/
theorem sameOutcome_primitive (h : op.isMathOp = true) (hne : op ≠ .EQ)
    (hframe : w.frame t = ⟨s', r, u :: v :: stack⟩) (hframe' : w'.frame t = ⟨s, v, stack⟩)
    (hreads : Reads s w'.contexts c arg u s') :
    SameOutcome (execute env w t c ⟨op, .noArg⟩) (execute env w' t c ⟨op, arg⟩) := by
  rw [execute_mathOp h hne, execute_mathOp h hne, hframe, hframe']
  unfold executePrimitive raiseError
  cases hreads with
  | val p =>
    cases v with
    | prim q => exact sameOutcome_map _ _
    | none => exact .raise ..
    | obj o => exact .raise ..
  | id hlookup =>
    cases v with
    | prim q =>
      cases u with
      | prim p =>
        simp only [Frame.pop, Frame.lookup, hlookup]
        exact sameOutcome_map _ _
      | none =>
        simp only [Frame.pop, Frame.lookup, hlookup]
        exact .raise ..
      | obj o =>
        simp only [Frame.pop, Frame.lookup, hlookup]
        exact .raise ..
    | none => cases u <;> exact .raise ..
    | obj o => cases u <;> exact .raise ..

/-- Where `EQ` reads an identifier, and both values are primitives, it is undefined. -/
theorem sameOutcome_eq_iff (hframe : w.frame t = ⟨s', r, u :: v :: stack⟩)
    (hframe' : w'.frame t = ⟨s, v, stack⟩) (hreads : Reads s w'.contexts c arg u s') :
    SameOutcome (execute env w t c ⟨.EQ, .noArg⟩) (execute env w' t c ⟨.EQ, arg⟩) ↔
      ¬ EqDiffers env t c arg w := by
  have hstore : w.store = s' := congrArg Frame.store hframe
  have hgeneral : execute env w t c ⟨.EQ, .noArg⟩ =
      executeEQ env w t c .EQ .noArg ⟨s', r, u :: v :: stack⟩ := by
    rw [← hframe]
    rfl
  have hfast : execute env w' t c ⟨.EQ, arg⟩ = executeEQ env w' t c .EQ arg ⟨s, v, stack⟩ := by
    rw [← hframe']
    rfl
  rw [hgeneral, hfast, EqDiffers, hframe, hstore]
  cases v with
  | none =>
    have hnone : SameOutcome (executeEQ env w t c .EQ .noArg ⟨s', r, u :: .none :: stack⟩)
        (executeEQ env w' t c .EQ arg ⟨s, .none, stack⟩) := by
      cases hreads with
      | val p => exact .raise ..
      | id hlookup => cases u <;> exact .raise ..
    simpa using hnone
  | prim q =>
    cases hreads with
    | val p =>
      have hsame : SameOutcome (executeEQ env w t c .EQ .noArg ⟨s, r, .prim p :: .prim q :: stack⟩)
          (executeEQ env w' t c .EQ (.val p) ⟨s, .prim q, stack⟩) := .next _
      simpa [Arg.isId] using hsame
    | @id id _ _ hlookup =>
      cases u with
      | prim p =>
        have hfast : executeEQ env w' t c .EQ (.id id) ⟨s, .prim q, stack⟩ = none := by
          simp only [executeEQ, Frame.lookup, hlookup]
        rw [hfast]
        refine iff_of_false nofun (not_not.mpr ⟨rfl, p, rfl⟩)
      | none =>
        have hsame : SameOutcome
            (executeEQ env w t c .EQ .noArg ⟨s', r, .none :: .prim q :: stack⟩)
            (executeEQ env w' t c .EQ (.id id) ⟨s, .prim q, stack⟩) := by
          simp only [executeEQ, Frame.lookup, hlookup]
          exact .raise ..
        exact iff_of_true hsame fun ⟨_, _, hp⟩ => nomatch hp
      | obj o =>
        have hsame : SameOutcome
            (executeEQ env w t c .EQ .noArg ⟨s', r, .obj o :: .prim q :: stack⟩)
            (executeEQ env w' t c .EQ (.id id) ⟨s, .prim q, stack⟩) := by
          simp only [executeEQ, Frame.lookup, hlookup]
          exact .raise ..
        exact iff_of_true hsame fun ⟨_, _, hp⟩ => nomatch hp
  | obj o =>
    obtain ⟨f', err, hraise⟩ : ∃ f' err, executeEQ env w' t c .EQ arg ⟨s, .obj o, stack⟩ =
        some (.raise f' err) := by
      cases hreads <;> exact ⟨_, _, rfl⟩
    rw [hraise]
    cases hfunc : s'.classGetFunction (s'.cls o) (equalityKey .EQ) with
    | none =>
      have hsame : SameOutcome (executeEQ env w t c .EQ .noArg ⟨s', r, u :: .obj o :: stack⟩)
          (some (.raise f' err)) := by
        simp only [executeEQ, hfunc]
        cases u <;> exact .raise ..
      refine iff_of_true hsame ?_
      rintro ⟨func, hfound, -⟩
      rw [hfunc] at hfound
      cases hfound
    | some func =>
      have hcall : executeEQ env w t c .EQ .noArg ⟨s', r, u :: .obj o :: stack⟩ =
          callFunctionBase env w t c ⟨s', u, stack⟩ func o (some c) := by
        simp only [executeEQ, hfunc, Frame.withResval]
      rw [hcall]
      constructor
      · rintro hsame ⟨func', hfound, hne⟩
        obtain rfl := Option.some.inj (hfunc.symm.trans hfound)
        generalize hresult : callFunctionBase env w t c ⟨s', u, stack⟩ func o (some c) = e at hsame
        cases hsame
        exact hne _ _ hresult
      · intro hnot
        by_contra hsame
        apply hnot
        refine ⟨func, hfunc, fun f err hresult => hsame ?_⟩
        rw [hresult]
        exact .raise ..

end

/-- The pass exchanges the paths: the operation reads its second operand itself. The outcome is
the same just when the paths of `EQ` do not differ. -/
theorem simpleMath_preserves_iff (env : Env) (w : World) (t : TaskId) (c : ContextId)
    {tape : List Instruction} {i : Nat} {x y : Arg} {op : Op}
    (h : FoldsMath tape i ⟨.PUSH, x⟩ ⟨.PUSH, y⟩ ⟨op, .noArg⟩)
    (hbound : ((w.afterPush t c x).frame t).Bound (w.afterPush t c x).contexts c y) :
    SameOutcome (executeEach env t c w [⟨.PUSH, x⟩, ⟨.PUSH, y⟩, ⟨op, .noArg⟩])
      (executeEach env t c w ((edited (optimizerSimpleMath tape).edit i
        [⟨.PUSH, x⟩, ⟨.PUSH, y⟩, ⟨op, .noArg⟩]).map Prod.snd)) ↔
      ¬ (op = .EQ ∧ EqDiffers env t c y ((w.afterPush t c x).afterPush t c y)) := by
  rw [h.edited_eq, executeEach_push, executeEach_push, executeEach_single]
  obtain ⟨v, s, r, stack, hoperand⟩ : ∃ v s r stack,
      (w.frame t).operand w.contexts c x = (v, ⟨s, r, stack⟩) := ⟨_, _, _, _, rfl⟩
  have hpushed := frame_afterPush hoperand
  obtain ⟨u, s', hframe, hreads⟩ : ∃ u s', ((w.afterPush t c x).afterPush t c y).frame t =
      ⟨s', r, u :: v :: stack⟩ ∧ Reads s w.contexts c y u s' := by
    rw [hpushed] at hbound
    cases y with
    | val p =>
      refine ⟨.prim p, s, frame_afterPush (f := ⟨s, r, v :: stack⟩) ?_, .val p⟩
      rw [hpushed]
      rfl
    | id id =>
      have hlookup := lookup_afterPush s w t c x id
      obtain ⟨u, hu⟩ := Option.isSome_iff_exists.mp hbound
      have hfound : contextLookup s (w.afterPush t c x).contexts c id =
          (some u, (contextLookup s (w.afterPush t c x).contexts c id).2) := Prod.ext hu rfl
      refine ⟨u, (contextLookup s (w.afterPush t c x).contexts c id).2,
        frame_afterPush (f := ⟨_, r, v :: stack⟩) ?_, .id ?_⟩
      · rw [hpushed]
        unfold Frame.operand Frame.lookupOrNone Frame.lookup
        simp only [Frame.push]
        rw [hfound]
        rfl
      · rw [← hlookup]
        exact hfound
    | noArg => cases h.operand
    | str str => cases h.operand
  obtain ⟨w', heach, hframe', hreads'⟩ : ∃ w', executeEach env t c w
      ((if (⟨.PUSH, x⟩ : Instruction).isNoArg then [] else [⟨.RES, x⟩]) ++ [⟨op, y⟩]) =
        execute env w' t c ⟨op, y⟩ ∧ w'.frame t = ⟨s, v, stack⟩ ∧
          Reads s w'.contexts c y u s' := by
    by_cases hx : x = .noArg
    · subst hx
      have hsame : w.frame t = ⟨s, v, stack⟩ := by
        obtain ⟨hv, hf⟩ := Prod.mk.inj hoperand
        rw [← hv, hf]
      exact ⟨w, executeEach_single env t c w _, hsame, hreads⟩
    · have hnoArg : (⟨.PUSH, x⟩ : Instruction).isNoArg = false := by
        simpa [Instruction.isNoArg] using hx
      have hres := execute_res env t c w hx
      rw [hoperand] at hres
      rw [hnoArg, if_neg Bool.false_ne_true, List.singleton_append,
        executeEach_next env t c w _ hres, executeEach_single]
      refine ⟨_, rfl, frame_step t c w _, ?_⟩
      cases hreads with
      | val p => exact .val p
      | id hlookup =>
        apply Reads.id
        rw [contextLookup_incIns]
        exact hlookup
  rw [heach]
  by_cases hop : op = .EQ
  · subst hop
    simpa using @sameOutcome_eq_iff env _ _ _ _ _ _ _ _ _ _ _ hframe hframe' hreads'
  · exact iff_of_true (sameOutcome_primitive h.third_op hop hframe hframe' hreads')
      fun hdiffers => hop hdiffers.1

/-- The operand of the operation is `x` and `1` is pushed before it. -/
def pushPush (op : Op) : List Instruction :=
  [⟨.PUSH, .val (.int 1)⟩, ⟨.PUSH, .id "x"⟩, ⟨op, .noArg⟩]

/-- A task in which `x` is 1. -/
def oneVariable : World :=
  let w := codeWorld [] (fun _ => ⟨.Object, .empty, .none⟩) .none []
  { w with store := w.store.setMember 0 "x" (.int 1) }

theorem foldsMath_pushPush {op : Op} (h : op.isMathOp = true) : FoldsMath (pushPush op) 0
    ⟨.PUSH, .val (.int 1)⟩ ⟨.PUSH, .id "x"⟩ ⟨op, .noArg⟩ := by
  have hgoto : op.isGoto = false := by
    cases op with
    | JMP => cases h
    | IF => cases h
    | IFN => cases h
    | CTCH => cases h
    | _ => rfl
  have hpush : Op.PUSH.isGoto = false := rfl
  have hnone : ∀ k, hasGoto (pushPush op) k = false := by
    intro k
    simp [hasGoto, pushPush, gotoKey, hgoto, hpush]
  exact ⟨rfl, rfl, rfl, rfl, rfl, h, rfl, hnone _, hnone _⟩

theorem simpleMath_preserves_sum :
    SameOutcome (executeEach noNatives 0 0 oneVariable (pushPush .ADD))
      (executeEach noNatives 0 0 oneVariable
        ((edited (optimizerSimpleMath (pushPush .ADD)).edit 0 (pushPush .ADD)).map Prod.snd)) :=
  (simpleMath_preserves_iff noNatives oneVariable 0 0 (foldsMath_pushPush rfl) rfl).mpr nofun

/-- `EQ x` compares with a primitive that is never set. -/
theorem not_simpleMath_preserves : ¬ ∀ (env : Env) (w : World) (t : TaskId) (c : ContextId)
    (tape : List Instruction) (i : Nat) (x y : Arg) (op : Op),
    FoldsMath tape i ⟨.PUSH, x⟩ ⟨.PUSH, y⟩ ⟨op, .noArg⟩ → (w.frame t).Bound w.contexts c x →
      ((w.afterPush t c x).frame t).Bound (w.afterPush t c x).contexts c y →
        SameOutcome (executeEach env t c w [⟨.PUSH, x⟩, ⟨.PUSH, y⟩, ⟨op, .noArg⟩])
          (executeEach env t c w ((edited (optimizerSimpleMath tape).edit i
            [⟨.PUSH, x⟩, ⟨.PUSH, y⟩, ⟨op, .noArg⟩]).map Prod.snd)) := by
  intro h
  have hsame := h noNatives oneVariable 0 0 (pushPush .EQ) 0 _ _ .EQ (foldsMath_pushPush rfl)
    trivial rfl
  rw [(foldsMath_pushPush rfl).edited_eq] at hsame
  have hgeneral : executeEach noNatives 0 0 oneVariable (pushPush .EQ) =
      some (.next ⟨oneVariable.store, .int 1, []⟩) := rfl
  have hfast : executeEach noNatives 0 0 oneVariable
      [⟨.RES, .val (.int 1)⟩, ⟨.EQ, .id "x"⟩] = none := rfl
  have hdiffer : SameOutcome (some (.next ⟨oneVariable.store, .int 1, []⟩)) none := by
    rw [← hgeneral, ← hfast]
    exact hsame
  cases hdiffer

end JeffVm
