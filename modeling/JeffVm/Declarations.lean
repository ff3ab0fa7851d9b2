import JeffVm.Labels
import JeffVm.Lib.Transition
import JeffVm.Relocation

/-!
# Declarations through the optimizer

A round of the optimizer keeps the classes with their methods and the functions of a tape whose
labels lie where they belong: each method in its class, which is not empty, and all other
functions outside of the classes.
-/

set_option autoImplicit false

namespace JeffVm

open Editing

/-! ## What is declared -/

/-- A function of the name and with the flag is among the labels. -/
def Declares (refs : KeyedList FunctionRef.name) (name : String) (isAsync : Bool) : Prop :=
  ∃ f ∈ refs.entries, f.name = name ∧ f.isAsync = isAsync

/-- Two entries of one class. Fields are in order; that each method is there once is part of the
keyed lists. -/
structure ClassRef.SameDeclarations (c c' : ClassRef) : Prop where
  name : c'.name = c.name
  supers : c'.supers = c.supers
  fields : c'.fieldRefs = c.fieldRefs
  methods : ∀ name isAsync, Declares c'.funcRefs name isAsync ↔ Declares c.funcRefs name isAsync

namespace Tape

structure SameDeclarations (t t' : Tape) : Prop where
  classes : ∀ c ∈ t.classRefs.entries, ∃ c' ∈ t'.classRefs.entries, c.SameDeclarations c'
  only_classes : ∀ c' ∈ t'.classRefs.entries, ∃ c ∈ t.classRefs.entries, c.SameDeclarations c'
  functions : ∀ name isAsync, Declares t'.funcRefs name isAsync ↔ Declares t.funcRefs name isAsync

/-! ## When a round keeps them -/

/-- Labels and classes are where the compiler puts them: on the tape, class after class. -/
structure Bounded (t : Tape) : Prop where
  functions_le : ∀ f ∈ t.funcRefs.entries, f.index ≤ t.size
  classes_le : ∀ c ∈ t.classRefs.entries, c.endIndex ≤ t.size
  disjoint : ∀ c ∈ t.classRefs.entries, ∀ d ∈ t.classRefs.entries, c ≠ d →
    c.endIndex ≤ d.startIndex ∨ d.endIndex ≤ c.startIndex

/-- In the loops of `optimizer_JmpRes` both instructions before a target exist. -/
def LoopsInside (t : Tape) : Prop :=
  ∀ (i : Nat) (first second : Instruction), t.ins[i]? = some first → t.ins[i + 1]? = some second →
    first.op = .SET → second.op = .JMP → ∀ v, second.pint = some v → v < 0 → 0 ≤ i + v

/-- The tape that a round gets. -/
structure Ready (t : Tape) (opt : List Instruction → Option Adjustments) : Prop where
  nonempty : ∀ c ∈ t.classRefs.entries, c.startIndex < c.endIndex
  distinct : (t.funcLabels.map FunctionRef.index).Nodup
  methods : ∀ c ∈ t.classRefs.entries, ∀ f ∈ c.funcRefs.entries, c.Spans f.index
  functions : ∀ f ∈ t.funcRefs.entries, ∀ c ∈ t.classRefs.entries, ¬ c.Spans f.index
  jumps : ∀ (i : Nat) (ins : Instruction), t.ins[i]? = some ins → ins.op.isGoto = true →
    ∃ v, ins.pint = some v ∧ 0 ≤ i + v ∧ i + v < t.ins.length
  loops : opt = optimizerJmpRes → t.LoopsInside

variable {t : Tape} {opt : List Instruction → Option Adjustments}

theorem mem_funcLabels {f : FunctionRef} : f ∈ t.funcLabels ↔
    f ∈ t.funcRefs.entries ∨ ∃ c ∈ t.classRefs.entries, f ∈ c.funcRefs.entries := by
  rw [funcLabels, List.mem_append, List.mem_flatMap]

theorem Ready.sparse (h : t.Ready opt) : t.Sparse := ⟨h.distinct, h.nonempty⟩

/-- A label that a class spans is one of its methods. -/
theorem Ready.method (hb : t.Bounded) (h : t.Ready opt) {c : ClassRef} {f : FunctionRef}
    (hc : c ∈ t.classRefs.entries) (hf : f ∈ t.funcLabels) (hspan : c.Spans f.index) :
    f ∈ c.funcRefs.entries := by
  rcases mem_funcLabels.mp hf with hf | ⟨d, hd, hf⟩
  · exact absurd hspan (h.functions f hf c hc)
  · have hspan' := h.methods d hd f hf
    have heq : d = c := by
      by_contra hne
      obtain ⟨hcs, hce⟩ := hspan
      obtain ⟨hds, hde⟩ := hspan'
      rcases hb.disjoint d hd c hc hne with hle | hle
      · omega
      · omega
    exact heq ▸ hf

/-- A label that no class spans is a function of the module. -/
theorem Ready.function (h : t.Ready opt) {f : FunctionRef} (hf : f ∈ t.funcLabels)
    (hout : ∀ c ∈ t.classRefs.entries, ¬ c.Spans f.index) : f ∈ t.funcRefs.entries := by
  rcases mem_funcLabels.mp hf with hf | ⟨d, hd, hf⟩
  · exact hf
  · exact absurd (h.methods d hd f hf) (hout d hd)

theorem Ready.laidOut (hb : t.Bounded) (h : t.Ready opt) : t.LaidOut := by
  refine ⟨?_, hb.classes_le, hb.disjoint, ?_, ?_⟩
  · intro f hf
    rcases mem_funcLabels.mp hf with hf | ⟨c, hc, hf⟩
    · exact hb.functions_le f hf
    · exact Nat.le_of_lt (Nat.lt_of_lt_of_le (h.methods c hc f hf).2 (hb.classes_le c hc))
  · intro c hc f hf g hg hfspan hgspan hname
    exact List.inj_on_of_nodup_map c.funcRefs.nodup (h.method hb hc hf hfspan)
      (h.method hb hc hg hgspan) hname
  · intro f hf g hg hfout hgout hname
    exact List.inj_on_of_nodup_map t.funcRefs.nodup (h.function hf hfout) (h.function hg hgout)
      hname

end Tape

/-! ## The passes make no jumps -/

def Adjustment.isGoto : Adjustment → Bool
  | .remove => false
  | .setOp op => op.isGoto
  | .setVal op _ => op.isGoto
  | .replace ins => ins.op.isGoto

def Adjustments.NoGotos (as : Adjustments) : Prop := ∀ i a, (i, a) ∈ as → a.isGoto = false

theorem noGotos_pairs {c : Nat → Instruction → Instruction → Bool}
    {as : Nat → Instruction → Instruction → Adjustments} {tape : List Instruction}
    (h : ∀ i first second, (as i first second).NoGotos) :
    (pairRounds (fun i first second => if c i first second then as i first second else [])
      1 tape).NoGotos := by
  intro j a hmem
  obtain ⟨i, first, second, -, -, hround⟩ := mem_pairRounds.mp hmem
  split at hround
  · exact h _ first second j a hround
  · cases hround

theorem noGotos_nil : Adjustments.NoGotos [] := by
  intro i a hmem
  cases hmem

theorem noGotos_cons {j : Nat} {b : Adjustment} {as : Adjustments} (hb : b.isGoto = false)
    (has : as.NoGotos) : Adjustments.NoGotos ((j, b) :: as) := by
  intro i a hmem
  rcases List.mem_cons.mp hmem with heq | hmem
  · cases heq
    exact hb
  · exact has i a hmem

theorem noGotos_jmpRes {tape : List Instruction} {as : Adjustments}
    (h : optimizerJmpRes tape = some as) : as.NoGotos := by
  intro j a hmem
  obtain ⟨i, first, second, bs, -, -, hround, hbs⟩ := mem_optimizerJmpResFrom h hmem
  have hbs' : bs.NoGotos := by
    unfold roundJmpRes at hround
    repeat' split at hround
    all_goals first
      | cases hround
        exact noGotos_nil
      | cases hround
        exact noGotos_cons rfl noGotos_nil
      | cases hround
  exact hbs' j a hbs

theorem noGotos_simpleMath (tape : List Instruction) : (optimizerSimpleMath tape).NoGotos := by
  intro j a hmem
  obtain ⟨i, first, second, third, -, -, -, hround⟩ := mem_tripleRounds.mp hmem
  split at hround
  · next hc =>
    simp only [Bool.and_eq_true] at hc
    have hmath : third.op.isGoto = false := by
      have hop := hc.1.1.1.2
      revert hop
      cases third.op <;> first | exact fun _ => rfl | exact fun h => nomatch h
    have hall : Adjustments.NoGotos [(2 + i - 2, if first.isNoArg then .remove else .setOp .RES),
        (2 + i - 1, .setOp third.op), (2 + i, .remove)] := by
      refine noGotos_cons ?_ (noGotos_cons hmath (noGotos_cons rfl noGotos_nil))
      split <;> rfl
    exact hall j a hround
  · cases hround

theorem noGotos_nilPass (tape : List Instruction) : (optimizerNil tape).NoGotos := by
  intro j a hmem
  obtain ⟨i, ins, -, hround⟩ := mem_eachRound.mp hmem
  split at hround
  · have hall : Adjustments.NoGotos
        [(0 + i, .replace ⟨if ins.op == .RES then .RNIL else .PNIL, .noArg⟩)] := by
      refine noGotos_cons ?_ noGotos_nil
      change Op.isGoto (if ins.op == .RES then .RNIL else .PNIL) = false
      split <;> rfl
    exact hall j a hround
  · cases hround

/-- No registered pass turns anything into a jump. -/
theorem noGotos_optimizers {opt : List Instruction → Option Adjustments} (hopt : opt ∈ optimizers)
    {tape : List Instruction} {as : Adjustments} (h : opt tape = some as) : as.NoGotos := by
  have hone : ∀ {a : Adjustment}, a.isGoto = false → ∀ i, Adjustments.NoGotos [(i, a)] :=
    fun ha i => noGotos_cons ha noGotos_nil
  have htwo : ∀ {a b : Adjustment}, a.isGoto = false → b.isGoto = false → ∀ i j,
      Adjustments.NoGotos [(i, a), (j, b)] :=
    fun ha hb i j => noGotos_cons ha (noGotos_cons hb noGotos_nil)
  simp only [optimizers, List.mem_cons, List.not_mem_nil, or_false] at hopt
  rcases hopt with rfl | rfl | rfl | rfl | rfl | rfl | rfl | rfl | rfl | rfl | rfl | rfl | rfl |
    rfl | rfl
  all_goals first
    | exact noGotos_jmpRes h
    | obtain rfl := Option.some.inj h
      first
        | exact noGotos_simpleMath tape
        | exact noGotos_nilPass tape
        | exact noGotos_pairs fun i first second => hone rfl _
        | exact noGotos_pairs fun i first second => htwo rfl rfl _ _

/-- The jumps of a tape stay what they are. -/
theorem Adjustments.NoGotos.edit {as : Adjustments} (h : as.NoGotos) {i : Nat}
    {ins x : Instruction} (hedit : as.edit i ins = some x) (hgoto : x.op.isGoto = true) :
    x = ins := by
  unfold Adjustments.edit at hedit
  cases hlookup : as.lookup i with
  | none =>
    rw [hlookup] at hedit
    exact (Option.some.inj hedit).symm
  | some a =>
    have ha := h i a (Adjustments.mem_of_lookup hlookup)
    rw [hlookup] at hedit
    cases a with
    | remove => cases hedit
    | _ =>
      obtain rfl := Option.some.inj hedit
      exact absurd (ha.symm.trans hgoto) Bool.false_ne_true

/-! ## One round -/

namespace Tape

variable {t t' : Tape} {opt : List Instruction → Option Adjustments}

theorem roundJmpRes_some {tape : List Instruction} {i : Nat} {first second : Instruction}
    (hlt : i < tape.length) (hjump : second.op = .JMP → ∃ v, second.pint = some v)
    (hloop : first.op = .SET → second.op = .JMP → ∀ v, second.pint = some v → v < 0 →
      0 ≤ (i : Int) + v - 1) : ∃ as, roundJmpRes tape i first second = some as := by
  unfold roundJmpRes
  split
  · next hops =>
    simp only [Bool.and_eq_true, beq_iff_eq] at hops
    obtain ⟨v, hv⟩ := hjump hops.2
    rw [hv]
    dsimp only
    by_cases hneg : 0 ≤ v
    · rw [if_pos hneg]
      exact ⟨_, rfl⟩
    · rw [if_neg hneg]
      have hlow := hloop hops.1 hops.2 v hv (Int.not_le.mp hneg)
      have hget : ∀ k : Int, 0 ≤ k → k < tape.length → ∃ ins, tapeGet tape k = some ins := by
        intro k hk hklt
        refine ⟨tape[k.toNat], ?_⟩
        rw [tapeGet, if_pos hk, List.getElem?_eq_getElem (by omega)]
      obtain ⟨parent, hparent⟩ := hget (i + v - 1) (by omega) (by omega)
      obtain ⟨target, htarget⟩ := hget (i + v) (by omega) (by omega)
      rw [hparent, htarget]
      dsimp only
      split
      · exact ⟨_, rfl⟩
      · exact ⟨_, rfl⟩
  · exact ⟨_, rfl⟩

theorem optimizerJmpResFrom_some {tape : List Instruction} : ∀ (rest : List Instruction) (s : Nat),
    (∀ i first second, rest[i]? = some first → rest[i + 1]? = some second →
      ∃ as, roundJmpRes tape (s + i) first second = some as) →
    ∃ as, optimizerJmpResFrom tape s rest = some as
  | [], s, _ => ⟨[], rfl⟩
  | [_], s, _ => ⟨[], rfl⟩
  | first :: second :: rest, s, h => by
    obtain ⟨as, has⟩ := h 0 first second rfl rfl
    obtain ⟨bs, hbs⟩ := optimizerJmpResFrom_some (second :: rest) (s + 1) (by
        intro i first' second' hfirst hsecond
        obtain ⟨cs, hcs⟩ := h (i + 1) first' second' hfirst hsecond
        refine ⟨cs, ?_⟩
        rwa [Nat.add_right_comm])
    exact ⟨as ++ bs, by rw [optimizerJmpResFrom, ← Nat.add_zero s, has, Nat.add_zero, hbs]⟩

/-- The passes look at no instruction that does not exist. -/
theorem pass_some (hopt : opt ∈ optimizers)
    (hjumps : ∀ (i : Nat) (ins : Instruction), t.ins[i]? = some ins → ins.op.isGoto = true →
      ∃ v, ins.pint = some v ∧ 0 ≤ i + v ∧ i + v < t.ins.length)
    (hloops : opt = optimizerJmpRes → t.LoopsInside) : ∃ as, opt t.ins = some as := by
  simp only [optimizers, List.mem_cons, List.not_mem_nil, or_false] at hopt
  rcases hopt with rfl | rfl | rfl | rfl | rfl | rfl | rfl | rfl | rfl | rfl | rfl | rfl | rfl |
    rfl | rfl
  case inr.inr.inl =>
    apply optimizerJmpResFrom_some
    intro i first second hfirst hsecond
    have hlt := (List.getElem?_eq_some_iff.mp hsecond).1
    apply roundJmpRes_some (by omega)
    · intro hop
      obtain ⟨v, hv, -⟩ := hjumps (i + 1) second hsecond (by rw [hop]; rfl)
      exact ⟨v, hv⟩
    · intro hset hjmp v hv hneg
      have hlow := hloops rfl i first second hfirst hsecond hset hjmp v hv hneg
      omega
  all_goals exact ⟨_, rfl⟩

theorem Ready.pass (hopt : opt ∈ optimizers) (h : t.Ready opt) : ∃ as, opt t.ins = some as :=
  pass_some hopt h.jumps h.loops

theorem Ready.jumpsInside (h : t.Ready opt) {as : Adjustments} (has : as.NoGotos) :
    as.JumpsInside t.ins := by
  intro i ins x hins hedit hgoto
  obtain rfl := has.edit hedit hgoto
  exact h.jumps i x hins hgoto

theorem declares_moved {refs refs' : KeyedList FunctionRef.name} {p : Nat → Nat}
    (h : ∀ f', f' ∈ refs'.entries ↔ ∃ f ∈ refs.entries, f' = f.moved p) (name : String)
    (isAsync : Bool) : Declares refs' name isAsync ↔ Declares refs name isAsync := by
  constructor
  · rintro ⟨f', hf', hname, hasync⟩
    obtain ⟨f, hf, rfl⟩ := (h f').mp hf'
    exact ⟨f, hf, hname, hasync⟩
  · rintro ⟨f, hf, hname, hasync⟩
    exact ⟨f.moved p, (h _).mpr ⟨f, hf, rfl⟩, hname, hasync⟩

/-- A round on a tape that is ready. -/
theorem Ready.round (hb : t.Bounded) (hopt : opt ∈ optimizers) (h : t.Ready opt) :
    ∃ t', runOptimizer t opt = some t' ∧ t.SameDeclarations t' ∧ t'.Bounded := by
  obtain ⟨as, has⟩ := h.pass hopt
  have hgotos := noGotos_optimizers hopt has
  have hl := h.laidOut hb
  obtain ⟨t', hresolve, hwalked⟩ := ohResolve_walked h.sparse hl (h.jumpsInside hgotos)
  have hsize := (ohResolve_ins hresolve).1
  have hall : (t.ins.all fun ins => !ins.op.isGoto || ins.pint.isSome) = true := by
    rw [List.all_eq_true]
    intro ins hmem
    obtain ⟨i, hi, hins⟩ := List.getElem_of_mem hmem
    cases hgoto : ins.op.isGoto with
    | false => rfl
    | true =>
      obtain ⟨v, hv, -⟩ := h.jumps i ins (by rw [List.getElem?_eq_getElem hi, hins]) hgoto
      rw [hv]
      rfl
  have hmoved : ∀ c' ∈ t'.classRefs.entries, ∃ c ∈ t.classRefs.entries,
      t.ClassMoved (position as.edit t.ins) (t.size + 1) (t.size + 1) c c' := by
    intro c' hc'
    obtain ⟨c, hc, -, hclass⟩ := hwalked.classes c' hc'
    exact ⟨c, hc, hclass⟩
  have hsame : ∀ {c c' : ClassRef}, c ∈ t.classRefs.entries →
      t.ClassMoved (position as.edit t.ins) (t.size + 1) (t.size + 1) c c' →
        c.SameDeclarations c' := by
    intro c c' hc hclass
    refine ⟨hclass.name, hclass.supers, hclass.fields, ?_⟩
    apply declares_moved
    intro f'
    rw [hclass.funcs]
    constructor
    · rintro ⟨f, hf, -, hspan, heq⟩
      exact ⟨f, h.method hb hc hf hspan, heq⟩
    · rintro ⟨f, hf, heq⟩
      have hlabel := mem_funcLabels.mpr (.inr ⟨c, hc, hf⟩)
      exact ⟨f, hlabel, Nat.lt_succ_of_le (hl.labels_le f hlabel), h.methods c hc f hf, heq⟩
  have hfuncs : ∀ f', f' ∈ t'.funcRefs.entries ↔
      ∃ f ∈ t.funcRefs.entries, f' = f.moved (position as.edit t.ins) := by
    intro f'
    rw [hwalked.funcs]
    constructor
    · rintro ⟨f, hf, -, hout, heq⟩
      exact ⟨f, h.function hf hout, heq⟩
    · rintro ⟨f, hf, heq⟩
      have hlabel := mem_funcLabels.mpr (.inl hf)
      exact ⟨f, hlabel, Nat.lt_succ_of_le (hl.labels_le f hlabel), h.functions f hf, heq⟩
  have hlast : position as.edit t.ins t.size = t'.size := by
    exact (position_eq_length (Nat.le_refl _)).trans hsize.symm
  refine ⟨t', by rw [runOptimizer, if_pos hall, has]; exact hresolve, ⟨?_, ?_, ?_⟩, ?_, ?_, ?_⟩
  · intro c hc
    obtain ⟨c', hc', hclass⟩ := hwalked.class_moved h.sparse hl hc
    exact ⟨c', hc', hsame hc hclass⟩
  · intro c' hc'
    obtain ⟨c, hc, hclass⟩ := hmoved c' hc'
    exact ⟨c, hc, hsame hc hclass⟩
  · exact declares_moved hfuncs
  · intro f' hf'
    obtain ⟨f, hf, rfl⟩ := (hfuncs f').mp hf'
    rw [← hlast]
    exact position_mono (hb.functions_le f hf)
  · intro c' hc'
    obtain ⟨c, hc, hclass⟩ := hmoved c' hc'
    have hle := hb.classes_le c hc
    rw [hclass.endIndex (Nat.lt_succ_of_le hle), ← hlast]
    exact position_mono hle
  · intro c' hc' d' hd' hne
    obtain ⟨c, hc, hclass⟩ := hmoved c' hc'
    obtain ⟨d, hd, hclass'⟩ := hmoved d' hd'
    have hne' : c ≠ d := by
      intro heq
      subst heq
      exact hne (class_eq hc' hd' (hclass.name.trans hclass'.name.symm))
    rw [hclass.endIndex (Nat.lt_succ_of_le (hb.classes_le c hc)), hclass'.startIndex,
      hclass'.endIndex (Nat.lt_succ_of_le (hb.classes_le d hd)), hclass.startIndex]
    rcases hb.disjoint c hc d hd hne' with hle | hle
    · exact .inl (position_mono hle)
    · exact .inr (position_mono hle)

end Tape

/-! ## All rounds -/

namespace Tape

variable {t t' t'' : Tape}

theorem Ordered.bounded (h : t.Ordered) : t.Bounded := by
  have hmem : ∀ c ∈ t.classRefs.entries, (c.name, c.startIndex, c.endIndex) ∈ t.spans :=
    fun c hc => List.mem_map_of_mem hc
  refine ⟨h.functions, fun c hc => h.le _ (hmem c hc), ?_⟩
  have hpairwise := h.pairwise
  rw [spans, List.pairwise_map] at hpairwise
  have heither := hpairwise.imp (S := fun c d : ClassRef =>
    c.endIndex ≤ d.startIndex ∨ d.endIndex ≤ c.startIndex) fun hcd => .inl hcd
  have hsymm : Std.Symm fun c d : ClassRef =>
      c.endIndex ≤ d.startIndex ∨ d.endIndex ≤ c.startIndex := ⟨fun _ _ hcd => hcd.symm⟩
  intro c hc d hd hne
  exact heither.forall hc hd hne

theorem SameDeclarations.refl (t : Tape) : t.SameDeclarations t :=
  ⟨fun c hc => ⟨c, hc, rfl, rfl, rfl, fun _ _ => Iff.rfl⟩,
    fun c hc => ⟨c, hc, rfl, rfl, rfl, fun _ _ => Iff.rfl⟩, fun _ _ => Iff.rfl⟩

end Tape

theorem ClassRef.SameDeclarations.trans {c c' c'' : ClassRef} (h : c.SameDeclarations c')
    (h' : c'.SameDeclarations c'') : c.SameDeclarations c'' :=
  ⟨h'.name.trans h.name, h'.supers.trans h.supers, h'.fields.trans h.fields,
    fun name isAsync => (h'.methods name isAsync).trans (h.methods name isAsync)⟩

theorem Tape.SameDeclarations.trans {t t' t'' : Tape} (h : t.SameDeclarations t')
    (h' : t'.SameDeclarations t'') : t.SameDeclarations t'' := by
  refine ⟨?_, ?_, fun name isAsync => (h'.functions name isAsync).trans
    (h.functions name isAsync)⟩
  · intro c hc
    obtain ⟨c', hc', hsame⟩ := h.classes c hc
    obtain ⟨c'', hc'', hsame'⟩ := h'.classes c' hc'
    exact ⟨c'', hc'', hsame.trans hsame'⟩
  · intro c'' hc''
    obtain ⟨c', hc', hsame'⟩ := h'.only_classes c'' hc''
    obtain ⟨c, hc, hsame⟩ := h.only_classes c' hc'
    exact ⟨c, hc, hsame.trans hsame'⟩

/-- A round is one of the registered passes on a tape that is ready for it. -/
def ReadyRound (t : Tape) (opt : List Instruction → Option Adjustments) : Prop :=
  opt ∈ optimizers ∧ t.Ready opt

/-- In a run of rounds that are all ready for their pass, each round ends and keeps what the
compiler declared. -/
theorem rounds_keep_declarations {tree : RegisteredTree} {tape t : Tape} {n : Int}
    (hproduce : produceTree tree Tape.create = some (n, tape))
    (hrun : RunsIn runOptimizer ReadyRound tape t)
    {opt : List Instruction → Option Adjustments} (hround : ReadyRound t opt) :
    ∃ t', runOptimizer t opt = some t' ∧ t.SameDeclarations t' ∧ tape.SameDeclarations t' := by
  have hinv : t.Bounded ∧ tape.SameDeclarations t := by
    apply hrun.invariant (P := fun t => t.Bounded ∧ tape.SameDeclarations t)
    · intro s l s' hs hC hl
      obtain ⟨t', hround, hsame, hbounded⟩ := hC.2.round hs.1 hC.1
      obtain rfl := Option.some.inj (hround.symm.trans hl)
      exact ⟨hbounded, hs.2.trans hsame⟩
    · exact ⟨(keepsOrder_tree tree _ _ _ hproduce .create).bounded, .refl tape⟩
  obtain ⟨t', hrun', hsame, -⟩ := hround.2.round hinv.1 hround.1
  exact ⟨t', hrun', hsame, hinv.2.trans hsame⟩

/-- `class A { method f() { x } }  def g() { x }` -/
def oneMethod : RegisteredTree :=
  let body : ExpressionTree := .compoundStatement [.identifier (.word "x" 1)]
  .fileLevelStatementList ⟨none, [], [⟨.word "A" 1, [], none, [], none,
    [⟨.word "method" 1, some (.word "f" 1), .NONE, false, none, body⟩]⟩],
    [⟨.word "def" 2, some (.word "g" 2), .NONE, false, none, body⟩], []⟩

/-- The class of `oneMethod` and its function, at indices that no pass moves. -/
def oneMethodTape : Tape where
  moduleName := none
  ins := [⟨.EXIT, .val (.int 0)⟩, ⟨.RES, .id "x"⟩, ⟨.RET, .noArg⟩, ⟨.RES, .id "x"⟩, ⟨.RET, .noArg⟩]
  sourceMap := [⟨-1, -1⟩, ⟨1, 0⟩, ⟨1, 0⟩, ⟨1, 0⟩, ⟨2, 0⟩]
  classRefs := KeyedList.empty.insert
    ⟨"A", 1, 3, KeyedList.empty.insert ⟨"f", 1, false, false⟩, .empty, []⟩
  funcRefs := KeyedList.empty.insert ⟨"g", 3, false, false⟩
  currentClass := none

theorem oneMethod_produced : produceTree oneMethod Tape.create = some (5, oneMethodTape) := by
  rfl

theorem oneMethodTape_ready (opt : List Instruction → Option Adjustments) :
    oneMethodTape.Ready opt := by
  have hnoJump : ∀ ins ∈ oneMethodTape.ins, ins.op.isGoto = false := by decide
  refine ⟨by decide, by decide, by decide, by decide, ?_, ?_⟩
  · intro i ins hins hgoto
    rw [hnoJump ins (List.mem_of_getElem? hins)] at hgoto
    cases hgoto
  · intro _ i first second _ hsecond _ hjmp
    have hgoto := hnoJump second (List.mem_of_getElem? hsecond)
    rw [hjmp] at hgoto
    cases hgoto

/-- The first round on `oneMethod`, and any round after it. -/
theorem rounds_keep_declarations_oneMethod :
    ∃ t', runOptimizer oneMethodTape optimizerJmpRes = some t' ∧
      oneMethodTape.SameDeclarations t' ∧ oneMethodTape.SameDeclarations t' := by
  have hfirst : RunsIn runOptimizer ReadyRound oneMethodTape oneMethodTape :=
    .single (l := some ∘ optimizerSetRes) ⟨by simp [optimizers], oneMethodTape_ready _⟩ rfl
  exact rounds_keep_declarations oneMethod_produced hfirst
    ⟨by simp [optimizers], oneMethodTape_ready _⟩

/-- `class A {}` -/
def emptyClass : RegisteredTree :=
  .fileLevelStatementList ⟨none, [], [⟨.word "A" 1, [], none, [], none, []⟩], [], []⟩

/-- The end of an empty class comes before its start. -/
theorem not_rounds_keep_declarations : ¬ ∀ (tree : RegisteredTree) (tape : Tape) (n : Int),
    produceTree tree Tape.create = some (n, tape) → ∀ (k : Nat) (t : Tape)
      (opt : List Instruction → Option Adjustments),
        runSteps runOptimizer tape (optimizers.take k) = some t → optimizers[k]? = some opt →
          ∃ t', runOptimizer t opt = some t' ∧ t.SameDeclarations t' := by
  intro h
  obtain ⟨t', hround, -⟩ := h emptyClass _ _ rfl 0 _ _ rfl rfl
  cases hround

end JeffVm
