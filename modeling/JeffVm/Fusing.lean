import JeffVm.Dispatch

/-!
# Fused opcodes

The producers choose only executable instructions for a runnable tree. The optimizer adds one
opcode that the machine does not know: `PSRS`, for a `PUSH` and a `RES` of one operand in a row.
Whether it does is read off the tape it starts from.
-/

set_option autoImplicit false

namespace JeffVm

open Editing

/-! ## Passes that suit -/

section Suited

variable {t t' : Tape} {as : Adjustments} {tape : List Instruction} {i : Nat}
  {ins new : Instruction}

theorem Adjustments.Suit.edit_executable (h : as.Suit tape) (hins : tape[i]? = some ins)
    (hexec : ins.executable = true) (hedit : as.edit i ins = some new) :
    new.executable = true := by
  unfold Adjustments.edit at hedit
  cases hlookup : as.lookup i with
  | none =>
    rw [hlookup] at hedit
    cases hedit
    exact hexec
  | some a =>
    obtain ⟨ins', hins', hsuits⟩ := h i a (Adjustments.mem_of_lookup hlookup)
    cases hins.symm.trans hins'
    rw [hlookup] at hedit
    cases a with
    | remove => cases hedit
    | setOp op =>
      cases hedit
      exact hsuits.2 hexec
    | setVal op val =>
      cases hedit
      exact hsuits.2
    | replace new' =>
      cases hedit
      exact hsuits.2

/-- A suitable pass leaves an opcode alone that the machine does not know. -/
theorem Adjustments.Suit.edit_unknown (h : as.Suit tape) (hins : tape[i]? = some ins)
    (hop : ins.op.operand = none) : as.edit i ins = some ins := by
  unfold Adjustments.edit
  cases hlookup : as.lookup i with
  | none => rfl
  | some a =>
    obtain ⟨ins', hins', hsuits⟩ := h i a (Adjustments.mem_of_lookup hlookup)
    cases hins.symm.trans hins'
    have hsome : ins.op.operand.isSome = true := by
      cases a with
      | remove => exact hsuits
      | _ => exact hsuits.1
    rw [hop] at hsome
    cases hsome

theorem operand_of_isGoto {op : Op} (h : op.isGoto = true) : op.operand = some .primitive := by
  cases op <;> first | rfl | cases h

theorem Adjustments.Retargeted.executable {x y : Instruction} {j : Nat}
    (h : as.Retargeted tape i j x y) (hx : x.executable = true) : y.executable = true := by
  unfold Adjustments.Retargeted at h
  split at h
  · next hgoto =>
    obtain ⟨n, -, -, -, rfl⟩ := h
    simp [Instruction.executable, operand_of_isGoto hgoto]
  · rw [h]
    exact hx

theorem ohResolve_executable (h : ohResolve t as = some t') (hsuit : as.Suit t.ins)
    (hexec : t.ins.all Instruction.executable = true) :
    t'.ins.all Instruction.executable = true := by
  obtain ⟨hlen, hat⟩ := ohResolve_ins h
  rw [List.all_eq_true] at hexec ⊢
  intro y hy
  obtain ⟨j, hj, hyj⟩ := List.mem_iff_getElem.mp hy
  have hj' : j < (edited as.edit 0 t.ins).length := hlen ▸ hj
  obtain ⟨z, hz, hretargeted⟩ := hat j _ _ (List.getElem?_eq_getElem hj')
  rw [List.getElem?_eq_getElem hj, hyj] at hz
  cases hz
  obtain ⟨x, hx, hedit, -⟩ := getElem?_edited.mp (List.getElem?_eq_getElem hj')
  exact hretargeted.executable
    (hsuit.edit_executable hx (hexec x (List.mem_of_getElem? hx)) hedit)

/-- An unknown opcode that the edit leaves is on the new tape as it is. -/
theorem mem_ohResolve (h : ohResolve t as = some t')
    (hmem : (i, new) ∈ edited as.edit 0 t.ins) (hop : new.op.operand = none) : new ∈ t'.ins := by
  obtain ⟨j, hj, hnew⟩ := List.mem_iff_getElem.mp hmem
  have hget : (edited as.edit 0 t.ins)[j]? = some (i, new) := by
    rw [List.getElem?_eq_getElem hj, hnew]
  obtain ⟨y, hy, hretargeted⟩ := (ohResolve_ins h).2 j i new hget
  unfold Adjustments.Retargeted at hretargeted
  split at hretargeted
  · next hgoto =>
    rw [operand_of_isGoto hgoto] at hop
    cases hop
  · rw [← hretargeted]
    exact List.mem_of_getElem? hy

theorem runOptimizer_some {opt : List Instruction → Option Adjustments}
    (h : runOptimizer t opt = some t') : ∃ as, opt t.ins = some as ∧ ohResolve t as = some t' := by
  unfold runOptimizer at h
  split at h
  · split at h
    · cases h
    · next as has => exact ⟨as, has, h⟩
  · cases h

/-- All adjustments of the pass suit. -/
def Suited (opt : List Instruction → Option Adjustments) : Prop :=
  ∀ tape as, opt tape = some as → as.Suit tape

theorem runOptimizer_executable {opt : List Instruction → Option Adjustments} (hopt : Suited opt)
    (h : runOptimizer t opt = some t') (hexec : t.ins.all Instruction.executable = true) :
    t'.ins.all Instruction.executable = true := by
  obtain ⟨as, has, hresolve⟩ := runOptimizer_some h
  exact ohResolve_executable hresolve (hopt _ _ has) hexec

theorem runOptimizer_unknown {opt : List Instruction → Option Adjustments} (hopt : Suited opt)
    (h : runOptimizer t opt = some t') (hins : ins ∈ t.ins) (hop : ins.op.operand = none) :
    ins ∈ t'.ins := by
  obtain ⟨as, has, hresolve⟩ := runOptimizer_some h
  obtain ⟨i, hi, hget⟩ := List.mem_iff_getElem.mp hins
  have hat : t.ins[i]? = some ins := by rw [List.getElem?_eq_getElem hi, hget]
  have hedit := (hopt _ _ has).edit_unknown hat hop
  exact mem_ohResolve hresolve (mem_edited.mpr ⟨ins, Nat.zero_le i, hat, hedit⟩) hop

theorem passes_executable : ∀ {opts : List (List Instruction → Option Adjustments)} {t t' : Tape},
    (∀ opt ∈ opts, Suited opt) → opts.foldlM runOptimizer t = some t' →
      t.ins.all Instruction.executable = true → t'.ins.all Instruction.executable = true
  | [], t, t', _, h, hexec => by
    cases h
    exact hexec
  | opt :: opts, t, t', hopts, h, hexec => by
    obtain ⟨next, hnext, hrest⟩ := Option.bind_eq_some_iff.mp h
    have hkept := runOptimizer_executable (hopts opt (List.mem_cons_self ..)) hnext hexec
    exact passes_executable (fun o ho => hopts o (List.mem_cons_of_mem opt ho)) hrest hkept

theorem passes_unknown : ∀ {opts : List (List Instruction → Option Adjustments)} {t t' : Tape},
    (∀ opt ∈ opts, Suited opt) → opts.foldlM runOptimizer t = some t' → ins.op.operand = none →
      ins ∈ t.ins → ins ∈ t'.ins
  | [], t, t', _, h, _, hmem => by
    cases h
    exact hmem
  | opt :: opts, t, t', hopts, h, hop, hmem => by
    obtain ⟨next, hnext, hrest⟩ := Option.bind_eq_some_iff.mp h
    have hkept := runOptimizer_unknown (hopts opt (List.mem_cons_self ..)) hnext hmem hop
    exact passes_unknown (fun o ho => hopts o (List.mem_cons_of_mem opt ho)) hrest hop hkept

theorem suited_some {f : List Instruction → Adjustments} (h : ∀ tape, (f tape).Suit tape) :
    Suited (some ∘ f) := by
  intro tape as has
  cases has
  exact h tape

end Suited

/-- The passes before `optimizer_PushRes`. -/
def passesBefore : List (List Instruction → Option Adjustments) :=
  [some ∘ optimizerSetRes, some ∘ optimizerSetPush, optimizerJmpRes]

/-- The passes after `optimizer_PushRes`. -/
def passesAfter : List (List Instruction → Option Adjustments) :=
  [some ∘ optimizerResPush2, some ∘ optimizerRetRet, some ∘ optimizerPeekRes,
    some ∘ optimizerSetEmpty, some ∘ optimizerPeekPeek, some ∘ optimizerPushResEmpty,
    some ∘ optimizerPeekRes, some ∘ optimizerPushRes2, some ∘ optimizerSimpleMath,
    some ∘ optimizerGetPush, some ∘ optimizerNil]

theorem optimizers_eq :
    optimizers = passesBefore ++ (some ∘ optimizerPushRes) :: passesAfter := rfl

theorem passesBefore_suited : ∀ opt ∈ passesBefore, Suited opt := by
  simp only [passesBefore, List.forall_mem_cons, List.not_mem_nil, false_imp_iff, implies_true,
    and_true]
  exact ⟨suited_some setRes_suits, suited_some setPush_suits, fun _ _ => jmpRes_suits⟩

theorem passesAfter_suited : ∀ opt ∈ passesAfter, Suited opt := by
  simp only [passesAfter, List.forall_mem_cons, List.not_mem_nil, false_imp_iff, implies_true,
    and_true]
  exact ⟨suited_some resPush2_suits, suited_some retRet_suits, suited_some peekRes_suits,
    suited_some setEmpty_suits, suited_some peekPeek_suits, suited_some pushResEmpty_suits,
    suited_some peekRes_suits, suited_some pushRes2_suits, suited_some simpleMath_suits,
    suited_some getPush_suits, suited_some nil_suits⟩

/-! ## The pass that fuses -/

/-- A `RES` stands right behind a `PUSH`, and no jump goes to what is behind the two. -/
structure PushThenRes (tape : List Instruction) (i : Nat) (first second : Instruction) :
    Prop where
  first_at : tape[i]? = some first
  second_at : tape[i + 1]? = some second
  first_op : first.op = .PUSH
  second_op : second.op = .RES
  no_goto : hasGoto tape (i + 1) = false

/-- The operand of a `PUSH`, which needs none where the result is known to be its variable. -/
def Arg.unlessKnown (known : String → Bool) : Arg → Arg
  | .id name => if known name then .noArg else .id name
  | arg => arg

/-- A `PUSH` and a `RES` of one operand in a row; `known` says of which variables the result is
known to hold the value at an index. -/
def PairFound (known : Nat → String → Bool) (tape : List Instruction) : Prop :=
  ∃ i first second, PushThenRes tape i first second ∧
    sameOperand (first.arg.unlessKnown (known i)) second.arg = true

theorem mem_optimizerPushRes {tape : List Instruction} {j : Nat} {a : Adjustment} :
    (j, a) ∈ optimizerPushRes tape ↔ ∃ i first second, PushThenRes tape i first second ∧
      sameOperand first.arg second.arg = true ∧
        ((j, a) = (i, .setOp .PSRS) ∨ (j, a) = (i + 1, .remove)) := by
  unfold optimizerPushRes
  rw [mem_pairRounds]
  constructor
  · rintro ⟨i, first, second, hfirst, hsecond, hround⟩
    have hindex : 1 + i = i + 1 := Nat.add_comm 1 i
    rw [hindex, Nat.add_sub_cancel] at hround
    split at hround
    · next hc =>
      simp only [Bool.and_eq_true, Bool.not_eq_true', beq_iff_eq] at hc
      obtain ⟨⟨⟨hpush, hres⟩, hsame⟩, hgoto⟩ := hc
      refine ⟨i, first, second, ⟨hfirst, hsecond, hpush, hres, hgoto⟩, hsame, ?_⟩
      simpa using hround
    · cases hround
  · rintro ⟨i, first, second, hpair, hsame, hround⟩
    refine ⟨i, first, second, hpair.first_at, hpair.second_at, ?_⟩
    have hindex : 1 + i = i + 1 := Nat.add_comm 1 i
    rw [hindex, Nat.add_sub_cancel, if_pos]
    · simpa using hround
    · simp [hpair.first_op, hpair.second_op, hsame, hpair.no_goto]

theorem lookup_optimizerPushRes {tape : List Instruction} {i : Nat} {first second : Instruction}
    (h : PushThenRes tape i first second) (hsame : sameOperand first.arg second.arg = true) :
    (optimizerPushRes tape).lookup i = some (.setOp .PSRS) := by
  apply Adjustments.lookup_of_unique
  · exact mem_optimizerPushRes.mpr ⟨i, first, second, h, hsame, .inl rfl⟩
  · intro a ha
    obtain ⟨i', first', second', h', -, heq | heq⟩ := mem_optimizerPushRes.mp ha
    · exact congrArg Prod.snd heq
    · -- a removed instruction is a `RES`, and this one is a `PUSH`
      cases heq
      cases h.first_at.symm.trans h'.second_at
      exact absurd (h.first_op.symm.trans h'.second_op) (by decide)

/-- `optimizer_PushRes` knows of no variable. -/
def noneKnown : Nat → String → Bool := fun _ _ => false

@[simp] theorem Arg.unlessKnown_noneKnown (arg : Arg) (i : Nat) :
    arg.unlessKnown (noneKnown i) = arg := by
  cases arg <;> rfl

/-- The pass brings in an unknown opcode exactly where it finds a pair. -/
theorem pushRes_executable_iff {t t' : Tape}
    (h : runOptimizer t (some ∘ optimizerPushRes) = some t')
    (hexec : t.ins.all Instruction.executable = true) :
    (¬ PairFound noneKnown t.ins → t'.ins.all Instruction.executable = true) ∧
      (PairFound noneKnown t.ins → ∃ ins ∈ t'.ins, ins.op.operand = none) := by
  obtain ⟨as, has, hresolve⟩ := runOptimizer_some h
  cases has
  simp only [PairFound, Arg.unlessKnown_noneKnown]
  constructor
  · intro hnone
    refine ohResolve_executable hresolve (fun i a hmem => ?_) hexec
    obtain ⟨i', first, second, hpair, hsame, -⟩ := mem_optimizerPushRes.mp hmem
    exact absurd ⟨i', first, second, hpair, hsame⟩ hnone
  · rintro ⟨i, first, second, hpair, hsame⟩
    refine ⟨⟨.PSRS, first.arg⟩, mem_ohResolve (i := i) hresolve ?_ rfl, rfl⟩
    refine mem_edited.mpr ⟨first, Nat.zero_le i, hpair.first_at, ?_⟩
    rw [Adjustments.edit, lookup_optimizerPushRes hpair hsame]
    rfl

/-! ## What the passes before it leave in place -/

theorem hasGoto_iff {tape : List Instruction} {k : Nat} :
    hasGoto tape k = true ↔ ∃ (i : Nat) (ins : Instruction) (n : Int), 0 < i ∧
      tape[i]? = some ins ∧ ins.op.isGoto = true ∧ ins.pint = some n ∧ i + n = (k : Int) := by
  unfold hasGoto
  rw [List.any_eq_true]
  constructor
  · rintro ⟨⟨ins, i⟩, hmem, hkey⟩
    simp only [Bool.and_eq_true, decide_eq_true_eq, beq_iff_eq, gotoKey] at hkey
    obtain ⟨hi, hkey⟩ := hkey
    split at hkey
    · next hgoto =>
      obtain ⟨n, hn, hsum⟩ := Option.map_eq_some_iff.mp hkey
      exact ⟨i, ins, n, hi, List.mem_zipIdx_iff_getElem?.mp hmem, hgoto, hn, hsum⟩
    · cases hkey
  · rintro ⟨i, ins, n, hi, hat, hgoto, hn, hsum⟩
    refine ⟨(ins, i), List.mem_zipIdx_iff_getElem?.mpr hat, ?_⟩
    simp [gotoKey, hgoto, hn, hi, hsum]

/-- The passes before `optimizer_PushRes` look behind an assignment, and drop a `RES` there or
take the operand of a `PUSH`. -/
structure Adjustment.Trims (tape : List Instruction) (i : Nat) (a : Adjustment) (j : Nat)
    (first second : Instruction) : Prop where
  index : i = j + 1
  first_at : tape[j]? = some first
  assigns : first.isAssign = true
  second_at : tape[i]? = some second
  does : second.op = .RES ∧ a = .remove ∨ second.op = .PUSH ∧ a = .replace ⟨.PUSH, .noArg⟩

def Adjustments.Trim (as : Adjustments) (tape : List Instruction) : Prop :=
  ∀ i a, (i, a) ∈ as → ∃ j first second, a.Trims tape i j first second

theorem isAssign_ne {ins : Instruction} {op : Op} (h : ins.isAssign = true) (hset : op ≠ .SET)
    (hlet : op ≠ .LET) : ins.op ≠ op := by
  rintro rfl
  unfold Instruction.isAssign at h
  rcases Bool.or_eq_true _ _ ▸ h with hop | hop
  · exact hset (eq_of_beq hop)
  · exact hlet (eq_of_beq hop)

namespace Adjustments.Trim

variable {tape : List Instruction} {as : Adjustments} {i : Nat} {ins new : Instruction}

theorem lookup_zero (h : as.Trim tape) : as.lookup 0 = none := by
  cases hlookup : as.lookup 0 with
  | none => rfl
  | some a =>
    obtain ⟨j, first, second, htrims⟩ := h 0 a (mem_of_lookup hlookup)
    cases htrims.index

/-- Only a `RES` and a `PUSH` change. -/
theorem lookup_of_op (h : as.Trim tape) (hins : tape[i]? = some ins) (hres : ins.op ≠ .RES)
    (hpush : ins.op ≠ .PUSH) : as.lookup i = none := by
  cases hlookup : as.lookup i with
  | none => rfl
  | some a =>
    obtain ⟨j, first, second, htrims⟩ := h i a (mem_of_lookup hlookup)
    cases hins.symm.trans htrims.second_at
    rcases htrims.does with ⟨hop, -⟩ | ⟨hop, -⟩
    · exact absurd hop hres
    · exact absurd hop hpush

theorem lookup_of_goto (h : as.Trim tape) (hins : tape[i]? = some ins)
    (hgoto : ins.op.isGoto = true) : as.lookup i = none := by
  apply h.lookup_of_op hins
  · intro hres
    rw [hres] at hgoto
    cases hgoto
  · intro hpush
    rw [hpush] at hgoto
    cases hgoto

/-- Only what stands behind an assignment changes. -/
theorem lookup_succ (h : as.Trim tape) (hins : tape[i]? = some ins)
    (hassign : ins.isAssign = false) : as.lookup (i + 1) = none := by
  cases hlookup : as.lookup (i + 1) with
  | none => rfl
  | some a =>
    obtain ⟨j, first, second, htrims⟩ := h (i + 1) a (mem_of_lookup hlookup)
    cases Nat.succ.inj htrims.index
    cases hins.symm.trans htrims.first_at
    rw [htrims.assigns] at hassign
    cases hassign

theorem remove_behind (h : as.Trim tape) (hremove : as.lookup i = some .remove) :
    ∃ j first second, i = j + 1 ∧ tape[j]? = some first ∧ first.isAssign = true ∧
      tape[i]? = some second ∧ second.op = .RES := by
  obtain ⟨j, first, second, htrims⟩ := h i _ (mem_of_lookup hremove)
  rcases htrims.does with ⟨hop, -⟩ | ⟨-, heq⟩
  · exact ⟨j, first, second, htrims.index, htrims.first_at, htrims.assigns, htrims.second_at, hop⟩
  · cases heq

theorem kept_of_op (h : as.Trim tape) (hins : tape[i]? = some ins) (hres : ins.op ≠ .RES) :
    as.lookup i ≠ some .remove := by
  intro hremove
  obtain ⟨-, -, second, -, -, -, hat, hop⟩ := h.remove_behind hremove
  cases hins.symm.trans hat
  exact hres hop

/-- An assignment in front of a changed instruction is kept. -/
theorem kept_of_assign (h : as.Trim tape) (hins : tape[i]? = some ins)
    (hassign : ins.isAssign = true) : as.lookup i = none :=
  h.lookup_of_op hins (isAssign_ne hassign (by decide) (by decide))
    (isAssign_ne hassign (by decide) (by decide))

theorem edit_op (h : as.Trim tape) (hins : tape[i]? = some ins) (hedit : as.edit i ins = some new) :
    new.op = ins.op := by
  unfold edit at hedit
  cases hlookup : as.lookup i with
  | none =>
    rw [hlookup] at hedit
    cases hedit
    rfl
  | some a =>
    obtain ⟨j, first, second, htrims⟩ := h i a (mem_of_lookup hlookup)
    cases hins.symm.trans htrims.second_at
    rcases htrims.does with ⟨-, rfl⟩ | ⟨hop, rfl⟩
    · rw [hlookup] at hedit
      cases hedit
    · rw [hlookup] at hedit
      cases hedit
      exact hop.symm

theorem kept_of_none (hlookup : as.lookup i = none) : as.lookup i ≠ some .remove := by
  rw [hlookup]
  exact (Option.some_ne_none _).symm

theorem edit_of_none (hlookup : as.lookup i = none) : as.edit i ins = some ins := by
  rw [edit, hlookup]
  rfl

theorem edit_some_of_kept (ins : Instruction) (hkept : as.lookup i ≠ some .remove) :
    ∃ new, as.edit i ins = some new :=
  Option.ne_none_iff_exists'.mp fun hnone => hkept (edit_eq_none.mp hnone)

theorem position_succ (hins : tape[i]? = some ins) (hkept : as.lookup i ≠ some .remove) :
    position as.edit tape (i + 1) = position as.edit tape i + 1 := by
  obtain ⟨new, hedit⟩ := edit_some_of_kept ins hkept
  exact position_succ_some hins hedit

theorem position_lt (hins : tape[i]? = some ins) (hkept : as.lookup i ≠ some .remove) {j : Nat}
    (hlt : i < j) : position as.edit tape i < position as.edit tape j := by
  have hmono : position as.edit tape (i + 1) ≤ position as.edit tape j := position_mono hlt
  rw [position_succ hins hkept] at hmono
  exact hmono

theorem position_pos (h : as.Trim tape) (hins : tape[0]? = some ins) (hi : 0 < i) :
    0 < position as.edit tape i :=
  position_lt hins (kept_of_none h.lookup_zero) hi

/-- A jump lands on a kept instruction if it went there, or to a dropped one right behind. -/
theorem landing_eq_position (h : as.Trim tape) (hins : tape[i]? = some ins)
    (hkept : as.lookup i ≠ some .remove) (k : Nat) :
    as.landing tape k = position as.edit tape i ↔
      k = i ∨ k = i + 1 ∧ as.lookup (i + 1) = some .remove := by
  by_cases hk : as.lookup k = some .remove
  · obtain ⟨m, first, second, rfl, hfirst, hassign, -, -⟩ := h.remove_behind hk
    have hkeptm := kept_of_none (h.kept_of_assign hfirst hassign)
    have hlanding : as.landing tape (m + 1) = position as.edit tape m := by
      rw [landing, if_pos hk, position_succ hfirst hkeptm]
      omega
    rw [hlanding, Nat.cast_inj]
    constructor
    · intro heq
      rcases Nat.lt_trichotomy m i with hlt | rfl | hlt
      · exact absurd heq (Nat.ne_of_lt (position_lt hfirst hkeptm hlt))
      · exact .inr ⟨rfl, hk⟩
      · exact absurd heq (Nat.ne_of_gt (position_lt hins hkept hlt))
    · rintro (rfl | ⟨heq, -⟩)
      · exact absurd hk hkept
      · rw [Nat.succ.inj heq]
  · have hlanding : as.landing tape k = position as.edit tape k := by
      rw [landing, if_neg hk, sub_zero]
    rw [hlanding, Nat.cast_inj]
    constructor
    · intro heq
      rcases Nat.lt_trichotomy k i with hlt | rfl | hlt
      · have hkt : k < tape.length := hlt.trans (List.getElem?_eq_some_iff.mp hins).1
        exact absurd heq (Nat.ne_of_lt (position_lt (List.getElem?_eq_getElem hkt) hk hlt))
      · exact .inl rfl
      · exact absurd heq (Nat.ne_of_gt (position_lt hins hkept hlt))
    · rintro (rfl | ⟨rfl, hremove⟩)
      · rfl
      · exact absurd hremove hk

end Adjustments.Trim

section Trimmed

variable {t t' : Tape} {as : Adjustments} {i : Nat} {first second : Instruction}

theorem Adjustments.Retargeted.eq_of_op {tape : List Instruction} {j : Nat} {x y : Instruction}
    (h : as.Retargeted tape i j x y) (hop : y.op.isGoto = false) : y = x := by
  unfold Adjustments.Retargeted at h
  split at h
  · next hgoto =>
    obtain ⟨n, -, -, -, rfl⟩ := h
    rw [hgoto] at hop
    cases hop
  · exact h

/-- What the new tape holds, except for the operands of jumps. -/
theorem ohResolve_getElem? (h : ohResolve t as = some t') {j : Nat} {new : Instruction}
    (hop : new.op.isGoto = false) : t'.ins[j]? = some new ↔
      ∃ i ins, t.ins[i]? = some ins ∧ as.edit i ins = some new ∧ j = position as.edit t.ins i := by
  obtain ⟨hlen, hat⟩ := ohResolve_ins h
  constructor
  · intro hnew
    have hj : j < (edited as.edit 0 t.ins).length :=
      hlen ▸ (List.getElem?_eq_some_iff.mp hnew).1
    obtain ⟨⟨i, x⟩, hx⟩ : ∃ p, (edited as.edit 0 t.ins)[j]? = some p :=
      ⟨_, List.getElem?_eq_getElem hj⟩
    obtain ⟨y, hy, hretargeted⟩ := hat j i x hx
    cases hnew.symm.trans hy
    obtain ⟨ins, hins, hedit, hposition⟩ := getElem?_edited.mp hx
    rw [← hretargeted.eq_of_op hop] at hedit
    exact ⟨i, ins, hins, hedit, hposition⟩
  · rintro ⟨i, ins, hins, hedit, rfl⟩
    obtain ⟨y, hy, hretargeted⟩ := hat _ i new (getElem?_position hins hedit)
    have hyop : y.op.isGoto = false := by rw [hretargeted.op_eq]; exact hop
    rw [hy, hretargeted.eq_of_op hyop]

/-- The jumps of the new tape go where those of the old one land. -/
theorem hasGoto_resolved (h : ohResolve t as = some t') (htrim : as.Trim t.ins) (k : Nat) :
    hasGoto t'.ins k = true ↔ ∃ old, hasGoto t.ins old = true ∧ as.landing t.ins old = k := by
  obtain ⟨hlen, hat⟩ := ohResolve_ins h
  rw [hasGoto_iff]
  constructor
  · rintro ⟨j, y, n', hj, hy, hgoto, hn', hsum⟩
    have hjlt : j < (edited as.edit 0 t.ins).length := hlen ▸ (List.getElem?_eq_some_iff.mp hy).1
    obtain ⟨⟨i, x⟩, hx⟩ : ∃ p, (edited as.edit 0 t.ins)[j]? = some p :=
      ⟨_, List.getElem?_eq_getElem hjlt⟩
    obtain ⟨y', hy', hretargeted⟩ := hat j i x hx
    cases hy.symm.trans hy'
    obtain ⟨ins, hins, hedit, rfl⟩ := getElem?_edited.mp hx
    have hop : x.op = y.op := hretargeted.op_eq.symm
    have hnone : as.lookup i = none :=
      htrim.lookup_of_goto hins (by rw [← htrim.edit_op hins hedit, hop]; exact hgoto)
    cases (Adjustments.Trim.edit_of_none hnone).symm.trans hedit
    unfold Adjustments.Retargeted at hretargeted
    rw [if_pos (hop ▸ hgoto)] at hretargeted
    obtain ⟨n, hn, hnonneg, -, rfl⟩ := hretargeted
    cases hn'
    refine ⟨(i + n).toNat, hasGoto_iff.mpr ⟨i, x, n, ?_, hins, hop ▸ hgoto, hn, ?_⟩, ?_⟩
    · rcases Nat.eq_zero_or_pos i with rfl | hi
      · exact absurd hj (Nat.lt_irrefl 0)
      · exact hi
    · omega
    · omega
  · rintro ⟨old, hold, hlanding⟩
    obtain ⟨i, x, n, hi, hx, hgoto, hn, hsum⟩ := hasGoto_iff.mp hold
    have hnone : as.lookup i = none := htrim.lookup_of_goto hx hgoto
    obtain ⟨y, hy, hretargeted⟩ :=
      hat _ i x (getElem?_position hx (Adjustments.Trim.edit_of_none hnone))
    unfold Adjustments.Retargeted at hretargeted
    rw [if_pos hgoto] at hretargeted
    obtain ⟨n', hn', -, -, rfl⟩ := hretargeted
    cases hn.symm.trans hn'
    have hold' : (i + n : Int).toNat = old := by omega
    refine ⟨_, _, _, ?_, hy, hgoto, rfl, ?_⟩
    · have hlength : 0 < t.ins.length := by
        have hlt := (List.getElem?_eq_some_iff.mp hx).1
        omega
      have hzero : t.ins[0]? = some t.ins[0] := List.getElem?_eq_getElem hlength
      exact htrim.position_pos hzero hi
    · rw [hold', ← hlanding]
      omega

theorem hasGoto_position (h : ohResolve t as = some t') (htrim : as.Trim t.ins)
    (hins : t.ins[i]? = some first) (hkept : as.lookup i ≠ some .remove) :
    hasGoto t'.ins (position as.edit t.ins i) = true ↔ hasGoto t.ins i = true ∨
      as.lookup (i + 1) = some .remove ∧ hasGoto t.ins (i + 1) = true := by
  rw [hasGoto_resolved h htrim]
  constructor
  · rintro ⟨old, hold, hlanding⟩
    rcases (htrim.landing_eq_position hins hkept old).mp hlanding with rfl | ⟨rfl, hremove⟩
    · exact .inl hold
    · exact .inr ⟨hremove, hold⟩
  · rintro (hold | ⟨hremove, hold⟩)
    · exact ⟨i, hold, (htrim.landing_eq_position hins hkept i).mpr (.inl rfl)⟩
    · exact ⟨i + 1, hold, (htrim.landing_eq_position hins hkept _).mpr (.inr ⟨rfl, hremove⟩)⟩

/-- Behind an instruction that assigns nothing no `RES` is dropped, so jumps stay as they are. -/
theorem hasGoto_position_eq (h : ohResolve t as = some t') (htrim : as.Trim t.ins)
    (hins : t.ins[i]? = some first) (hkept : as.lookup i ≠ some .remove)
    (hnext : as.lookup (i + 1) ≠ some .remove) :
    hasGoto t'.ins (position as.edit t.ins i) = hasGoto t.ins i := by
  rw [Bool.eq_iff_iff, hasGoto_position h htrim hins hkept]
  constructor
  · rintro (hold | ⟨hremove, -⟩)
    · exact hold
    · exact absurd hremove hnext
  · exact .inl

/-- The pairs that `optimizer_PushRes` looks at are those of the tape before. -/
theorem pushThenRes_resolved (h : ohResolve t as = some t') (htrim : as.Trim t.ins) {j : Nat} :
    PushThenRes t'.ins j first second ↔ ∃ i ins, j = position as.edit t.ins i ∧
      as.edit i ins = some first ∧ PushThenRes t.ins i ins second := by
  constructor
  · rintro ⟨hfirst, hsecond, hfirstop, hsecondop, hgoto⟩
    obtain ⟨i, ins, hins, hedit, rfl⟩ :=
      (ohResolve_getElem? h (by rw [hfirstop]; rfl)).mp hfirst
    obtain ⟨k, ins', hins', hedit', hposition⟩ :=
      (ohResolve_getElem? h (by rw [hsecondop]; rfl)).mp hsecond
    have hop : ins.op = .PUSH := (htrim.edit_op hins hedit).symm.trans hfirstop
    have hop' : ins'.op = .RES := (htrim.edit_op hins' hedit').symm.trans hsecondop
    have hassign : ins.isAssign = false := by simp [Instruction.isAssign, hop]
    have hassign' : ins'.isAssign = false := by simp [Instruction.isAssign, hop']
    have hnone : as.lookup (i + 1) = none := htrim.lookup_succ hins hassign
    have hkept : as.lookup i ≠ some .remove := htrim.kept_of_op hins (by rw [hop]; decide)
    have hkept' : as.lookup k ≠ some .remove := by
      intro hremove
      rw [Adjustments.edit_eq_none.mpr hremove] at hedit'
      cases hedit'
    rw [← Adjustments.Trim.position_succ hins hkept] at hposition
    -- the kept instruction at the next position is the next one of the old tape
    have hk : k = i + 1 := by
      rcases Nat.lt_trichotomy k (i + 1) with hlt | heq | hlt
      · exact absurd hposition.symm
          (Nat.ne_of_lt (Adjustments.Trim.position_lt hins' hkept' hlt))
      · exact heq
      · have hi : i + 1 < t.ins.length := hlt.trans (List.getElem?_eq_some_iff.mp hins').1
        exact absurd hposition (Nat.ne_of_lt (Adjustments.Trim.position_lt
          (List.getElem?_eq_getElem hi) (Adjustments.Trim.kept_of_none hnone) hlt))
    subst hk
    cases (Adjustments.Trim.edit_of_none hnone).symm.trans hedit'
    refine ⟨i, ins, rfl, hedit, hins, hins', hop, hop', ?_⟩
    rw [← Adjustments.Trim.position_succ hins hkept, hasGoto_position_eq h htrim hins' hkept'
      (Adjustments.Trim.kept_of_none (htrim.lookup_succ hins' hassign'))] at hgoto
    exact hgoto
  · rintro ⟨i, ins, rfl, hedit, hpair⟩
    have hassign : ins.isAssign = false := by simp [Instruction.isAssign, hpair.first_op]
    have hassign' : second.isAssign = false := by simp [Instruction.isAssign, hpair.second_op]
    have hnone : as.lookup (i + 1) = none := htrim.lookup_succ hpair.first_at hassign
    have hkept : as.lookup i ≠ some .remove :=
      htrim.kept_of_op hpair.first_at (by rw [hpair.first_op]; decide)
    have hfirstop : first.op = .PUSH :=
      (htrim.edit_op hpair.first_at hedit).trans hpair.first_op
    refine ⟨?_, ?_, hfirstop, hpair.second_op, ?_⟩
    · exact (ohResolve_getElem? h (by rw [hfirstop]; rfl)).mpr
        ⟨i, ins, hpair.first_at, hedit, rfl⟩
    · refine (ohResolve_getElem? h (by rw [hpair.second_op]; rfl)).mpr
        ⟨i + 1, second, hpair.second_at, Adjustments.Trim.edit_of_none hnone, ?_⟩
      rw [Adjustments.Trim.position_succ hpair.first_at hkept]
    · have hgoto := hasGoto_position_eq h htrim hpair.second_at
        (Adjustments.Trim.kept_of_none hnone)
        (Adjustments.Trim.kept_of_none (htrim.lookup_succ hpair.second_at hassign'))
      rw [Adjustments.Trim.position_succ hpair.first_at hkept, hpair.no_goto] at hgoto
      exact hgoto

end Trimmed

/-! ## The passes before it -/

/-- A pass over two instructions in a row that adjusts the second one. -/
theorem mem_pairRounds_second {c : Nat → Instruction → Instruction → Bool}
    {adjust : Adjustment} {tape : List Instruction} {j : Nat} {a : Adjustment} :
    (j, a) ∈ pairRounds (fun i first second => if c i first second then [(i, adjust)] else [])
      1 tape ↔ ∃ i first second, j = i + 1 ∧ a = adjust ∧ tape[i]? = some first ∧
        tape[i + 1]? = some second ∧ c (i + 1) first second = true := by
  rw [mem_pairRounds]
  constructor
  · rintro ⟨i, first, second, hfirst, hsecond, hround⟩
    rw [Nat.add_comm 1 i] at hround
    split at hround
    · next hc =>
      cases List.mem_singleton.mp hround
      exact ⟨i, first, second, rfl, rfl, hfirst, hsecond, hc⟩
    · cases hround
  · rintro ⟨i, first, second, rfl, rfl, hfirst, hsecond, hc⟩
    refine ⟨i, first, second, hfirst, hsecond, ?_⟩
    rw [Nat.add_comm 1 i, if_pos hc]
    exact List.mem_singleton_self _

/-- The variable of a `SET` or `LET` and of the instruction behind it, when they are the same and
no jump goes between the two. -/
def assignsBefore (tape : List Instruction) (i : Nat) (first second : Instruction) : Bool :=
  first.isAssign && sameId first second && !hasGoto tape i

theorem mem_optimizerSetRes {tape : List Instruction} {j : Nat} {a : Adjustment} :
    (j, a) ∈ optimizerSetRes tape ↔ ∃ i first second, j = i + 1 ∧ a = .remove ∧
      tape[i]? = some first ∧ tape[i + 1]? = some second ∧ second.op = .RES ∧
        assignsBefore tape i first second = true := by
  unfold optimizerSetRes
  rw [mem_pairRounds_second]
  refine exists_congr fun i => exists_congr fun first => exists_congr fun second => ?_
  simp only [assignsBefore, Bool.and_eq_true, beq_iff_eq, Nat.add_sub_cancel]
  grind

theorem mem_optimizerSetPush {tape : List Instruction} {j : Nat} {a : Adjustment} :
    (j, a) ∈ optimizerSetPush tape ↔ ∃ i first second, j = i + 1 ∧
      a = .replace ⟨.PUSH, .noArg⟩ ∧ tape[i]? = some first ∧ tape[i + 1]? = some second ∧
        second.op = .PUSH ∧ assignsBefore tape i first second = true := by
  unfold optimizerSetPush
  rw [mem_pairRounds_second]
  refine exists_congr fun i => exists_congr fun first => exists_congr fun second => ?_
  simp only [assignsBefore, Bool.and_eq_true, beq_iff_eq, Nat.add_sub_cancel]
  grind

theorem assignsBefore_isAssign {tape : List Instruction} {i : Nat} {first second : Instruction}
    (h : assignsBefore tape i first second = true) : first.isAssign = true := by
  unfold assignsBefore at h
  simp only [Bool.and_eq_true] at h
  exact h.1.1

theorem setRes_trim (tape : List Instruction) : (optimizerSetRes tape).Trim tape := by
  intro j a hmem
  obtain ⟨i, first, second, rfl, rfl, hfirst, hsecond, hop, hbefore⟩ := mem_optimizerSetRes.mp hmem
  exact ⟨i, first, second, rfl, hfirst, assignsBefore_isAssign hbefore, hsecond, .inl ⟨hop, rfl⟩⟩

theorem setPush_trim (tape : List Instruction) : (optimizerSetPush tape).Trim tape := by
  intro j a hmem
  obtain ⟨i, first, second, rfl, rfl, hfirst, hsecond, hop, hbefore⟩ := mem_optimizerSetPush.mp hmem
  exact ⟨i, first, second, rfl, hfirst, assignsBefore_isAssign hbefore, hsecond, .inr ⟨hop, rfl⟩⟩

/-- The pass drops the `RES` that a loop jumps back to, behind a `SET`. -/
theorem mem_optimizerJmpRes {tape : List Instruction} {as : Adjustments}
    (h : optimizerJmpRes tape = some as) {j : Nat} {a : Adjustment} (hmem : (j, a) ∈ as) :
    ∃ i first second, j = i + 1 ∧ a = .remove ∧ tape[i]? = some first ∧ first.op = .SET ∧
      tape[j]? = some second ∧ second.op = .RES := by
  obtain ⟨i, first, second, bs, -, -, hround, hbs⟩ := mem_optimizerJmpResFrom h hmem
  unfold roundJmpRes at hround
  split at hround
  · split at hround
    · cases hround
    · next jmpVal hpint =>
      split at hround
      · cases hround
        cases hbs
      · split at hround
        · next jumpToParent jumpTo hparent hto =>
          split at hround
          · next hc =>
            cases hround
            cases List.mem_singleton.mp hbs
            simp only [Bool.and_eq_true, beq_iff_eq] at hc
            unfold tapeGet at hparent hto
            split at hparent
            · next hnonneg =>
              split at hto
              · refine ⟨_, jumpToParent, jumpTo, ?_, rfl, hparent, hc.1.1.1, hto, hc.1.2⟩
                omega
              · cases hto
            · cases hparent
          · cases hround
            cases hbs
        · cases hround
  · cases hround
    cases hbs

theorem jmpRes_trim {tape : List Instruction} {as : Adjustments}
    (h : optimizerJmpRes tape = some as) : as.Trim tape := by
  intro j a hmem
  obtain ⟨i, first, second, rfl, rfl, hfirst, hset, hsecond, hop⟩ := mem_optimizerJmpRes h hmem
  refine ⟨i, first, second, rfl, hfirst, ?_, hsecond, .inl ⟨hop, rfl⟩⟩
  simp [Instruction.isAssign, hset]

/-! ## What is known at a `PUSH` -/

section Known

variable {tape : List Instruction} {name : String} {i : Nat}

/-- An assignment to the variable stands right before index `i`, and no jump goes there. -/
def assignedAt (tape : List Instruction) (name : String) : Nat → Bool
  | 0 => false
  | j + 1 => (tape[j]?.any fun ins => ins.isAssign && ins.arg == .id name) && !hasGoto tape j

/-- The same, also with a `RES` of the variable between, to and behind which no jump goes. -/
def resultHolds (tape : List Instruction) (name : String) : Nat → Bool
  | 0 => false
  | j + 1 => assignedAt tape name (j + 1) ||
      (tape[j]? == some ⟨.RES, .id name⟩ && assignedAt tape name j && !hasGoto tape j)

theorem sameId_iff {first second : Instruction} :
    sameId first second = true ↔ ∃ name, first.arg = .id name ∧ second.arg = .id name := by
  unfold sameId
  split
  · next a b ha hb =>
    rw [beq_iff_eq, ha, hb]
    simp [eq_comm]
  · next hne =>
    refine ⟨fun h => absurd h Bool.false_ne_true, ?_⟩
    rintro ⟨name, ha, hb⟩
    exact absurd hb (hne name name ha)

theorem assignedAt_succ_iff {second : Instruction} (harg : second.arg = .id name) :
    assignedAt tape name (i + 1) = true ↔
      ∃ first, tape[i]? = some first ∧ assignsBefore tape i first second = true := by
  unfold assignedAt assignsBefore
  rw [Bool.and_eq_true, Option.any_eq_true]
  constructor
  · rintro ⟨⟨first, hfirst, hassign⟩, hgoto⟩
    rw [Bool.and_eq_true, beq_iff_eq] at hassign
    refine ⟨first, hfirst, ?_⟩
    rw [hassign.1, sameId_iff.mpr ⟨name, hassign.2, harg⟩, hgoto]
    rfl
  · rintro ⟨first, hfirst, hbefore⟩
    simp only [Bool.and_eq_true, sameId_iff] at hbefore
    obtain ⟨⟨hassign, name', hid, hid'⟩, hgoto⟩ := hbefore
    cases harg.symm.trans hid'
    refine ⟨⟨first, hfirst, ?_⟩, hgoto⟩
    rw [hassign, hid]
    exact beq_self_eq_true _

variable {t t' : Tape} {as : Adjustments}

/-- Pairs stay pairs where a pass and what is known of the result agree on their operands. -/
theorem pairFound_resolved {known known' : Nat → String → Bool} (h : ohResolve t as = some t')
    (htrim : as.Trim t.ins)
    (hknown : ∀ i ins second new, PushThenRes t.ins i ins second → as.edit i ins = some new →
      new.arg.unlessKnown (known' (position as.edit t.ins i)) =
        ins.arg.unlessKnown (known i)) :
    PairFound known' t'.ins ↔ PairFound known t.ins := by
  constructor
  · rintro ⟨j, first, second, hpair, hsame⟩
    obtain ⟨i, ins, rfl, hedit, hpair'⟩ := (pushThenRes_resolved h htrim).mp hpair
    refine ⟨i, ins, second, hpair', ?_⟩
    rw [← hknown i ins second first hpair' hedit]
    exact hsame
  · rintro ⟨i, ins, second, hpair, hsame⟩
    have hkept := htrim.kept_of_op hpair.first_at (by rw [hpair.first_op]; decide)
    obtain ⟨new, hedit⟩ := Adjustments.Trim.edit_some_of_kept ins hkept
    refine ⟨_, new, second, (pushThenRes_resolved h htrim).mpr ⟨i, ins, rfl, hedit, hpair⟩, ?_⟩
    rw [hknown i ins second new hpair hedit]
    exact hsame

theorem jmpRes_pairFound (h : runOptimizer t optimizerJmpRes = some t') :
    PairFound noneKnown t'.ins ↔ PairFound noneKnown t.ins := by
  obtain ⟨as, has, hresolve⟩ := runOptimizer_some h
  apply pairFound_resolved hresolve (jmpRes_trim has)
  intro i ins second new hpair hedit
  have hnone : as.lookup i = none := by
    cases hlookup : as.lookup i with
    | none => rfl
    | some a =>
      obtain ⟨_, _, second', _, _, _, _, hat, hop⟩ :=
        mem_optimizerJmpRes has (Adjustments.mem_of_lookup hlookup)
      cases hpair.first_at.symm.trans hat
      exact absurd (hpair.first_op.symm.trans hop) (by decide)
  cases (Adjustments.Trim.edit_of_none hnone).symm.trans hedit
  rw [Arg.unlessKnown_noneKnown, Arg.unlessKnown_noneKnown]

theorem setPush_pairFound (h : runOptimizer t (some ∘ optimizerSetPush) = some t') :
    PairFound noneKnown t'.ins ↔ PairFound (fun i name => assignedAt t.ins name i) t.ins := by
  obtain ⟨as, has, hresolve⟩ := runOptimizer_some h
  cases has
  apply pairFound_resolved hresolve (setPush_trim t.ins)
  intro i ins second new hpair hedit
  rw [Arg.unlessKnown_noneKnown]
  cases hlookup : (optimizerSetPush t.ins).lookup i with
  | none =>
    cases (Adjustments.Trim.edit_of_none hlookup).symm.trans hedit
    cases harg : ins.arg with
    | id name =>
      cases hassigned : assignedAt t.ins name i with
      | false => simp [Arg.unlessKnown, hassigned]
      | true =>
        cases i with
        | zero => cases hassigned
        | succ i =>
          obtain ⟨first, hfirst, hbefore⟩ := (assignedAt_succ_iff harg).mp hassigned
          have hsome := Adjustments.lookup_isSome (mem_optimizerSetPush.mpr
            ⟨i, first, ins, rfl, rfl, hfirst, hpair.first_at, hpair.first_op, hbefore⟩)
          rw [hlookup] at hsome
          cases hsome
    | _ => rfl
  | some a =>
    obtain ⟨j, first, ins', rfl, rfl, hfirst, hat, -, hbefore⟩ :=
      mem_optimizerSetPush.mp (Adjustments.mem_of_lookup hlookup)
    cases hpair.first_at.symm.trans hat
    rw [Adjustments.edit, hlookup] at hedit
    cases hedit
    obtain ⟨name, -, harg⟩ := sameId_iff.mp
      (by simp only [assignsBefore, Bool.and_eq_true] at hbefore; exact hbefore.1.2)
    have hassigned := (assignedAt_succ_iff harg).mpr ⟨first, hfirst, hbefore⟩
    simp [Arg.unlessKnown, harg, hassigned]

/-- An assignment that no adjustment touches is on the new tape as it is. -/
theorem assigns_resolved (h : ohResolve t as = some t') {ins : Instruction}
    (hins : t.ins[i]? = some ins) (hnone : as.lookup i = none) (name : String) :
    (t'.ins[position as.edit t.ins i]?.any fun x => x.isAssign && x.arg == .id name) =
      (ins.isAssign && ins.arg == .id name) := by
  obtain ⟨y, hy, hretargeted⟩ :=
    (ohResolve_ins h).2 _ i ins (getElem?_position hins (Adjustments.Trim.edit_of_none hnone))
  have hassign : y.isAssign = ins.isAssign := by
    unfold Instruction.isAssign
    rw [hretargeted.op_eq]
  rw [hy, Option.any_some, hassign]
  cases hins' : ins.isAssign with
  | false => rfl
  | true =>
    have hgoto : y.op.isGoto = false := by
      rw [hretargeted.op_eq]
      unfold Instruction.isAssign at hins'
      rcases Bool.or_eq_true _ _ ▸ hins' with hop | hop <;>
        · rw [eq_of_beq hop]
          rfl
    rw [hretargeted.eq_of_op hgoto]

theorem setRes_lookup_none (hkept : (optimizerSetRes tape).lookup i ≠ some .remove) :
    (optimizerSetRes tape).lookup i = none := by
  cases hlookup : (optimizerSetRes tape).lookup i with
  | none => rfl
  | some a =>
    obtain ⟨-, -, -, -, rfl, -⟩ := mem_optimizerSetRes.mp (Adjustments.mem_of_lookup hlookup)
    exact absurd hlookup hkept

/-- `optimizer_SetRes` drops a `RES` between an assignment and a `PUSH`. -/
theorem assignedAt_resolved (h : ohResolve t (optimizerSetRes t.ins) = some t')
    {ins : Instruction} (hins : t.ins[i]? = some ins) (hop : ins.op = .PUSH) :
    assignedAt t'.ins name (position (optimizerSetRes t.ins).edit t.ins i) =
      resultHolds t.ins name i := by
  have htrim := setRes_trim t.ins
  cases i with
  | zero => rfl
  | succ m =>
    obtain ⟨prev, hprev⟩ : ∃ prev, t.ins[m]? = some prev := by
      have hlt := (List.getElem?_eq_some_iff.mp hins).1
      exact ⟨_, List.getElem?_eq_getElem (Nat.lt_of_succ_lt hlt)⟩
    by_cases hremove : (optimizerSetRes t.ins).lookup m = some .remove
    · obtain ⟨l, first, second, rfl, -, hfirst, hsecond, hres, hbefore⟩ :=
        mem_optimizerSetRes.mp (Adjustments.mem_of_lookup hremove)
      cases hprev.symm.trans hsecond
      have hnone := htrim.kept_of_assign hfirst (assignsBefore_isAssign hbefore)
      have hkept := Adjustments.Trim.kept_of_none hnone
      have hgoto := hasGoto_position h htrim hfirst hkept
      simp only [assignsBefore, Bool.and_eq_true, Bool.not_eq_true'] at hbefore
      obtain ⟨⟨hassign, hsame⟩, hl⟩ := hbefore
      obtain ⟨name', hid, hid'⟩ := sameId_iff.mp hsame
      have hgoto' : hasGoto t'.ins (position (optimizerSetRes t.ins).edit t.ins l) =
          hasGoto t.ins (l + 1) := by
        rw [Bool.eq_iff_iff, hgoto, hl]
        simp [hremove]
      obtain ⟨op, arg⟩ := prev
      cases hres
      cases hid'
      rw [position_succ_none hprev (Adjustments.edit_eq_none.mpr hremove),
        Adjustments.Trim.position_succ hfirst hkept, assignedAt, assigns_resolved h hfirst hnone,
        hgoto', resultHolds, assignedAt, assignedAt, hprev, hfirst, hl]
      have hres : Instruction.isAssign ⟨.RES, .id name'⟩ = false := rfl
      by_cases hname : name' = name
      · subst hname
        simp [hassign, hid, hres]
      · have hne : (Arg.id name' == Arg.id name) = false :=
          beq_false_of_ne fun heq => hname (Arg.id.inj heq)
        simp [hid, hne, hres]
    · have hnone := setRes_lookup_none hremove
      have hkept := htrim.kept_of_op hins (by rw [hop]; decide)
      rw [Adjustments.Trim.position_succ hprev hremove, assignedAt,
        assigns_resolved h hprev hnone, hasGoto_position_eq h htrim hprev hremove hkept,
        resultHolds, assignedAt, hprev, Option.any_some]
      -- a `RES` with the assignment before it would have been dropped
      have hdropped : (some prev == some ⟨.RES, .id name⟩ && assignedAt t.ins name m) = false := by
        rw [Bool.eq_false_iff]
        intro hres
        rw [Bool.and_eq_true, beq_iff_eq] at hres
        obtain ⟨heq, hassigned⟩ := hres
        cases heq
        cases m with
        | zero => cases hassigned
        | succ l =>
          obtain ⟨first, hfirst, hbefore⟩ :=
            (assignedAt_succ_iff (show (⟨.RES, .id name⟩ : Instruction).arg = .id name from rfl)).mp
              hassigned
          have hsome := Adjustments.lookup_isSome (mem_optimizerSetRes.mpr
            ⟨l, first, _, rfl, rfl, hfirst, hprev, rfl, hbefore⟩)
          rw [hnone] at hsome
          cases hsome
      rw [hdropped, Bool.false_and, Bool.or_false]

theorem setRes_pairFound (h : runOptimizer t (some ∘ optimizerSetRes) = some t') :
    PairFound (fun i name => assignedAt t'.ins name i) t'.ins ↔
      PairFound (fun i name => resultHolds t.ins name i) t.ins := by
  obtain ⟨as, has, hresolve⟩ := runOptimizer_some h
  cases has
  apply pairFound_resolved hresolve (setRes_trim t.ins)
  intro i ins second new hpair hedit
  have hkept := (setRes_trim t.ins).kept_of_op hpair.first_at (by rw [hpair.first_op]; decide)
  cases (Adjustments.Trim.edit_of_none (setRes_lookup_none hkept)).symm.trans hedit
  congr 1
  funext name
  exact assignedAt_resolved hresolve hpair.first_at hpair.first_op

end Known

/-! ## Whole programs -/

/-- The tape of a program has a `PUSH` and a `RES` of one operand in a row; a `PUSH` of the
variable that was just assigned needs no operand. -/
def Tape.Fuses (tape : Tape) : Prop :=
  PairFound (fun i name => resultHolds tape.ins name i) tape.ins

theorem optimize_executable_iff {tape tape' : Tape} (h : optimize tape = some tape')
    (hexec : tape.ins.all Instruction.executable = true) :
    tape'.ins.all Instruction.executable = true ↔ ¬ tape.Fuses := by
  rw [optimize, optimizers_eq, List.foldlM_append] at h
  obtain ⟨t₃, hbefore, hrest⟩ := Option.bind_eq_some_iff.mp h
  obtain ⟨t₄, hpush, hafter⟩ := Option.bind_eq_some_iff.mp hrest
  have hexec₃ := passes_executable passesBefore_suited hbefore hexec
  have hfuses : PairFound noneKnown t₃.ins ↔ tape.Fuses := by
    obtain ⟨t₁, hsetRes, hrest⟩ := Option.bind_eq_some_iff.mp hbefore
    obtain ⟨t₂, hsetPush, hrest⟩ := Option.bind_eq_some_iff.mp hrest
    obtain ⟨t, hjmpRes, hnil⟩ := Option.bind_eq_some_iff.mp hrest
    cases hnil
    rw [jmpRes_pairFound hjmpRes, setPush_pairFound hsetPush]
    exact setRes_pairFound hsetRes
  obtain ⟨hkept, hfused⟩ := pushRes_executable_iff hpush hexec₃
  rw [hfuses] at hkept hfused
  constructor
  · intro hexec' hpair
    obtain ⟨ins, hmem, hop⟩ := hfused hpair
    have hins := passes_unknown passesAfter_suited hafter hop hmem
    have hknown := List.all_eq_true.mp hexec' ins hins
    rw [Instruction.executable, hop] at hknown
    cases hknown
  · intro hnone
    exact passes_executable passesAfter_suited hafter (hkept hnone)

/-- All instructions of a program, before and after the optimizer, are executable exactly if
its tree is runnable and no `PUSH` and `RES` of its tape fuse. -/
theorem instructions_executable_iff {tree : RegisteredTree} {tape tape' : Tape} {n : Int}
    (hproduce : produceTree tree Tape.create = some (n, tape))
    (hoptimize : optimize tape = some tape') :
    (tape.ins.all Instruction.executable = true ∧ tape'.ins.all Instruction.executable = true) ↔
      tree.runnable = true ∧ ¬ tape.Fuses := by
  obtain ⟨code, hins, hcode⟩ := executable_produceTree hproduce
  have htree : tape.ins.all Instruction.executable = tree.runnable := by
    rw [hins, ← hcode]
    rfl
  rw [htree]
  exact and_congr_right fun hrunnable =>
    optimize_executable_iff hoptimize (htree.trans hrunnable)

/-- Pairs that are looked for one after the other. -/
theorem not_pairFound_of_all {known : Nat → String → Bool} {tape : List Instruction}
    (h : (List.range tape.length).all (fun i => tape[i]?.all fun first => tape[i + 1]?.all fun second =>
      first.op ≠ .PUSH || second.op ≠ .RES ||
        !sameOperand (first.arg.unlessKnown (known i)) second.arg) = true) :
    ¬ PairFound known tape := by
  rintro ⟨i, first, second, hpair, hsame⟩
  have hi : i < tape.length := (List.getElem?_eq_some_iff.mp hpair.first_at).1
  have hfree := List.all_eq_true.mp h i (List.mem_range.mpr hi)
  rw [hpair.first_at, hpair.second_at] at hfree
  simp [hpair.first_op, hpair.second_op, hsame] at hfree

/-- `while x a[i] = f(y)` -/
def storeInWhile : RegisteredTree :=
  .fileLevelStatementList ⟨none, [], [], [], [.whileStatement (.word "while" 1)
    (.identifier (.word "x" 1)) (.assignmentExpression (.word "=" 1)
      (.complex (.identifier (.word "a" 1)) [.arrayIndex (.word "[" 1) (.identifier (.word "i" 1))])
      (.postfixExpression (.identifier (.word "f" 1))
        [.fncall (.word "(" 1) (some (.identifier (.word "y" 1)))]))]⟩

theorem instructions_executable_store : ∃ tape tape' n,
    produceTree storeInWhile Tape.create = some (n, tape) ∧ optimize tape = some tape' ∧
      tape.ins.length = 15 ∧ tape.ins.all Instruction.executable = true ∧
        tape'.ins.all Instruction.executable = true := by
  refine ⟨_, _, _, rfl, rfl, rfl, ?_⟩
  refine (instructions_executable_iff
    (show produceTree storeInWhile Tape.create = some _ from rfl) rfl).mpr ⟨rfl, ?_⟩
  apply not_pairFound_of_all
  decide +kernel

/-- `!x` -/
def notcStatement : RegisteredTree :=
  .fileLevelStatementList ⟨none, [], [], [],
    [.unaryExpression ⟨.EXCLAIM, 1, 0, "!"⟩ .notc (.identifier (.word "x" 1))]⟩

/-- The machine does not dispatch `NOTC`. -/
theorem not_instructions_executable : ¬ ∀ (tree : RegisteredTree) (tape tape' : Tape) (n : Int),
    produceTree tree Tape.create = some (n, tape) → optimize tape = some tape' →
      tape.ins.all Instruction.executable = true ∧
        tape'.ins.all Instruction.executable = true := by
  intro h
  have hexec := (h notcStatement _ _ _ rfl rfl).1
  cases hexec

end JeffVm
