import JeffVm.Declarations
import JeffVm.JumpRanges

/-!
# What the optimizer reads

The passes as loops over indices, which read the tape through `tape_get`. Only `optimizer_JmpRes`
follows a jump, and looks at the instruction before its target.
-/

set_option autoImplicit false

namespace JeffVm

open Editing

/-! ## The passes as loops -/

/-- The rounds of a loop from index `i` on, `n` of them. One that fails has read outside. -/
def passLoop (round : Nat → Option Adjustments) : Nat → Nat → Option Adjustments
  | _, 0 => some []
  | i, n + 1 =>
    match round i, passLoop round (i + 1) n with
    | some as, some bs => some (as ++ bs)
    | _, _ => none

/-- How a pass goes over the tape: by single instructions, by an instruction and the one or the
two before it, or as `optimizer_JmpRes` does. -/
inductive Pass where
  | each (round : List Instruction → Nat → Instruction → Adjustments)
  | pairs (round : List Instruction → Nat → Instruction → Instruction → Adjustments)
  | triples (round : List Instruction → Nat → Instruction → Instruction → Instruction → Adjustments)
  | jmpRes

def eachRead (tape : List Instruction) (round : Nat → Instruction → Adjustments) (i : Nat) :
    Option Adjustments :=
  (tapeGet tape i).map (round i)

def pairRead (tape : List Instruction)
    (round : Nat → Instruction → Instruction → Option Adjustments) (i : Nat) : Option Adjustments := do
  let first ← tapeGet tape (i - 1)
  let second ← tapeGet tape i
  round i first second

def tripleRead (tape : List Instruction)
    (round : Nat → Instruction → Instruction → Instruction → Adjustments) (i : Nat) :
    Option Adjustments := do
  let first ← tapeGet tape (i - 2)
  let second ← tapeGet tape (i - 1)
  let third ← tapeGet tape i
  some (round i first second third)

/-- `for (i = start + k; i < end; i++)`, with the instructions that a round gets. -/
def Pass.run (tape : List Instruction) (start stop : Nat) : Pass → Option Adjustments
  | .each round => passLoop (eachRead tape (round tape)) start (stop - start)
  | .pairs round =>
    passLoop (pairRead tape fun i first second => some (round tape i first second)) (start + 1)
      (stop - (start + 1))
  | .triples round => passLoop (tripleRead tape (round tape)) (start + 2) (stop - (start + 2))
  | .jmpRes =>
    passLoop (pairRead tape (roundJmpRes tape)) (start + 1) (stop - (start + 1))

section

variable {tape pre rest : List Instruction} {first second third ins : Instruction}

theorem tapeGet_append (pre : List Instruction) (ins : Instruction) (rest : List Instruction) :
    tapeGet (pre ++ ins :: rest) pre.length = some ins := by
  simp [tapeGet]

theorem passLoop_succ {round : Nat → Option Adjustments} {i n : Nat} {as bs : Adjustments}
    (has : round i = some as) (hbs : passLoop round (i + 1) n = some bs) :
    passLoop round i (n + 1) = some (as ++ bs) := by
  rw [passLoop, has, hbs]

theorem each_loop (round : Nat → Instruction → Adjustments) : ∀ (rest pre : List Instruction),
    tape = pre ++ rest →
      passLoop (eachRead tape round) pre.length rest.length = some (eachRound round pre.length rest)
  | [], pre, _ => rfl
  | ins :: rest, pre, htape => by
    have hget : tapeGet tape pre.length = some ins := htape ▸ tapeGet_append pre ins rest
    have hrest := each_loop round rest (pre ++ [ins]) (by rw [htape, List.append_assoc]; rfl)
    rw [List.length_append, List.length_singleton] at hrest
    exact passLoop_succ (by rw [eachRead, hget, Option.map_some]) hrest

theorem split_second (htape : tape = pre ++ first :: second :: rest) :
    tape = (pre ++ [first]) ++ second :: rest := by
  rw [htape, List.append_assoc]
  rfl

/-- The round behind `pre ++ [first]` gets `first` and the instruction behind it. -/
theorem pairRead_here (round : Nat → Instruction → Instruction → Option Adjustments)
    (htape : tape = pre ++ first :: second :: rest) :
    pairRead tape round (pre.length + 1) = round (pre.length + 1) first second := by
  have hfirst : tapeGet tape pre.length = some first := htape ▸ tapeGet_append pre first _
  have hsecond : tapeGet tape ((pre ++ [first]).length : Int) = some second :=
    split_second htape ▸ tapeGet_append (pre ++ [first]) second rest
  rw [List.length_append, List.length_singleton] at hsecond
  have hindex : ((pre.length + 1 : Nat) : Int) - 1 = pre.length := by omega
  rw [pairRead, hindex, hfirst, hsecond]
  rfl

theorem pairs_loop (round : Nat → Instruction → Instruction → Adjustments) :
    ∀ (rest pre : List Instruction) (first : Instruction), tape = pre ++ first :: rest →
      passLoop (pairRead tape fun i first second => some (round i first second)) (pre.length + 1)
        rest.length = some (pairRounds round (pre.length + 1) (first :: rest))
  | [], pre, first, _ => rfl
  | second :: rest, pre, first, htape => by
    have hrest := pairs_loop round rest (pre ++ [first]) second (split_second htape)
    rw [List.length_append, List.length_singleton] at hrest
    exact passLoop_succ (pairRead_here _ htape) hrest

theorem jmpRes_loop : ∀ (rest pre : List Instruction) (first : Instruction),
    tape = pre ++ first :: rest →
      passLoop (pairRead tape (roundJmpRes tape)) (pre.length + 1) rest.length =
        optimizerJmpResFrom tape (pre.length + 1) (first :: rest)
  | [], pre, first, _ => rfl
  | second :: rest, pre, first, htape => by
    have hrest := jmpRes_loop rest (pre ++ [first]) second (split_second htape)
    have hread := pairRead_here (roundJmpRes tape) htape
    rw [List.length_append, List.length_singleton] at hrest
    cases hround : roundJmpRes tape (pre.length + 1) first second with
    | none => simp only [List.length_cons, passLoop, optimizerJmpResFrom, hread, hround]
    | some as =>
      cases hafter : optimizerJmpResFrom tape (pre.length + 1 + 1) (second :: rest) <;>
        simp only [List.length_cons, passLoop, optimizerJmpResFrom, hread, hround, hrest, hafter]

theorem tripleRead_here (round : Nat → Instruction → Instruction → Instruction → Adjustments)
    (htape : tape = pre ++ first :: second :: third :: rest) :
    tripleRead tape round (pre.length + 2) = some (round (pre.length + 2) first second third) := by
  have hfirst : tapeGet tape pre.length = some first := htape ▸ tapeGet_append pre first _
  have hsplit := split_second htape
  have hsecond : tapeGet tape ((pre ++ [first]).length : Int) = some second :=
    hsplit ▸ tapeGet_append (pre ++ [first]) second _
  have hthird : tapeGet tape ((pre ++ [first] ++ [second]).length : Int) = some third :=
    split_second hsplit ▸ tapeGet_append (pre ++ [first] ++ [second]) third rest
  simp only [List.length_append, List.length_singleton] at hsecond hthird
  have hindex : ((pre.length + 2 : Nat) : Int) - 2 = pre.length := by omega
  have hindex' : ((pre.length + 2 : Nat) : Int) - 1 = (pre.length + 1 : Nat) := by omega
  rw [tripleRead, hindex, hindex', hfirst, hsecond]
  change (tapeGet tape ((pre.length + 1 + 1 : Nat) : Int)).bind _ = _
  rw [hthird]
  rfl

theorem triples_loop (round : Nat → Instruction → Instruction → Instruction → Adjustments) :
    ∀ (rest pre : List Instruction) (first second : Instruction),
      tape = pre ++ first :: second :: rest →
        passLoop (tripleRead tape round) (pre.length + 2) rest.length =
          some (tripleRounds round (pre.length + 2) (first :: second :: rest))
  | [], pre, first, second, _ => rfl
  | third :: rest, pre, first, second, htape => by
    have hrest := triples_loop round rest (pre ++ [first]) second third (split_second htape)
    rw [List.length_append, List.length_singleton, Nat.add_right_comm] at hrest
    exact passLoop_succ (tripleRead_here round htape) hrest

end

namespace Pass

theorem run_each (round : List Instruction → Nat → Instruction → Adjustments)
    (tape : List Instruction) :
    (Pass.each round).run tape 0 tape.length = some (eachRound (round tape) 0 tape) :=
  each_loop (round tape) tape [] rfl

theorem run_pairs (round : List Instruction → Nat → Instruction → Instruction → Adjustments) :
    ∀ tape : List Instruction,
      (Pass.pairs round).run tape 0 tape.length = some (pairRounds (round tape) 1 tape)
  | [] => rfl
  | first :: rest => pairs_loop (round (first :: rest)) rest [] first rfl

theorem run_triples
    (round : List Instruction → Nat → Instruction → Instruction → Instruction → Adjustments) :
    ∀ tape : List Instruction,
      (Pass.triples round).run tape 0 tape.length = some (tripleRounds (round tape) 2 tape)
  | [] => rfl
  | [_] => rfl
  | first :: second :: rest => triples_loop (round (first :: second :: rest)) rest [] first second rfl

theorem run_jmpRes : ∀ tape : List Instruction,
    Pass.jmpRes.run tape 0 tape.length = optimizerJmpRes tape
  | [] => rfl
  | first :: rest => jmpRes_loop rest [] first rfl

end Pass

/-- The registered passes are such loops, from 0 to the size of the tape. -/
theorem optimizers_run {opt : List Instruction → Option Adjustments} (hopt : opt ∈ optimizers) :
    ∃ p : Pass, ∀ tape, p.run tape 0 tape.length = opt tape := by
  simp only [optimizers, List.mem_cons, List.not_mem_nil, or_false] at hopt
  rcases hopt with rfl | rfl | rfl | rfl | rfl | rfl | rfl | rfl | rfl | rfl | rfl | rfl | rfl |
    rfl | rfl
  case inr.inr.inl => exact ⟨.jmpRes, Pass.run_jmpRes⟩
  all_goals first
    | exact ⟨.pairs _, Pass.run_pairs _⟩
    | exact ⟨.triples _, Pass.run_triples _⟩
    | exact ⟨.each _, Pass.run_each _⟩

/-! ## What `_oh_resolve` looks up -/

/-- The lists `old_index` and `new_index` that the first loop of `_oh_resolve` makes. -/
structure Adjustments.Indexed (as : Adjustments) (old : List Instruction) (r : Resolving) : Prop where
  oldIndex : r.oldIndex = (edited as.edit 0 old).map Prod.fst
  newIndex : r.newIndex = as.newIndices 0 old 0

/-- The second loop of `_oh_resolve` finds an entry for every goto of the new tape. -/
def Adjustments.FindsEntries (as : Adjustments) (old : List Instruction) : Prop :=
  ∀ r : Resolving, as.Indexed old r → ∀ j x, ((edited as.edit 0 old).map Prod.snd)[j]? = some x →
    (r.retarget j x).isSome = true

/-- A goto whose entries are found goes to an instruction of the old tape or to its end. -/
theorem inside_of_retarget {as : Adjustments} {old : List Instruction} {r : Resolving} {i j : Nat}
    {x : Instruction} (hr : as.Indexed old r) (hi : r.oldIndex[j]? = some i)
    (hgoto : x.op.isGoto = true) (h : (r.retarget j x).isSome = true) :
    ∃ v : Int, x.pint = some v ∧ 0 ≤ i + v ∧ i + v < old.length := by
  rw [Resolving.retarget, if_pos hgoto, hi] at h
  cases hpint : x.pint with
  | none =>
    rw [hpint] at h
    cases h
  | some v =>
    rw [hpint] at h
    refine ⟨v, rfl, ?_⟩
    dsimp only at h
    by_cases hlow : 0 ≤ (i : Int) + v
    · rw [if_pos hlow, Option.isSome_map, hr.newIndex, Adjustments.newIndices_zero,
        Option.isSome_map] at h
      obtain ⟨ins, hins⟩ := Option.isSome_iff_exists.mp h
      have hlt := (List.getElem?_eq_some_iff.mp hins).1
      omega
    · rw [if_neg hlow] at h
      cases h

theorem findsEntries_iff {t : Tape} {as : Adjustments} :
    as.FindsEntries t.ins ↔ as.JumpsInside t.ins := by
  constructor
  · intro h i ins x hins hedit hgoto
    have hat := getElem?_position hins hedit
    let r : Resolving :=
      ⟨Tape.create, (edited as.edit 0 t.ins).map Prod.fst, as.newIndices 0 t.ins 0⟩
    have hr : as.Indexed t.ins r := ⟨rfl, rfl⟩
    apply inside_of_retarget hr (j := position as.edit t.ins i) ?_ hgoto
    · apply h r hr
      rw [List.getElem?_map, hat]
      rfl
    · change ((edited as.edit 0 t.ins).map Prod.fst)[_]? = some i
      rw [List.getElem?_map, hat]
      rfl
  · intro h r hr j x hx
    obtain ⟨y, hy⟩ := retarget_some h hr.oldIndex hr.newIndex hx
    rw [hy]
    rfl

/-! ## When the passes stay inside -/

/-- A pass reads instructions of the tape only, and `_oh_resolve` finds the entries that it looks
up after the pass. -/
def StaysInside (t : Tape) (opt : List Instruction → Option Adjustments) : Prop :=
  ∃ p : Pass, (∀ tape, p.run tape 0 tape.length = opt tape) ∧
    ∃ as, p.run t.ins 0 t.size = some as ∧ as.FindsEntries t.ins

/-- The target of each goto is behind an instruction of the tape. -/
def Tape.GotosInside (t : Tape) : Prop :=
  ∀ (i : Nat) (ins : Instruction), t.ins[i]? = some ins → ins.op.isGoto = true →
    ∃ v, ins.pint = some v ∧ 0 ≤ i + v ∧ i + v < t.ins.length

section

variable {t : Tape} {opt : List Instruction → Option Adjustments} {tape : List Instruction}

theorem staysInside_iff (hopt : opt ∈ optimizers) :
    StaysInside t opt ↔ ∃ as, opt t.ins = some as ∧ as.JumpsInside t.ins := by
  constructor
  · rintro ⟨p, hp, as, has, hfinds⟩
    exact ⟨as, (hp t.ins).symm.trans has, findsEntries_iff.mp hfinds⟩
  · rintro ⟨as, has, hjumps⟩
    obtain ⟨p, hp⟩ := optimizers_run hopt
    exact ⟨p, hp, as, (hp t.ins).trans has, findsEntries_iff.mpr hjumps⟩

theorem roundJmpRes_of_some : ∀ {rest : List Instruction} {s : Nat} {as : Adjustments},
    optimizerJmpResFrom tape s rest = some as →
      ∀ i first second, rest[i]? = some first → rest[i + 1]? = some second →
        ∃ bs, roundJmpRes tape (s + i) first second = some bs
  | [], s, as, _, i, first, second, hfirst, _ => by cases hfirst
  | [_], s, as, _, i, first, second, _, hsecond => by cases i <;> cases hsecond
  | a :: b :: rest, s, as, h, i, first, second, hfirst, hsecond => by
    rw [optimizerJmpResFrom] at h
    split at h
    · next bs cs hround hfrom =>
      cases i with
      | zero =>
        cases hfirst
        cases hsecond
        exact ⟨bs, hround⟩
      | succ i =>
        rw [← Nat.add_assoc, Nat.add_right_comm]
        exact roundJmpRes_of_some hfrom i first second hfirst hsecond
    · cases h

theorem loopsInside_of_some {as : Adjustments} (h : optimizerJmpRes t.ins = some as) :
    t.LoopsInside := by
  intro i first second hfirst hsecond hset hjmp v hv hneg
  obtain ⟨bs, hround⟩ := roundJmpRes_of_some h i first second hfirst hsecond
  have hops : (first.op == .SET && second.op == .JMP) = true := by rw [hset, hjmp]; rfl
  rw [roundJmpRes, if_pos hops, hv] at hround
  dsimp only at hround
  rw [if_neg (Int.not_le.mpr hneg)] at hround
  by_contra hlow
  have hparent : tapeGet t.ins (((1 + i : Nat) : Int) + v - 1) = none := by
    rw [tapeGet, if_neg]
    omega
  rw [hparent] at hround
  cases hround

/-- `optimizer_Nil` leaves the gotos alone. -/
theorem nil_edit_goto {i : Nat} {ins : Instruction} (hins : tape[i]? = some ins)
    (hgoto : ins.op.isGoto = true) : (optimizerNil tape).edit i ins = some ins := by
  have hnone : (optimizerNil tape).lookup i = none := by
    cases hlookup : (optimizerNil tape).lookup i with
    | none => rfl
    | some a =>
      obtain ⟨k, ins', hins', hround⟩ :=
        mem_eachRound.mp (Adjustments.mem_of_lookup hlookup)
      split at hround
      · next hop =>
        obtain ⟨rfl, -⟩ := Prod.mk.inj (List.mem_singleton.mp hround)
        rw [Nat.zero_add] at hins
        obtain rfl := Option.some.inj (hins.symm.trans hins')
        simp only [Bool.and_eq_true, Bool.or_eq_true, beq_iff_eq] at hop
        rcases hop.1 with hop | hop
        · rw [hop] at hgoto
          cases hgoto
        · rw [hop] at hgoto
          cases hgoto
      · cases hround
  rw [Adjustments.edit, hnone]
  rfl

/-- All registered passes stay inside a tape just when the gotos do, and no jump behind a `SET`
goes back to the second instruction of the tape or the first one. -/
theorem all_stay_inside_iff :
    (∀ opt ∈ optimizers, StaysInside t opt) ↔ t.LoopsInside ∧ t.GotosInside := by
  constructor
  · intro h
    constructor
    · have hmem : optimizerJmpRes ∈ optimizers := by simp [optimizers]
      obtain ⟨as, has, -⟩ := (staysInside_iff hmem).mp (h _ hmem)
      exact loopsInside_of_some has
    · intro i ins hins hgoto
      have hmem : some ∘ optimizerNil ∈ optimizers := by simp [optimizers]
      obtain ⟨as, has, hjumps⟩ := (staysInside_iff hmem).mp (h _ hmem)
      obtain rfl := Option.some.inj has
      exact hjumps i ins ins hins (nil_edit_goto hins hgoto) hgoto
  · rintro ⟨hloops, hgotos⟩ opt hopt
    rw [staysInside_iff hopt]
    obtain ⟨as, has⟩ := Tape.pass_some hopt hgotos fun _ => hloops
    refine ⟨as, has, fun i ins x hins hedit hgoto => ?_⟩
    obtain rfl := (noGotos_optimizers hopt has).edit hedit hgoto
    exact hgotos i x hins hgoto

end

/-! ## Where the jumps of a file go back to -/

/-- A jump back at index `off` goes behind the second instruction, or it is the one at the index
`loop` and goes to the second instruction. -/
def Item.BackAt (loop : Option Nat) (off : Nat) (item : Item) : Prop :=
  item.ins.op.isJump = true → ∀ d : Int, item.ins.arg = .val (.int d) →
    0 ≤ d ∨ 2 ≤ off + 1 + d ∨ loop = some off ∧ off + 1 + d = 1

theorem Item.backAt_jump {loop : Option Nat} {off : Nat} {op : Op} {n : Int} (h : 0 ≤ n) :
    (Item.jump op n).BackAt loop off := by
  rintro - d ⟨⟩
  exact .inl h

theorem Item.backAt_op {loop : Option Nat} {off : Nat} {op : Op} :
    (Item.op op).BackAt loop off := by
  rintro - d ⟨⟩

theorem Item.backAt_named {loop : Option Nat} {off : Nat} {op : Op} {id : String} :
    (Item.named op id).BackAt loop off := by
  rintro - d ⟨⟩

/-- Of all items, the first one at index `off`. -/
def BackAll (loop : Option Nat) : Nat → List Item → Prop
  | _, [] => True
  | off, item :: items => item.BackAt loop off ∧ BackAll loop (off + 1) items

namespace BackAll

variable {loop loop' : Option Nat}

@[simp] theorem nil (loop : Option Nat) (off : Nat) : BackAll loop off [] := trivial

@[simp] theorem cons {off : Nat} {item : Item} {items : List Item} :
    BackAll loop off (item :: items) ↔ item.BackAt loop off ∧ BackAll loop (off + 1) items := Iff.rfl

@[simp] theorem append {xs ys : List Item} : ∀ {off : Nat},
    BackAll loop off (xs ++ ys) ↔ BackAll loop off xs ∧ BackAll loop (off + xs.length) ys := by
  induction xs with
  | nil => simp
  | cons x xs ih =>
    intro off
    simp only [List.cons_append, cons, ih, List.length_cons, and_assoc]
    rw [show off + 1 + xs.length = off + (xs.length + 1) by omega]

theorem iff_getElem {items : List Item} : ∀ {off : Nat}, BackAll loop off items ↔
    ∀ (i : Nat) (item : Item), items[i]? = some item → item.BackAt loop (off + i) := by
  induction items with
  | nil => simp
  | cons x xs ih =>
    intro off
    rw [cons, ih]
    constructor
    · rintro ⟨hx, hxs⟩ i item hi
      cases i with
      | zero =>
        cases hi
        exact hx
      | succ i =>
        rw [show off + (i + 1) = off + 1 + i by omega]
        exact hxs i item hi
    · intro h
      refine ⟨h 0 x rfl, fun i item hi => ?_⟩
      rw [show off + 1 + i = off + (i + 1) by omega]
      exact h (i + 1) item hi

/-- Behind the first instruction no jump of the code goes back too far. -/
theorem inside {items : List Item} (h : BackAll loop 0 items) {off : Nat} (hoff : 1 ≤ off) :
    BackAll loop' off items := by
  rw [iff_getElem] at h ⊢
  intro i item hi hjump d hd
  rcases h i item hi hjump d hd with hpos | hlow | ⟨-, hone⟩
  · exact .inl hpos
  · refine .inr (.inl ?_)
    omega
  · refine .inr (.inl ?_)
    omega

theorem both {xs ys : List Item} (hx : BackAll loop 0 xs) (hy : BackAll loop' 0 ys) :
    BackAll (if xs.length = 0 then loop' else loop) 0 (xs ++ ys) := by
  cases xs with
  | nil => exact hy
  | cons x xs => exact append.mpr ⟨hx, hy.inside (by rw [List.length_cons]; omega)⟩

theorem settle {items : List Item} {off : Nat} (h : BackAll loop off items) :
    BackAll loop off (Item.settleAll items) := by
  rw [iff_getElem] at h ⊢
  intro i item hi
  rw [Item.settleAll, List.getElem?_map, Option.map_eq_some_iff] at hi
  obtain ⟨old, hold, rfl⟩ := hi
  exact h i old hold

/-- The patched jumps go on to the end of the loop, or back to the position for `continue`. -/
theorem patch {items : List Item} (h : BackAll loop 0 items) {brk cont : Nat → Int} {off : Nat}
    (hoff : 1 ≤ off) (hbrk : ∀ i < items.length, 0 ≤ brk i)
    (hcont : ∀ i < items.length, 2 ≤ off + i + 1 + cont i) :
    BackAll loop' off (patchItems brk cont items) := by
  have hinside : BackAll loop' off items := h.inside hoff
  rw [iff_getElem] at hinside ⊢
  intro i item hi
  rw [patchItems, List.getElem?_mapIdx, Option.map_eq_some_iff] at hi
  obtain ⟨old, hold, rfl⟩ := hi
  have hlt : i < items.length := (List.getElem?_eq_some_iff.mp hold).1
  have hsame := hinside i old hold
  simp only [Item.BackAt, patchItem, patchIns] at hsame ⊢
  split
  · exact hsame
  · split
    · rintro - d ⟨⟩
      exact .inl (hbrk i hlt)
    · split
      · rintro - d ⟨⟩
        refine .inr (.inl ?_)
        have hlow := hcont i hlt
        push_cast
        omega
      · exact hsame

end BackAll

theorem isJump_of_plain {ins : Instruction} (h : ins.isPlain = true) : ins.op.isJump = false := by
  obtain ⟨op, arg⟩ := ins
  cases op <;> first | rfl | exact absurd h Bool.false_ne_true

namespace Code

mutual

/-- The index of the jump back of the loop that the code begins with, if it begins with one whose
condition comes right behind the `NBLK`: a `while`, or a `for` whose init has no code. -/
def firstLoop : Code → Option Nat
  | seq a b => if a.size = 0 then firstLoop b else firstLoop a
  | ifThen branches => firstLoopBranches branches
  | ifElse branches _ => firstLoopBranches branches
  | whileLoop condition body => some (condition.size + body.size + 2)
  | forLoop init condition inc body =>
    if init.size = 0 then some (condition.size + body.size + inc.size + 2) else none
  | _ => none

def firstLoopBranches : Branches → Option Nat
  | .last condition _ => firstLoop condition
  | .more condition _ _ => firstLoop condition

end

mutual

theorem back_emit : ∀ c : Code, c.allPlain Instruction.isPlain = true →
    BackAll c.firstLoop 0 c.emit
  | nil, _ => trivial
  | plain ins, h => by
    refine ⟨fun hjump => ?_, trivial⟩
    exact absurd ((isJump_of_plain h).symm.trans hjump) Bool.false_ne_true
  | brk .break, _ => ⟨Item.backAt_jump (Int.le_refl 0), trivial⟩
  | brk .continue, _ => ⟨Item.backAt_jump (by decide), trivial⟩
  | seq a b, h => by
    rw [allPlain, Bool.and_eq_true] at h
    rw [emit, firstLoop]
    exact (back_emit a h.1).both (back_emit b h.2)
  | skip test body, h => by
    rw [emit]
    exact ⟨Item.backAt_jump (Int.natCast_nonneg _), (back_emit body h).inside (Nat.le_refl 1)⟩
  | choice test a b, h => by
    rw [allPlain, Bool.and_eq_true] at h
    have ha := back_emit a h.1
    have hb := back_emit b h.2
    rw [emit]
    simp only [List.cons_append, BackAll.cons, BackAll.append]
    refine ⟨Item.backAt_jump ?_, ha.inside ?_, Item.backAt_jump ?_, hb.inside ?_⟩
    all_goals omega
  | ifThen branches, h => by
    rw [emit, firstLoop]
    exact back_emitBranches branches h
  | ifElse branches otherwise, h => by
    rw [allPlain, Bool.and_eq_true] at h
    rw [emit, BackAll.append, firstLoop]
    refine ⟨back_emitBranches branches h.1, (back_emit otherwise h.2).inside ?_⟩
    have hpos : 0 < (emitBranches branches 0 (emit otherwise).length true).length := by
      cases branches <;> simp [emitBranches]
    omega
  | func body, h => by
    rw [emit]
    exact ⟨Item.backAt_jump (Int.natCast_nonneg _), (back_emit body h).inside (Nat.le_refl 1)⟩
  | tryCatch body assign handler, h => by
    simp only [allPlain, Bool.and_eq_true] at h
    have hbody := back_emit body h.1.1
    have hassign := back_emit assign h.1.2
    have hhandler := back_emit handler h.2
    rw [emit]
    simp only [List.length_append, List.length_cons, List.length_nil, BackAll.append, BackAll.cons,
      BackAll.nil, and_true]
    refine ⟨⟨⟨⟨⟨⟨Item.backAt_op, Item.backAt_jump ?_⟩, hbody.inside ?_⟩, Item.backAt_jump ?_⟩,
      hassign.inside ?_⟩, hhandler.inside ?_⟩, Item.backAt_op, Item.backAt_named, Item.backAt_op⟩
    all_goals omega
  | whileLoop condition body, h => by
    simp only [allPlain, Bool.and_eq_true] at h
    have hcondition := back_emit condition h.1
    have hbody := back_emit body h.2
    rw [emit, firstLoop]
    refine BackAll.settle ?_
    simp only [BackAll.append, BackAll.cons, BackAll.nil, and_true, List.length_append,
      List.length_cons, List.length_nil, length_patchItems]
    refine ⟨⟨⟨⟨Item.backAt_op, hcondition.inside ?_⟩, Item.backAt_jump ?_⟩,
      hbody.patch ?_ ?_ ?_⟩, ?_, Item.backAt_op⟩
    · omega
    · omega
    · omega
    · intro i hi
      omega
    · intro i hi
      omega
    · -- The jump back to the condition, behind the NBLK.
      rintro - d hd
      cases hd
      refine .inr (.inr ⟨?_, ?_⟩)
      · rw [size, size]
        congr 1
        omega
      · omega
  | forLoop init condition inc body, h => by
    simp only [allPlain, Bool.and_eq_true] at h
    have hinit := back_emit init h.1.1.1
    have hcondition := back_emit condition h.1.1.2
    have hinc := back_emit inc h.1.2
    have hbody := back_emit body h.2
    have hrepeated := hbody.both hinc
    rw [emit, firstLoop]
    refine BackAll.settle ?_
    simp only [BackAll.append, BackAll.cons, BackAll.nil, and_true, List.length_append,
      List.length_cons, List.length_nil, length_patchItems]
    refine ⟨⟨⟨⟨⟨Item.backAt_op, hinit.inside ?_⟩, hcondition.inside ?_⟩, Item.backAt_jump ?_⟩,
      hrepeated.patch ?_ ?_ ?_⟩, ?_, Item.backAt_op⟩
    · omega
    · omega
    · omega
    · omega
    · intro i hi
      rw [List.length_append] at hi
      omega
    · intro i hi
      omega
    · -- The jump back to the condition, behind the init.
      rintro - d hd
      cases hd
      by_cases hsize : init.size = 0
      · refine .inr (.inr ⟨?_, ?_⟩)
        · rw [if_pos hsize, size, size, size]
          rw [size] at hsize
          congr 1
          omega
        · rw [size] at hsize
          omega
      · rw [size] at hsize
        refine .inr (.inl ?_)
        omega
  | foreachLoop iterable lhs body, h => by
    simp only [allPlain, Bool.and_eq_true] at h
    have hiterable := back_emit iterable h.1.1
    have hlhs := back_emit lhs h.1.2
    have hbody := back_emit body h.2
    have hrepeated : BackAll none 0
        ([Item.op .DUP, .named .CALL nextFnName] ++ emit lhs ++ emit body) := by
      simp only [List.length_append, BackAll.append, BackAll.cons, BackAll.nil, and_true,
        List.length_cons, List.length_nil]
      refine ⟨⟨⟨Item.backAt_op, Item.backAt_named⟩, hlhs.inside ?_⟩, hbody.inside ?_⟩
      all_goals omega
    rw [emit]
    refine BackAll.settle ?_
    rw [BackAll.append, BackAll.append]
    refine ⟨⟨?_, hrepeated.patch ?_ ?_ ?_⟩, ?_⟩
    · simp only [BackAll.append, BackAll.cons, BackAll.nil, and_true, List.length_append,
        List.length_cons, List.length_nil]
      refine ⟨⟨⟨Item.backAt_op, hiterable.inside ?_⟩, Item.backAt_op, Item.backAt_named,
        Item.backAt_op⟩, Item.backAt_op, Item.backAt_named, Item.backAt_jump ?_⟩
      all_goals omega
    · simp only [List.length_append, List.length_cons, List.length_nil]
      omega
    · intro i hi
      omega
    · simp only [List.length_append, List.length_cons, List.length_nil]
      intro i hi
      omega
    · simp only [BackAll.cons, BackAll.nil, and_true, List.length_append, List.length_cons,
        List.length_nil, length_patchItems]
      refine ⟨?_, Item.backAt_op, Item.backAt_op⟩
      rintro - d hd
      cases hd
      refine .inr (.inl ?_)
      omega

theorem back_emitBranches : ∀ (br : Branches) {tail after : Nat} {jumps : Bool},
    allPlainBranches Instruction.isPlain br = true →
      BackAll (firstLoopBranches br) 0 (emitBranches br tail after jumps)
  | .last condition body, tail, after, jumps, h => by
    rw [allPlainBranches, Bool.and_eq_true] at h
    have hcondition := back_emit condition h.1
    have hbody := back_emit body h.2
    rw [emitBranches, firstLoopBranches]
    cases jumps
    all_goals
      simp only [BackAll.append, BackAll.cons, BackAll.nil, and_true, if_true, Bool.false_eq_true,
        if_false]
    · exact ⟨hcondition, Item.backAt_jump (by omega), hbody.inside (by omega)⟩
    · exact ⟨⟨hcondition, Item.backAt_jump (by omega), hbody.inside (by omega)⟩,
        Item.backAt_jump (by omega)⟩
  | .more condition body rest, tail, after, jumps, h => by
    simp only [allPlainBranches, Bool.and_eq_true] at h
    have hcondition := back_emit condition h.1.1
    have hbody := back_emit body h.1.2
    have hrest := @back_emitBranches rest ((emit body).length + jumps.toNat + tail)
      ((emit body).length + jumps.toNat + after) true h.2
    rw [emitBranches, firstLoopBranches]
    cases jumps
    all_goals
      simp only [BackAll.append, BackAll.cons, BackAll.nil, and_true, if_true, Bool.false_eq_true,
        if_false]
    · exact ⟨⟨hcondition, Item.backAt_jump (by omega), hrest.inside (by omega)⟩,
        hbody.inside (by simp; omega)⟩
    · exact ⟨⟨⟨hcondition, Item.backAt_jump (by omega), hrest.inside (by omega)⟩,
        hbody.inside (by simp; omega)⟩, Item.backAt_jump (by omega)⟩

end

theorem settled_at {pre rest : List Item} {item : Item} {k : Nat} (hk : k = pre.length) :
    (Item.settleAll (pre ++ item :: rest))[k]? = some item.settle := by
  subst hk
  simp [Item.settleAll]

mutual

theorem jump_of_firstLoop : ∀ (c : Code) {k : Nat}, c.firstLoop = some k →
    ∃ item, c.emit[k]? = some item ∧ item.ins = ⟨.JMP, .val (.int (-k))⟩
  | nil, k, h => by cases h
  | plain ins, k, h => by cases h
  | brk type, k, h => by cases h
  | skip test body, k, h => by cases h
  | choice test a b, k, h => by cases h
  | func body, k, h => by cases h
  | tryCatch body assign handler, k, h => by cases h
  | foreachLoop iterable lhs body, k, h => by cases h
  | seq a b, k, h => by
    rw [firstLoop] at h
    rw [emit]
    split at h
    · next hsize =>
      have hnil : a.emit = [] := List.length_eq_zero_iff.mp hsize
      rw [hnil]
      exact jump_of_firstLoop b h
    · obtain ⟨item, hitem, hins⟩ := jump_of_firstLoop a h
      refine ⟨item, ?_, hins⟩
      rw [List.getElem?_append_left (List.getElem?_eq_some_iff.mp hitem).1]
      exact hitem
  | ifThen branches, k, h => by
    rw [emit]
    exact jump_of_firstLoopBranches branches h
  | ifElse branches otherwise, k, h => by
    obtain ⟨item, hitem, hins⟩ := @jump_of_firstLoopBranches branches k 0
      (emit otherwise).length true h
    refine ⟨item, ?_, hins⟩
    rw [emit, List.getElem?_append_left (List.getElem?_eq_some_iff.mp hitem).1]
    exact hitem
  | whileLoop condition body, k, h => by
    cases h
    refine ⟨_, settled_at ?_, ?_⟩
    · simp only [List.length_append, List.length_cons, List.length_nil, length_patchItems, size]
      omega
    · simp only [Item.settle_ins, Item.jump, Item.plain_ins, size]
      congr 3
      omega
  | forLoop init condition inc body, k, h => by
    rw [firstLoop] at h
    split at h
    · next hsize =>
      cases h
      rw [size] at hsize
      refine ⟨_, settled_at ?_, ?_⟩
      · simp only [List.length_append, List.length_cons, List.length_nil, length_patchItems, size]
        omega
      · simp only [Item.settle_ins, Item.jump, Item.plain_ins, size]
        congr 3
        omega
    · cases h

theorem jump_of_firstLoopBranches : ∀ (br : Branches) {k tail after : Nat} {jumps : Bool},
    firstLoopBranches br = some k →
      ∃ item, (emitBranches br tail after jumps)[k]? = some item ∧
        item.ins = ⟨.JMP, .val (.int (-k))⟩
  | .last condition body, k, tail, after, jumps, h => by
    obtain ⟨item, hitem, hins⟩ := jump_of_firstLoop condition h
    refine ⟨item, ?_, hins⟩
    rw [emitBranches, List.append_assoc,
      List.getElem?_append_left (List.getElem?_eq_some_iff.mp hitem).1]
    exact hitem
  | .more condition body rest, k, tail, after, jumps, h => by
    obtain ⟨item, hitem, hins⟩ := jump_of_firstLoop condition h
    refine ⟨item, ?_, hins⟩
    simp only [emitBranches, List.append_assoc]
    rw [List.getElem?_append_left (List.getElem?_eq_some_iff.mp hitem).1]
    exact hitem

end

/-- The code begins with a loop, and sets a variable right before the jump back. -/
def BeginsWithSettingLoop (c : Code) : Prop :=
  ∃ k ins, c.firstLoop = some (k + 1) ∧ c.code[k]? = some ins ∧ ins.op = .SET

end Code

theorem isGoto_eq_isJump (op : Op) : op.isGoto = op.isJump := by
  cases op <;> rfl

section

variable {c : Code} {t : Tape}

/-- An operand of a jump of the code that goes back. -/
theorem back_of_getElem (hplain : c.allPlain Instruction.isPlain = true) {i : Nat}
    {ins : Instruction} (hins : c.code[i]? = some ins) (hjump : ins.op.isJump = true) {d : Int}
    (hd : ins.arg = .val (.int d)) :
    0 ≤ d ∨ 2 ≤ i + 1 + d ∨ c.firstLoop = some i ∧ i + 1 + d = 1 := by
  rw [Code.code, List.getElem?_map, Option.map_eq_some_iff] at hins
  obtain ⟨item, hitem, rfl⟩ := hins
  have hback := BackAll.iff_getElem.mp (Code.back_emit c hplain) i item hitem hjump d hd
  rwa [Nat.zero_add] at hback

theorem loopsInside_iff (hplain : c.allPlain Instruction.isPlain = true) (hcode : t.ins = c.code) :
    t.LoopsInside ↔ ¬ c.BeginsWithSettingLoop := by
  constructor
  · rintro hloops ⟨k, ins, hloop, hins, hset⟩
    obtain ⟨item, hitem, hjmp⟩ := Code.jump_of_firstLoop c hloop
    have hjump : t.ins[k + 1]? = some ⟨.JMP, .val (.int (-((k + 1 : Nat) : Int)))⟩ := by
      rw [hcode, Code.code, List.getElem?_map, hitem, Option.map_some, hjmp]
    have hlow := hloops k ins _ (hcode ▸ hins) hjump hset rfl _ rfl (by omega)
    omega
  · intro hbegins i first second hfirst hsecond hset hjmp v hv hneg
    have hjump : second.op.isJump = true := by rw [hjmp]; rfl
    have harg : second.arg = .val (.int v) := by
      unfold Instruction.pint at hv
      split at hv
      · next n harg =>
        rw [harg, Option.some.inj hv]
      · cases hv
    rw [hcode] at hfirst hsecond
    rcases back_of_getElem hplain hsecond hjump harg with hpos | hlow | ⟨hloop, -⟩
    · omega
    · omega
    · exact absurd ⟨i, first, hloop, hfirst, hset⟩ hbegins

theorem gotosInside_of_jumpsWithin (hplain : c.allPlain Instruction.isPlain = true)
    (hcode : t.ins = c.code) (h : JumpsWithin t.ins) : t.GotosInside := by
  intro i ins hins hgoto
  have hjump : ins.op.isJump = true := (isGoto_eq_isJump ins.op).symm.trans hgoto
  obtain ⟨d, hd, hlow, hhigh⟩ := h i ins hins hjump
  refine ⟨d, by rw [Instruction.pint, hd], ?_, by omega⟩
  rw [hcode] at hins
  rcases back_of_getElem hplain hins hjump hd with hpos | hback | ⟨-, hone⟩
  · omega
  · omega
  · omega

end

/-- The passes stay inside the tape of a file just when its gotos do, as they do without a
`continue` that no loop repeats, and the file does not begin with a loop that sets a variable
last. -/
theorem passes_stay_inside (tree : RegisteredTree) (tape : Tape) (n : Int)
    (hrun : produceTree tree Tape.create = some (n, tape)) :
    ((∀ opt ∈ optimizers, StaysInside tape opt) ↔
        tape.GotosInside ∧ ¬ (lowerTree tree).BeginsWithSettingLoop) ∧
      (¬ tree.ContinueBelow ExpressionTree.unrepeated → tape.GotosInside) := by
  obtain ⟨-, hins⟩ := generates_tree tree Tape.create n tape hrun
  have hcode : tape.ins = (lowerTree tree).code := hins
  have hplain := allPlain_tree tree
  constructor
  · rw [all_stay_inside_iff, loopsInside_iff hplain hcode, and_comm]
  · intro hcontinue
    exact gotosInside_of_jumpsWithin hplain hcode (hcode ▸ jumpsWithin_tree hcontinue)

/-- `x = 1`, in line `n` -/
def setStatement (n : Int) : ExpressionTree :=
  .assignmentExpression (.word "=" n) (.var false (.word "x" n)) (.constant ⟨.INTEGER, n, 0, "1"⟩)

/-- `while x { x = 1 }` -/
def settingLoop : ExpressionTree :=
  .whileStatement (.word "while" 1) (.identifier (.word "x" 1)) (.compoundStatement [setStatement 1])

/-- A file that sets the variable before the loop. -/
def loopBehind : RegisteredTree :=
  .fileLevelStatementList ⟨none, [], [], [], [setStatement 1, settingLoop]⟩

theorem no_continue_loopBehind : ¬ loopBehind.ContinueBelow ExpressionTree.unrepeated := by
  rintro ⟨part, hmem, hpart⟩
  have hparts : part = setStatement 1 ∨ part = settingLoop := by
    simpa [loopBehind, ModuleDef.parts] using hmem
  rcases hparts with rfl | rfl
  · cases hpart with
    | inPart hmem hpart =>
      obtain rfl := List.mem_singleton.mp hmem
      cases hpart with
      | inPart hmem hpart => cases hmem
  · cases hpart with
    | inPart hmem hpart =>
      obtain rfl := List.mem_singleton.mp hmem
      cases hpart with
      | inPart hmem hpart => cases hmem

theorem passes_stay_inside_loopBehind : ∃ n tape, produceTree loopBehind Tape.create = some (n, tape) ∧
    ∀ opt ∈ optimizers, StaysInside tape opt := by
  refine ⟨_, _, rfl, ?_⟩
  have hstay := passes_stay_inside loopBehind _ _ rfl
  refine hstay.1.mpr ⟨hstay.2 no_continue_loopBehind, ?_⟩
  rintro ⟨k, ins, hloop, -⟩
  cases hloop

/-- Where the loop comes first, `optimizer_JmpRes` looks at the instruction before its `NBLK`. -/
theorem not_passes_stay_inside : ¬ ∀ (module : ModuleDef) (tape : Tape) (n : Int),
    2 ≤ module.statements.length →
      produceTree (.fileLevelStatementList module) Tape.create = some (n, tape) →
        ∀ opt ∈ optimizers, StaysInside tape opt := by
  intro h
  have hmem : optimizerJmpRes ∈ optimizers := by simp [optimizers]
  have hstays := h ⟨none, [], [], [], [settingLoop, setStatement 2]⟩ _ _ (Nat.le_refl 2) rfl _ hmem
  obtain ⟨as, has, -⟩ := (staysInside_iff hmem).mp hstays
  cases has

end JeffVm
