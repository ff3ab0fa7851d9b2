import JeffVm.JumpRanges

/-!
# Levels of code

A quantity that each instruction changes by a fixed amount, such as the number of open blocks
or the height of the operand stack, has one level at each position of balanced code, whatever
path leads there. The exceptions are jumps that a patch loop sends out of an inner block.
-/

set_option autoImplicit false

namespace JeffVm

/-- A quantity with what each instruction adds to it and needs of it; an open block adds
`block`, a value on the operand stack `value`. -/
structure Weight where
  gain : Instruction → Int
  need : Instruction → Int
  block : Nat
  value : Nat
  newBlock : gain ⟨.NBLK, .noArg⟩ = block ∧ need ⟨.NBLK, .noArg⟩ = 0
  backBlock : gain ⟨.BBLK, .noArg⟩ = -block ∧ need ⟨.BBLK, .noArg⟩ = block
  jump : ∀ op n, Op.isJump op = true → op ≠ .CTCH →
    gain ⟨op, .val (.int n)⟩ = 0 ∧ need ⟨op, .val (.int n)⟩ = 0
  setCatch : ∀ n, gain ⟨.CTCH, .val (.int n)⟩ = 0 ∧ need ⟨.CTCH, .val (.int n)⟩ = block
  nil : gain ⟨.RNIL, .noArg⟩ = 0 ∧ need ⟨.RNIL, .noArg⟩ = 0
  set : ∀ id, gain ⟨.SET, .id id⟩ = 0 ∧ need ⟨.SET, .id id⟩ = 0
  push : gain ⟨.PUSH, .noArg⟩ = value ∧ need ⟨.PUSH, .noArg⟩ = 0
  dup : gain ⟨.DUP, .noArg⟩ = value ∧ need ⟨.DUP, .noArg⟩ = value
  call : ∀ id, gain ⟨.CALL, .id id⟩ = -value ∧ need ⟨.CALL, .id id⟩ = value
  res : gain ⟨.RES, .noArg⟩ = -value ∧ need ⟨.RES, .noArg⟩ = value

theorem Weight.block_nonneg (W : Weight) : (0 : Int) ≤ W.block := Int.natCast_nonneg _

theorem Weight.value_nonneg (W : Weight) : (0 : Int) ≤ W.value := Int.natCast_nonneg _

namespace Instruction

/-- Where the operand of a jump at position `i` points. -/
def target (ins : Instruction) (i : Int) : List Int :=
  match ins.arg with
  | .val (.int d) => [i + 1 + d]
  | _ => []

/-- Where control goes from an instruction at position `i`. -/
def nexts (ins : Instruction) (i : Int) : List Int :=
  match ins.op with
  | .JMP => ins.target i
  | .IF => (i + 1) :: ins.target i
  | .IFN => (i + 1) :: ins.target i
  | .RET => []
  | .EXIT => []
  | .RAIS => []
  | _ => [i + 1]

/-- The catch position that an instruction at position `i` sets. -/
def handler (ins : Instruction) (i : Int) : List Int :=
  match ins.op with
  | .CTCH => ins.target i
  | _ => []

theorem nexts_of_plain {ins : Instruction} (h : ins.isPlain = true) {i j : Int}
    (hj : j ∈ ins.nexts i) : j = i + 1 := by
  obtain ⟨op, arg⟩ := ins
  cases op <;> simp_all [nexts, isPlain, Op.isSkeleton]

theorem handler_of_plain {ins : Instruction} (h : ins.isPlain = true) (i : Int) :
    ins.handler i = [] := by
  obtain ⟨op, arg⟩ := ins
  cases op <;> simp_all [handler, isPlain, Op.isSkeleton]

end Instruction

/-- An emitted instruction with the level at its position, if a path from the start of the
code can lead there. A `wild` jump is one of the wrong level, or waits for its patch loop. -/
structure Mark where
  item : Item
  level : Option Int
  wild : Bool

namespace Mark

def on (item : Item) (l : Int) : Mark := ⟨item, some l, false⟩

def settleAll (ms : List Mark) : List Mark := ms.map fun m => { m with item := m.item.settle }

/-- The patch loop of a loop whose repeated part has level `l`. -/
def patchAt (brk cont : Nat → Int) (l : Int) (i : Nat) (m : Mark) : Mark :=
  ⟨patchItem brk cont i m.item, m.level,
    if m.item.ins.looksLikeBreak then decide (m.level ≠ some l) else m.wild⟩

def patchAll (brk cont : Nat → Int) (l : Int) (ms : List Mark) : List Mark :=
  ms.mapIdx (patchAt brk cont l)

end Mark

namespace Code

/-- What the code adds in all. -/
def net (W : Weight) : Code → Int
  | nil => 0
  | plain ins => W.gain ins
  | brk _ => 0
  | seq a b => net W a + net W b
  | skip _ _ => 0
  | choice _ a _ => net W a
  | ifThen _ => 0
  | ifElse _ _ => 0
  | func _ => 0
  | tryCatch _ _ _ => 0
  | whileLoop _ _ => 0
  | forLoop _ _ _ _ => 0
  | foreachLoop _ _ _ => 0

mutual

/-- The instructions of the code, entered at level `l`. -/
def marks (W : Weight) : Code → Int → List Mark
  | nil, _ => []
  | plain ins, l => [.on (.plain ins) l]
  | brk type, l =>
    [⟨⟨⟨.JMP, .val (.int (breakOperand type))⟩, some type⟩, some l, type == .continue⟩]
  | seq a b, l => marks W a l ++ marks W b (l + net W a)
  | skip test body, l => .on (.jump test.op (emit body).length) l :: marks W body l
  | choice test a b, l =>
    .on (.jump test.op ((emit a).length + 1)) l :: marks W a l ++
      .on (.jump .JMP (emit b).length) (l + net W a) :: marks W b l
  | ifThen branches, l => marksBranches W branches 0 0 false l
  | ifElse branches otherwise, l =>
    marksBranches W branches 0 (emit otherwise).length true l ++ marks W otherwise l
  | func body, l =>
    .on (.jump .JMP (emit body).length) l :: (emit body).map fun item => ⟨item, none, false⟩
  | tryCatch body assign handler, l =>
    let m := l + W.block
    [.on (.op .NBLK) l, .on (.jump .CTCH ((emit body).length + 1)) m] ++ marks W body m ++
      [.on (.jump .JMP ((emit assign).length + (emit handler).length)) m] ++ marks W assign m ++
      marks W handler m ++
      [.on (.op .RNIL) m, .on (.named .SET "$try_goto") m, .on (.op .BBLK) m]
  | whileLoop condition body, l =>
    let m := l + W.block
    let c := emit condition
    let b := emit body
    Mark.settleAll ([.on (.op .NBLK) l] ++ marks W condition m ++
      [.on (.jump .IFN (b.length + 1)) m] ++
      Mark.patchAll (fun i => b.length - i) (fun i => -(i + 1)) m (marks W body m) ++
      [.on (.jump .JMP (-(1 + c.length + b.length + 1))) m, .on (.op .BBLK) m])
  | forLoop init condition inc body, l =>
    let m := l + W.block
    let c := emit condition
    let b := emit body
    let n := emit inc
    Mark.settleAll ([.on (.op .NBLK) l] ++ marks W init m ++ marks W condition m ++
      [.on (.jump .IFN (b.length + n.length + 1)) m] ++
      Mark.patchAll (fun i => b.length + n.length - i) (fun i => b.length - i - 1) m
        (marks W body m ++ marks W inc m) ++
      [.on (.jump .JMP (-(b.length + c.length + n.length + 1 + 1))) m, .on (.op .BBLK) m])
  | foreachLoop iterable lhs body, l =>
    let m := l + W.block
    let p := m + W.value
    let r := [Item.op .DUP, .named .CALL nextFnName] ++ emit lhs ++ emit body
    Mark.settleAll ([.on (.op .NBLK) l] ++ marks W iterable m ++
      [.on (.op .PUSH) m, .on (.named .CALL iterFnName) p, .on (.op .PUSH) m] ++
      [.on (.op .DUP) p, .on (.named .CALL hasNextFnName) (p + W.value),
        .on (.jump .IFN (r.length + 1)) p] ++
      Mark.patchAll (fun i => r.length - i) (fun i => r.length - i - 1) p
        ([.on (.op .DUP) p, .on (.named .CALL nextFnName) (p + W.value)] ++ marks W lhs p ++
          marks W body p) ++
      [.on (.jump .JMP (-(3 + r.length + 1))) p, .on (.op .RES) p, .on (.op .BBLK) m])

def marksBranches (W : Weight) : Branches → Nat → Nat → Bool → Int → List Mark
  | .last condition body, tail, after, jumps, l =>
    marks W condition l ++ .on (.jump .IFN ((emit body).length + jumps.toNat + tail)) l ::
      marks W body l ++ if jumps then [.on (.jump .JMP after) l] else []
  | .more condition body rest, tail, after, jumps, l =>
    let inner := marksBranches W rest ((emit body).length + jumps.toNat + tail)
      ((emit body).length + jumps.toNat + after) true l
    marks W condition l ++ .on (.jump .IF (emitBranches rest ((emit body).length + jumps.toNat + tail)
      ((emit body).length + jumps.toNat + after) true).length) l :: inner ++ marks W body l ++
      if jumps then [.on (.jump .JMP after) l] else []

end

mutual

/-- Entered at level `l`, the code needs no more than what is there, and its parts are as
balanced as the jumps around them ask. -/
def HasLevel (W : Weight) : Code → Int → Prop
  | nil, l => 0 ≤ l
  | plain ins, l => W.need ins ≤ l ∧ ins.isPlain = true
  | brk _, l => 0 ≤ l
  | seq a b, l => HasLevel W a l ∧ HasLevel W b (l + net W a)
  | skip _ body, l => 0 ≤ l ∧ HasLevel W body l ∧ net W body = 0
  | choice _ a b, l => 0 ≤ l ∧ 0 ≤ l + net W a ∧ HasLevel W a l ∧ HasLevel W b l ∧
      net W a = net W b
  | ifThen branches, l => 0 ≤ l ∧ HasLevelBranches W branches l
  | ifElse branches otherwise, l =>
    0 ≤ l ∧ HasLevelBranches W branches l ∧ HasLevel W otherwise l ∧ net W otherwise = 0
  | func _, l => 0 ≤ l
  | tryCatch body assign handler, l =>
    0 ≤ l ∧ HasLevel W body (l + W.block) ∧ net W body = 0 ∧ HasLevel W assign (l + W.block) ∧
      net W assign = 0 ∧ HasLevel W handler (l + W.block) ∧ net W handler = 0
  | whileLoop condition body, l =>
    0 ≤ l ∧ HasLevel W condition (l + W.block) ∧ net W condition = 0 ∧
      HasLevel W body (l + W.block) ∧ net W body = 0
  | forLoop init condition inc body, l =>
    0 ≤ l ∧ HasLevel W init (l + W.block) ∧ net W init = 0 ∧ HasLevel W condition (l + W.block) ∧
      net W condition = 0 ∧ HasLevel W inc (l + W.block) ∧ net W inc = 0 ∧
      HasLevel W body (l + W.block) ∧ net W body = 0
  | foreachLoop iterable lhs body, l =>
    0 ≤ l ∧ HasLevel W iterable (l + W.block) ∧ net W iterable = 0 ∧
      HasLevel W lhs (l + W.block + W.value) ∧ net W lhs = 0 ∧
      HasLevel W body (l + W.block + W.value) ∧ net W body = 0

def HasLevelBranches (W : Weight) : Branches → Int → Prop
  | .last condition body, l =>
    HasLevel W condition l ∧ net W condition = 0 ∧ HasLevel W body l ∧ net W body = 0
  | .more condition body rest, l =>
    HasLevel W condition l ∧ net W condition = 0 ∧ HasLevel W body l ∧ net W body = 0 ∧
      HasLevelBranches W rest l

end

end Code

/-! ## Marks and instructions -/

namespace Mark

@[simp] theorem on_item (item : Item) (l : Int) : (on item l).item = item := rfl
@[simp] theorem on_level (item : Item) (l : Int) : (on item l).level = some l := rfl
@[simp] theorem on_wild (item : Item) (l : Int) : (on item l).wild = false := rfl

@[simp] theorem length_settleAll (ms : List Mark) : (settleAll ms).length = ms.length := by
  simp [settleAll]

@[simp] theorem length_patchAll (brk cont : Nat → Int) (l : Int) (ms : List Mark) :
    (patchAll brk cont l ms).length = ms.length := by
  simp [patchAll]

theorem map_settleAll (ms : List Mark) :
    (settleAll ms).map Mark.item = Item.settleAll (ms.map Mark.item) := by
  simp [settleAll, Item.settleAll, Function.comp_def]

theorem map_patchAll (brk cont : Nat → Int) (l : Int) (ms : List Mark) :
    (patchAll brk cont l ms).map Mark.item = patchItems brk cont (ms.map Mark.item) := by
  apply List.ext_getElem?
  intro i
  simp only [patchAll, patchItems, List.getElem?_map, List.getElem?_mapIdx]
  cases ms[i]? <;> rfl

end Mark

namespace Code

variable {W : Weight}

mutual

theorem marks_item : ∀ (c : Code) (l : Int), (c.marks W l).map Mark.item = c.emit
  | nil, _ => rfl
  | plain _, _ => rfl
  | brk _, _ => rfl
  | seq a b, l => by simp [marks, emit, marks_item a, marks_item b]
  | skip test body, l => by simp [marks, emit, marks_item body]
  | choice test a b, l => by simp [marks, emit, marks_item a, marks_item b]
  | ifThen branches, l => by rw [marks, emit, marksBranches_item branches]
  | ifElse branches otherwise, l => by
    rw [marks, emit, List.map_append, marksBranches_item branches, marks_item otherwise]
  | func body, l => by simp [marks, emit, Function.comp_def]
  | tryCatch body assign handler, l => by
    simp [marks, emit, marks_item body, marks_item assign, marks_item handler]
  | whileLoop condition body, l => by
    simp [marks, emit, Mark.map_settleAll, Mark.map_patchAll, marks_item condition,
      marks_item body]
  | forLoop init condition inc body, l => by
    simp [marks, emit, Mark.map_settleAll, Mark.map_patchAll, marks_item init,
      marks_item condition, marks_item inc, marks_item body]
  | foreachLoop iterable lhs body, l => by
    simp [marks, emit, Mark.map_settleAll, Mark.map_patchAll, marks_item iterable,
      marks_item lhs, marks_item body]

theorem marksBranches_item : ∀ (br : Branches) (tail after : Nat) (jumps : Bool) (l : Int),
    (marksBranches W br tail after jumps l).map Mark.item = emitBranches br tail after jumps
  | .last condition body, tail, after, jumps, l => by
    cases jumps <;> simp [marksBranches, emitBranches, marks_item condition, marks_item body]
  | .more condition body rest, tail, after, jumps, l => by
    cases jumps <;>
      simp [marksBranches, emitBranches, marks_item condition, marks_item body,
        marksBranches_item rest]

end

@[simp] theorem length_marks (c : Code) (l : Int) : (c.marks W l).length = c.emit.length := by
  rw [← marks_item c l, List.length_map]

@[simp] theorem length_marksBranches (br : Branches) (tail after : Nat) (jumps : Bool) (l : Int) :
    (marksBranches W br tail after jumps l).length =
      (emitBranches br tail after jumps).length := by
  rw [← marksBranches_item br tail after jumps l, List.length_map]

end Code

/-! ## Levels fit together -/

/-- The levels of the positions from `off` on. -/
def Agrees (lev : Int → Option Int) : Int → List Mark → Prop
  | _, [] => True
  | off, m :: ms => lev off = m.level ∧ Agrees lev (off + 1) ms

namespace Agrees

variable {lev : Int → Option Int} {off : Int} {xs ys : List Mark}

@[simp] theorem nil (lev : Int → Option Int) (off : Int) : Agrees lev off [] := trivial

@[simp] theorem cons {m : Mark} :
    Agrees lev off (m :: xs) ↔ lev off = m.level ∧ Agrees lev (off + 1) xs := Iff.rfl

@[simp] theorem append : ∀ {off : Int},
    Agrees lev off (xs ++ ys) ↔ Agrees lev off xs ∧ Agrees lev (off + xs.length) ys := by
  induction xs with
  | nil => simp
  | cons x xs ih =>
    intro off
    simp only [List.cons_append, cons, ih, List.length_cons, and_assoc]
    rw [show off + 1 + (xs.length : Int) = off + ((xs.length + 1 : Nat) : Int) by push_cast; omega]

@[simp] theorem settleAll : ∀ {off : Int}, Agrees lev off (Mark.settleAll xs) ↔ Agrees lev off xs := by
  induction xs with
  | nil => exact Iff.rfl
  | cons x xs ih =>
    intro off
    exact and_congr Iff.rfl ih

theorem iff_getElem : ∀ {off : Int},
    Agrees lev off xs ↔ ∀ (i : Nat) (m : Mark), xs[i]? = some m → lev (off + i) = m.level := by
  induction xs with
  | nil => simp
  | cons x xs ih =>
    intro off
    rw [cons, ih]
    constructor
    · rintro ⟨hx, hxs⟩ i m hi
      cases i with
      | zero =>
        cases hi
        simpa using hx
      | succ i =>
        rw [show off + ((i + 1 : Nat) : Int) = off + 1 + i by push_cast; omega]
        exact hxs i m hi
    · intro h
      refine ⟨by simpa using h 0 x rfl, fun i m hi => ?_⟩
      rw [show off + 1 + (i : Int) = off + ((i + 1 : Nat) : Int) by push_cast; omega]
      exact h (i + 1) m hi

@[simp] theorem patchAll {brk cont : Nat → Int} {l : Int} :
    Agrees lev off (Mark.patchAll brk cont l xs) ↔ Agrees lev off xs := by
  rw [iff_getElem, iff_getElem]
  constructor
  · intro h i m hi
    have hpatched := h i (Mark.patchAt brk cont l i m) (by simp [Mark.patchAll, hi])
    exact hpatched
  · intro h i m hi
    simp only [Mark.patchAll, List.getElem?_mapIdx] at hi
    cases hm : xs[i]? with
    | none => simp [hm] at hi
    | some old =>
      simp only [hm, Option.map_some, Option.some.injEq] at hi
      subst hi
      exact h i old hm

end Agrees

variable (W : Weight)

/-- The levels after an instruction, and at the catch position it sets, are what it leaves. -/
def Mark.Fits (lev : Int → Option Int) (off : Int) (m : Mark) : Prop :=
  ∀ l, m.level = some l → W.need m.item.ins ≤ l ∧
    (m.wild = false → ∀ j ∈ m.item.ins.nexts off ++ m.item.ins.handler off,
      lev j = some (l + W.gain m.item.ins))

def Fits (lev : Int → Option Int) : Int → List Mark → Prop
  | _, [] => True
  | off, m :: ms => m.Fits W lev off ∧ Fits lev (off + 1) ms

variable {W}

namespace Fits

variable {lev : Int → Option Int} {off : Int} {xs ys : List Mark}

@[simp] theorem nil (lev : Int → Option Int) (off : Int) : Fits W lev off [] := trivial

@[simp] theorem cons {m : Mark} :
    Fits W lev off (m :: xs) ↔ m.Fits W lev off ∧ Fits W lev (off + 1) xs := Iff.rfl

@[simp] theorem append : ∀ {off : Int},
    Fits W lev off (xs ++ ys) ↔ Fits W lev off xs ∧ Fits W lev (off + xs.length) ys := by
  induction xs with
  | nil => simp
  | cons x xs ih =>
    intro off
    simp only [List.cons_append, cons, ih, List.length_cons, and_assoc]
    rw [show off + 1 + (xs.length : Int) = off + ((xs.length + 1 : Nat) : Int) by push_cast; omega]

@[simp] theorem settleAll : ∀ {off : Int},
    Fits W lev off (Mark.settleAll xs) ↔ Fits W lev off xs := by
  induction xs with
  | nil => exact Iff.rfl
  | cons x xs ih =>
    intro off
    exact and_congr Iff.rfl ih

theorem iff_getElem : ∀ {off : Int},
    Fits W lev off xs ↔ ∀ (i : Nat) (m : Mark), xs[i]? = some m → m.Fits W lev (off + i) := by
  induction xs with
  | nil => simp
  | cons x xs ih =>
    intro off
    rw [cons, ih]
    constructor
    · rintro ⟨hx, hxs⟩ i m hi
      cases i with
      | zero =>
        cases hi
        simpa using hx
      | succ i =>
        rw [show off + ((i + 1 : Nat) : Int) = off + 1 + i by push_cast; omega]
        exact hxs i m hi
    · intro h
      refine ⟨by simpa using h 0 x rfl, fun i m hi => ?_⟩
      rw [show off + 1 + (i : Int) = off + ((i + 1 : Nat) : Int) by push_cast; omega]
      exact h (i + 1) m hi

/-- What no path reaches fits. -/
theorem unreached (items : List Item) :
    Fits W lev off (items.map fun item => ⟨item, none, false⟩) := by
  rw [iff_getElem]
  intro i m hi l hl
  simp only [List.getElem?_map] at hi
  cases hitem : items[i]? with
  | none => simp [hitem] at hi
  | some item =>
    simp only [hitem, Option.map_some, Option.some.injEq] at hi
    subst hi
    cases hl

end Fits

namespace Mark

variable {lev : Int → Option Int} {off l : Int}

theorem fits_plain {ins : Instruction} (h : ins.isPlain = true) (hneed : W.need ins ≤ l)
    (hnext : lev (off + 1) = some (l + W.gain ins)) : (on (.plain ins) l).Fits W lev off := by
  intro l' hl
  obtain rfl := Option.some.inj hl
  refine ⟨hneed, fun _ j hj => ?_⟩
  rw [on_item, Item.plain_ins, Instruction.handler_of_plain h, List.append_nil] at hj
  rw [Instruction.nexts_of_plain h hj]
  exact hnext

theorem fits_catch {d : Int} (hl : W.block ≤ l) (hnext : lev (off + 1) = some l)
    (htarget : lev (off + 1 + d) = some l) : (on (.jump .CTCH d) l).Fits W lev off := by
  intro l' hl'
  obtain rfl := Option.some.inj hl'
  obtain ⟨hgain, hneed⟩ := W.setCatch d
  simp only [on_item, Item.jump, Item.plain_ins, hgain, hneed, Int.add_zero]
  refine ⟨hl, fun _ j hj => ?_⟩
  rcases List.mem_pair.mp hj with rfl | rfl
  · exact hnext
  · exact htarget

theorem fits_jump {op : Op} {d : Int} (h : op.isJump = true) (hop : op ≠ .CTCH) (hl : 0 ≤ l)
    (hnext : op ≠ .JMP → lev (off + 1) = some l) (htarget : lev (off + 1 + d) = some l) :
    (on (.jump op d) l).Fits W lev off := by
  intro l' hl'
  obtain rfl := Option.some.inj hl'
  obtain ⟨hgain, hneed⟩ := W.jump op d h hop
  simp only [on_item, Item.jump, Item.plain_ins, hgain, hneed, Int.add_zero]
  refine ⟨hl, fun _ j hj => ?_⟩
  cases op <;> simp_all [Instruction.nexts, Instruction.handler, Instruction.target, Op.isJump]
  all_goals rcases hj with rfl | rfl <;> assumption

theorem fits_op {op : Op} {n : Int} (h : (⟨op, .noArg⟩ : Instruction).isPlain = true)
    (hweight : W.gain ⟨op, .noArg⟩ = n ∧ W.need ⟨op, .noArg⟩ ≤ l)
    (hnext : lev (off + 1) = some (l + n)) : (on (.op op) l).Fits W lev off :=
  fits_plain h hweight.2 (by rw [hweight.1, hnext])

theorem fits_named {op : Op} {id : String} {n : Int}
    (h : (⟨op, .id id⟩ : Instruction).isPlain = true)
    (hweight : W.gain ⟨op, .id id⟩ = n ∧ W.need ⟨op, .id id⟩ ≤ l)
    (hnext : lev (off + 1) = some (l + n)) : (on (.named op id) l).Fits W lev off :=
  fits_plain h hweight.2 (by rw [hweight.1, hnext])

theorem fits_newBlock (hl : 0 ≤ l) (hnext : lev (off + 1) = some (l + W.block)) :
    (on (.op .NBLK) l).Fits W lev off := by
  intro l' hl'
  obtain rfl := Option.some.inj hl'
  obtain ⟨hgain, hneed⟩ := W.newBlock
  simp only [on_item, Item.op, Item.plain_ins, hgain, hneed]
  refine ⟨hl, fun _ j hj => ?_⟩
  obtain rfl := List.mem_singleton.mp hj
  exact hnext

theorem fits_backBlock (hl : 0 ≤ l) (hnext : lev (off + 1) = some l) :
    (on (.op .BBLK) (l + W.block)).Fits W lev off := by
  intro l' hl'
  obtain rfl := Option.some.inj hl'
  obtain ⟨hgain, hneed⟩ := W.backBlock
  simp only [on_item, Item.op, Item.plain_ins, hgain, hneed]
  refine ⟨by omega, fun _ j hj => ?_⟩
  obtain rfl := List.mem_singleton.mp hj
  rw [hnext, Int.add_neg_cancel_right]

end Mark

/-- A patch leaves an instruction alone, or it gives a jump a new operand. -/
theorem patchIns_cases (brk cont : Nat → Int) (i : Nat) (ins : Instruction) :
    (ins.looksLikeBreak = false ∧ patchIns brk cont i ins = ins) ∨
      (ins.looksLikeBreak = true ∧ (∃ d, ins = ⟨.JMP, .val (.int d)⟩) ∧
        (patchIns brk cont i ins = ⟨.JMP, .val (.int (brk i))⟩ ∨
          patchIns brk cont i ins = ⟨.JMP, .val (.int (cont i))⟩)) := by
  unfold patchIns Instruction.looksLikeBreak
  cases hoffset : ins.jmpOffset with
  | none => exact .inl ⟨by simp, rfl⟩
  | some d =>
    have hjmp : ins = ⟨.JMP, .val (.int d)⟩ := by
      obtain ⟨op, arg⟩ := ins
      unfold Instruction.jmpOffset at hoffset
      split at hoffset <;> simp_all
    by_cases hzero : d = 0
    · exact .inr ⟨by simp [hzero], ⟨d, hjmp⟩, .inl (by simp only [if_pos hzero])⟩
    · by_cases hmax : d = intMax
      · exact .inr ⟨by simp [hmax], ⟨d, hjmp⟩, .inr (by simp only [if_neg hzero, if_pos hmax])⟩
      · exact .inl ⟨by simp [hzero, hmax], by simp only [if_neg hzero, if_neg hmax]⟩

/-- A patched item goes to the break or continue position, both at the level of the loop. -/
theorem Fits.patchAll {lev : Int → Option Int} {off l : Int} {ms : List Mark}
    (h : Fits W lev off ms) {brk cont : Nat → Int}
    (hbrk : ∀ i < ms.length, lev (off + i + 1 + brk i) = some l)
    (hcont : ∀ i < ms.length, lev (off + i + 1 + cont i) = some l) :
    Fits W lev off (Mark.patchAll brk cont l ms) := by
  rw [iff_getElem] at h ⊢
  intro i m hi l' hl'
  simp only [Mark.patchAll, List.getElem?_mapIdx] at hi
  cases hm : ms[i]? with
  | none => simp [hm] at hi
  | some old =>
    have hlt : i < ms.length := (List.getElem?_eq_some_iff.mp hm).1
    simp only [hm, Option.map_some, Option.some.injEq] at hi
    subst hi
    obtain ⟨hneed, hnexts⟩ := h i old hm l' hl'
    have hins : (patchItem brk cont i old.item).ins = patchIns brk cont i old.item.ins := rfl
    simp only [Mark.patchAt, hins]
    have hjump : ∀ d, lev (off + i + 1 + d) = some l → old.level = some l →
        ∀ j ∈ (⟨.JMP, .val (.int d)⟩ : Instruction).nexts (off + i) ++
          (⟨.JMP, .val (.int d)⟩ : Instruction).handler (off + i),
          lev j = some (l' + W.gain ⟨.JMP, .val (.int d)⟩) := by
      intro d hd hlevel j hj
      obtain rfl := Option.some.inj (hl'.symm.trans hlevel)
      obtain rfl := List.mem_singleton.mp hj
      rw [(W.jump .JMP d rfl nofun).1, Int.add_zero]
      exact hd
    rcases patchIns_cases brk cont i old.item.ins with
      ⟨hlooks, hsame⟩ | ⟨hlooks, ⟨d, hold⟩, hpatched⟩
    · rw [if_neg (by simp [hlooks]), hsame]
      exact ⟨hneed, hnexts⟩
    · rw [hold, (W.jump .JMP d rfl nofun).2] at hneed
      rw [if_pos hlooks]
      rcases hpatched with hpatched | hpatched <;> rw [hpatched, (W.jump .JMP _ rfl nofun).2]
      · exact ⟨hneed, fun hwild => hjump _ (hbrk i hlt) (by simpa using hwild)⟩
      · exact ⟨hneed, fun hwild => hjump _ (hcont i hlt) (by simpa using hwild)⟩

theorem level_at {lev : Int → Option Int} {i j : Int} {l : Option Int} (h : lev i = l)
    (hij : j = i) : lev j = l := hij ▸ h

namespace Code

theorem test_op_isJump (test : Test) : test.op.isJump = true := by cases test <;> rfl

theorem test_op_ne_CTCH (test : Test) : test.op ≠ .CTCH := by cases test <;> nofun

mutual

theorem fits_marks : ∀ (c : Code) (l : Int) {lev : Int → Option Int} {off : Int},
    c.HasLevel W l → Agrees lev off (c.marks W l) →
      lev (off + c.emit.length) = some (l + c.net W) →
        Fits W lev off (c.marks W l) ∧ lev off = some l
  | nil, l, lev, off, _, _, hexit => by
    refine ⟨trivial, ?_⟩
    simpa [emit, net] using hexit
  | plain ins, l, lev, off, h, hag, hexit => by
    rw [HasLevel] at h
    exact ⟨⟨Mark.fits_plain h.2 h.1 (by simpa [emit, net] using hexit), trivial⟩, hag.1⟩
  | brk type, l, lev, off, h, hag, hexit => by
    refine ⟨⟨?_, trivial⟩, hag.1⟩
    intro l' hl'
    obtain rfl := Option.some.inj hl'
    obtain ⟨hgain, hneed⟩ := W.jump .JMP (breakOperand type) rfl nofun
    refine ⟨by rw [hneed]; exact h, fun hwild j hj => ?_⟩
    cases type with
    | «continue» => cases hwild
    | «break» =>
      obtain rfl := List.mem_singleton.mp hj
      rw [hgain]
      simpa [emit, net, breakOperand] using hexit
  | seq a b, l, lev, off, h, hag, hexit => by
    rw [HasLevel] at h
    rw [marks, Agrees.append] at hag
    rw [emit, List.length_append, net] at hexit
    obtain ⟨hfb, hb⟩ := fits_marks b (l + net W a) h.2 hag.2 (by
      rw [length_marks]
      rw [show off + (a.emit.length : Int) + (b.emit.length : Int) =
        off + ((a.emit.length + b.emit.length : Nat) : Int) by push_cast; omega, hexit]
      congr 1
      omega)
    rw [length_marks] at hb hfb
    obtain ⟨hfa, ha⟩ := fits_marks a l h.1 hag.1 hb
    rw [marks, Fits.append, length_marks]
    exact ⟨⟨hfa, hfb⟩, ha⟩
  | skip test body, l, lev, off, h, hag, hexit => by
    obtain ⟨hl, hbody, hnet⟩ := h
    rw [emit, List.length_cons, net, Int.add_zero] at hexit
    have hend : lev (off + 1 + body.emit.length) = some l := by
      rw [← hexit]
      congr 1
      push_cast
      omega
    obtain ⟨hfits, hstart⟩ := fits_marks body l hbody hag.2 (by rw [hend, hnet, Int.add_zero])
    have hop := test_op_ne_CTCH test
    exact ⟨⟨Mark.fits_jump (test_op_isJump test) hop hl (fun _ => hstart) hend, hfits⟩, hag.1⟩
  | choice test a b, l, lev, off, h, hag, hexit => by
    obtain ⟨hl, hm, ha, hb, hnet⟩ := h
    rw [marks, List.cons_append, Agrees.cons, Agrees.append, Agrees.cons, length_marks] at hag
    obtain ⟨hag, haga, hagjump, hagb⟩ := hag
    rw [emit] at hexit
    simp only [List.length_append, List.length_cons, net] at hexit
    have hend : lev (off + 1 + a.emit.length + 1 + b.emit.length) = some (l + net W a) := by
      rw [← hexit]
      congr 1
      push_cast
      omega
    obtain ⟨hfitsb, hstartb⟩ := fits_marks b l hb hagb (by rw [hend, hnet])
    obtain ⟨hfitsa, hstarta⟩ := fits_marks a l ha haga hagjump
    rw [marks, List.cons_append, Fits.cons, Fits.append, Fits.cons, length_marks]
    refine ⟨⟨Mark.fits_jump (test_op_isJump test) (test_op_ne_CTCH test) hl (fun _ => hstarta) ?_, hfitsa,
      Mark.fits_jump rfl nofun hm (fun h => absurd rfl h) hend, hfitsb⟩, hag⟩
    rw [← hstartb]
    congr 1
    omega
  | ifThen branches, l, lev, off, h, hag, hexit => by
    rw [emit, net, Int.add_zero] at hexit
    rw [marks] at hag ⊢
    exact fits_marksBranches branches 0 0 false l h.1 h.2 hag (fun _ => hexit)
      (by simpa using hexit) (by simpa using hexit)
  | ifElse branches otherwise, l, lev, off, h, hag, hexit => by
    obtain ⟨hl, hbranches, hotherwise, hnet⟩ := h
    rw [marks, Agrees.append, length_marksBranches] at hag
    rw [emit, List.length_append, net, Int.add_zero] at hexit
    push_cast at hexit
    rw [← Int.add_assoc] at hexit
    obtain ⟨hfits, hstart⟩ := fits_marks otherwise l hotherwise hag.2
      (by rw [hexit, hnet, Int.add_zero])
    obtain ⟨hfitsBranches, hstartBranches⟩ := fits_marksBranches branches 0
      (emit otherwise).length true l hl hbranches hag.1 (fun h => by cases h)
      (by simpa using hstart) hexit
    rw [marks, Fits.append, length_marksBranches]
    exact ⟨⟨hfitsBranches, hfits⟩, hstartBranches⟩
  | func body, l, lev, off, h, hag, hexit => by
    rw [emit, List.length_cons, net, Int.add_zero] at hexit
    refine ⟨⟨Mark.fits_jump rfl nofun h (fun h => absurd rfl h) ?_, Fits.unreached body.emit⟩, hag.1⟩
    rw [← hexit]
    congr 1
    push_cast
    omega
  | tryCatch body assign handler, l, lev, off, h, hag, hexit => by
    obtain ⟨hl, hbody, hbodyNet, hassign, hassignNet, hhandler, hhandlerNet⟩ := h
    have hm : 0 ≤ l + W.block := Int.add_nonneg hl W.block_nonneg
    have hc : W.block ≤ l + W.block := Int.le_add_of_nonneg_left hl
    rw [emit] at hexit
    simp only [marks, Agrees.append, Agrees.cons, Agrees.nil, List.length_append, List.length_cons,
      List.length_nil, length_marks, Mark.on_level, and_true, net, Int.add_zero] at hag hexit ⊢
    obtain ⟨⟨⟨⟨⟨⟨hag, hcatch⟩, hagb⟩, hjump⟩, haga⟩, hagh⟩, hnil, hset, hback⟩ := hag
    push_cast at *
    obtain ⟨hfitsb, hstartb⟩ := fits_marks body _ hbody hagb
      (by rw [hbodyNet, Int.add_zero]; exact level_at hjump (by omega))
    obtain ⟨hfitsh, hstarth⟩ := fits_marks handler _ hhandler hagh
      (by rw [hhandlerNet, Int.add_zero]; exact level_at hnil (by omega))
    obtain ⟨hfitsa, hstarta⟩ := fits_marks assign _ hassign haga
      (by rw [hassignNet, Int.add_zero]; exact level_at hstarth (by omega))
    simp only [Fits.append, Fits.cons, Fits.nil, length_marks, List.length_append,
      List.length_cons, List.length_nil, and_true]
    push_cast
    refine ⟨⟨⟨⟨⟨⟨⟨Mark.fits_newBlock hl hcatch, Mark.fits_catch hc ?_ ?_⟩, hfitsb⟩,
      Mark.fits_jump rfl nofun hm (fun h => absurd rfl h) ?_⟩, hfitsa⟩, hfitsh⟩, ?_, ?_, ?_⟩, hag⟩
    · exact level_at hstartb (by omega)
    · exact level_at hstarta (by omega)
    · exact level_at hnil (by omega)
    · exact Mark.fits_op rfl ⟨W.nil.1, by rw [W.nil.2]; exact hm⟩ (by rw [hset, Int.add_zero])
    · exact Mark.fits_named rfl ⟨(W.set _).1, by rw [(W.set _).2]; exact hm⟩
        (by rw [hback, Int.add_zero])
    · exact Mark.fits_backBlock hl (level_at hexit (by omega))
  | whileLoop condition body, l, lev, off, h, hag, hexit => by
    obtain ⟨hl, hcondition, hconditionNet, hbody, hbodyNet⟩ := h
    have hm : 0 ≤ l + W.block := Int.add_nonneg hl W.block_nonneg
    rw [emit] at hexit
    simp only [marks, Agrees.settleAll, Agrees.append, Agrees.cons, Agrees.nil, Agrees.patchAll,
      Item.length_settleAll, List.length_append, List.length_cons, List.length_nil, length_marks,
      Mark.length_patchAll, length_patchItems, Mark.on_level, and_true, net, Int.add_zero]
      at hag hexit ⊢
    obtain ⟨⟨⟨⟨hag, hagc⟩, htest⟩, hagb⟩, hjump, hback⟩ := hag
    push_cast at *
    obtain ⟨hfitsb, hstartb⟩ := fits_marks body _ hbody hagb
      (by rw [hbodyNet, Int.add_zero]; exact level_at hjump (by omega))
    obtain ⟨hfitsc, hstartc⟩ := fits_marks condition _ hcondition hagc
      (by rw [hconditionNet, Int.add_zero]; exact level_at htest (by omega))
    simp only [Fits.settleAll, Fits.append, Fits.cons, Fits.nil, length_marks, List.length_append,
      List.length_cons, List.length_nil, Mark.length_patchAll, and_true]
    push_cast
    refine ⟨⟨⟨⟨⟨Mark.fits_newBlock hl hstartc, hfitsc⟩, Mark.fits_jump rfl nofun hm (fun _ => ?_) ?_⟩,
      hfitsb.patchAll ?_ ?_⟩, Mark.fits_jump rfl nofun hm (fun h => absurd rfl h) ?_, ?_⟩, hag⟩
    · exact level_at hstartb (by omega)
    · exact level_at hback (by omega)
    · intro i hi
      exact level_at hback (by omega)
    · intro i hi
      exact level_at hstartb (by omega)
    · exact level_at hstartc (by omega)
    · exact Mark.fits_backBlock hl (level_at hexit (by omega))
  | forLoop init condition inc body, l, lev, off, h, hag, hexit => by
    obtain ⟨hl, hinit, hinitNet, hcondition, hconditionNet, hinc, hincNet, hbody, hbodyNet⟩ := h
    have hm : 0 ≤ l + W.block := Int.add_nonneg hl W.block_nonneg
    rw [emit] at hexit
    simp only [marks, Agrees.settleAll, Agrees.append, Agrees.cons, Agrees.nil, Agrees.patchAll,
      Item.length_settleAll, List.length_append, List.length_cons, List.length_nil, length_marks,
      Mark.length_patchAll, length_patchItems, Mark.on_level, and_true, net, Int.add_zero]
      at hag hexit ⊢
    obtain ⟨⟨⟨⟨⟨hag, hagi⟩, hagc⟩, htest⟩, hagb, hagn⟩, hjump, hback⟩ := hag
    push_cast at *
    obtain ⟨hfitsn, hstartn⟩ := fits_marks inc _ hinc hagn
      (by rw [hincNet, Int.add_zero]; exact level_at hjump (by omega))
    obtain ⟨hfitsb, hstartb⟩ := fits_marks body _ hbody hagb
      (by rw [hbodyNet, Int.add_zero]; exact level_at hstartn (by omega))
    obtain ⟨hfitsc, hstartc⟩ := fits_marks condition _ hcondition hagc
      (by rw [hconditionNet, Int.add_zero]; exact level_at htest (by omega))
    obtain ⟨hfitsi, hstarti⟩ := fits_marks init _ hinit hagi
      (by rw [hinitNet, Int.add_zero]; exact level_at hstartc (by omega))
    have hrepeated := Fits.append.mpr ⟨hfitsb, by rw [length_marks]; exact hfitsn⟩
    simp only [Fits.settleAll, Fits.append, Fits.cons, Fits.nil, length_marks, List.length_append,
      List.length_cons, List.length_nil, Mark.length_patchAll, and_true]
    push_cast
    refine ⟨⟨⟨⟨⟨⟨Mark.fits_newBlock hl hstarti, hfitsi⟩, hfitsc⟩,
      Mark.fits_jump rfl nofun hm (fun _ => ?_) ?_⟩, hrepeated.patchAll ?_ ?_⟩,
      Mark.fits_jump rfl nofun hm (fun h => absurd rfl h) ?_, ?_⟩, hag⟩
    · exact level_at hstartb (by omega)
    · exact level_at hback (by omega)
    · intro i hi
      exact level_at hback (by omega)
    · intro i hi
      exact level_at hstartn (by omega)
    · exact level_at hstartc (by omega)
    · exact Mark.fits_backBlock hl (level_at hexit (by omega))
  | foreachLoop iterable lhs body, l, lev, off, h, hag, hexit => by
    obtain ⟨hl, hiterable, hiterableNet, hlhs, hlhsNet, hbody, hbodyNet⟩ := h
    have hm : 0 ≤ l + W.block := Int.add_nonneg hl W.block_nonneg
    have hp : 0 ≤ l + W.block + W.value := Int.add_nonneg hm W.value_nonneg
    rw [emit] at hexit
    simp only [marks, Agrees.settleAll, Agrees.append, Agrees.cons, Agrees.nil, Agrees.patchAll,
      Item.length_settleAll, List.length_append, List.length_cons, List.length_nil, length_marks,
      Mark.length_patchAll, length_patchItems, Mark.on_level, and_true, net, Int.add_zero]
      at hag hexit ⊢
    obtain ⟨⟨⟨⟨⟨hag, hagi⟩, hpush, hiter, hpush'⟩, hdup, hhasNext, htest⟩,
      ⟨⟨hnext, hcallNext⟩, hagl⟩, hagb⟩, hjump, hres, hback⟩ := hag
    push_cast at *
    obtain ⟨hfitsb, hstartb⟩ := fits_marks body _ hbody hagb
      (by rw [hbodyNet, Int.add_zero]; exact level_at hjump (by omega))
    obtain ⟨hfitsl, hstartl⟩ := fits_marks lhs _ hlhs hagl
      (by rw [hlhsNet, Int.add_zero]; exact level_at hstartb (by omega))
    obtain ⟨hfitsi, hstarti⟩ := fits_marks iterable _ hiterable hagi
      (by rw [hiterableNet, Int.add_zero]; exact level_at hpush (by omega))
    have hcall : ∀ id, W.need ⟨.CALL, .id id⟩ ≤ l + W.block + W.value := by
      intro id
      rw [(W.call id).2]
      exact Int.le_add_of_nonneg_left hm
    have hcall' : ∀ id, W.need ⟨.CALL, .id id⟩ ≤ l + W.block + W.value + W.value := by
      intro id
      exact Int.le_trans (hcall id) (Int.le_add_of_nonneg_right W.value_nonneg)
    have hdupNeed : W.need ⟨.DUP, .noArg⟩ ≤ l + W.block + W.value := by
      rw [W.dup.2]
      exact Int.le_add_of_nonneg_left hm
    have hresNeed : W.need ⟨.RES, .noArg⟩ ≤ l + W.block + W.value := by
      rw [W.res.2]
      exact Int.le_add_of_nonneg_left hm
    have hrepeated : Fits W lev (off + (1 + iterable.emit.length + 3 + 3))
        ([.on (.op .DUP) (l + W.block + W.value),
          .on (.named .CALL nextFnName) (l + W.block + W.value + W.value)] ++
          marks W lhs (l + W.block + W.value) ++ marks W body (l + W.block + W.value)) := by
      simp only [Fits.append, Fits.cons, Fits.nil, length_marks, List.length_append,
        List.length_cons, List.length_nil, and_true]
      push_cast
      refine ⟨⟨⟨Mark.fits_op rfl ⟨W.dup.1, hdupNeed⟩ ?_,
        Mark.fits_named rfl ⟨(W.call _).1, hcall' _⟩ ?_⟩, hfitsl⟩, hfitsb⟩
      · exact hcallNext
      · rw [Int.add_neg_cancel_right]
        exact level_at hstartl (by omega)
    simp only [Fits.settleAll, Fits.append, Fits.cons, Fits.nil, length_marks, List.length_append,
      List.length_cons, List.length_nil, Mark.length_patchAll, and_true]
    push_cast
    refine ⟨⟨⟨⟨⟨⟨Mark.fits_newBlock hl hstarti, hfitsi⟩,
      Mark.fits_op rfl ⟨W.push.1, by rw [W.push.2]; exact hm⟩ hiter,
      Mark.fits_named rfl ⟨(W.call _).1, hcall _⟩ ?_,
      Mark.fits_op rfl ⟨W.push.1, by rw [W.push.2]; exact hm⟩ ?_⟩,
      Mark.fits_op rfl ⟨W.dup.1, hdupNeed⟩ hhasNext,
      Mark.fits_named rfl ⟨(W.call _).1, hcall' _⟩ ?_,
      Mark.fits_jump rfl nofun hp (fun _ => ?_) ?_⟩, hrepeated.patchAll ?_ ?_⟩,
      Mark.fits_jump rfl nofun hp (fun h => absurd rfl h) ?_,
      Mark.fits_op rfl ⟨W.res.1, hresNeed⟩ ?_, ?_⟩, hag⟩
    · rw [Int.add_neg_cancel_right]
      exact hpush'
    · exact level_at hdup (by omega)
    · rw [Int.add_neg_cancel_right]
      exact htest
    · exact level_at hnext (by omega)
    · exact level_at hres (by omega)
    · intro i hi
      exact level_at hres (by omega)
    · intro i hi
      exact level_at hjump (by omega)
    · exact level_at hdup (by omega)
    · rw [Int.add_neg_cancel_right]
      exact hback
    · exact Mark.fits_backBlock hl (level_at hexit (by omega))

theorem fits_marksBranches : ∀ (br : Branches) (tail after : Nat) (jumps : Bool) (l : Int)
    {lev : Int → Option Int} {off : Int}, 0 ≤ l → HasLevelBranches W br l →
      Agrees lev off (marksBranches W br tail after jumps l) →
      (jumps = false → lev (off + (emitBranches br tail after jumps).length) = some l) →
      lev (off + (emitBranches br tail after jumps).length + tail) = some l →
      lev (off + (emitBranches br tail after jumps).length + after) = some l →
        Fits W lev off (marksBranches W br tail after jumps l) ∧ lev off = some l
  | .last condition body, tail, after, jumps, l, lev, off, hl, h, hag, hend, htail, hafter => by
    obtain ⟨hcondition, hconditionNet, hbody, hbodyNet⟩ := h
    rw [emitBranches] at hend htail hafter
    cases jumps <;>
      simp only [marksBranches, Agrees.append, Agrees.cons, Agrees.nil, List.length_append,
        List.length_cons, List.length_nil, length_marks, Mark.on_level, and_true, if_true,
        Bool.false_eq_true, if_false, Bool.toNat_false, Bool.toNat_true, forall_const,
        List.append_nil] at hag hend htail hafter ⊢ <;>
      push_cast at *
    · obtain ⟨hagc, htest, hagb⟩ := hag
      obtain ⟨hfitsb, hstartb⟩ := fits_marks body l hbody hagb
        (by rw [hbodyNet, Int.add_zero]; exact level_at hend (by omega))
      obtain ⟨hfitsc, hstartc⟩ := fits_marks condition l hcondition hagc
        (by rw [hconditionNet, Int.add_zero]; exact htest)
      simp only [Fits.append, Fits.cons, length_marks]
      refine ⟨⟨hfitsc, Mark.fits_jump rfl nofun hl (fun _ => hstartb) ?_, hfitsb⟩, hstartc⟩
      exact level_at htail (by omega)
    · obtain ⟨⟨hagc, htest, hagb⟩, hjump⟩ := hag
      obtain ⟨hfitsb, hstartb⟩ := fits_marks body l hbody hagb
        (by rw [hbodyNet, Int.add_zero]; exact level_at hjump (by omega))
      obtain ⟨hfitsc, hstartc⟩ := fits_marks condition l hcondition hagc
        (by rw [hconditionNet, Int.add_zero]; exact htest)
      simp only [Fits.append, Fits.cons, Fits.nil, length_marks, List.length_append,
        List.length_cons, and_true]
      push_cast
      refine ⟨⟨⟨hfitsc, Mark.fits_jump rfl nofun hl (fun _ => hstartb) ?_, hfitsb⟩,
        Mark.fits_jump rfl nofun hl (fun h => absurd rfl h) ?_⟩, hstartc⟩
      · exact level_at htail (by omega)
      · exact level_at hafter (by omega)
  | .more condition body rest, tail, after, jumps, l, lev, off, hl, h, hag, hend, htail, hafter => by
    obtain ⟨hcondition, hconditionNet, hbody, hbodyNet, hrest⟩ := h
    rw [emitBranches] at hend htail hafter
    cases jumps <;>
      simp only [marksBranches, Agrees.append, Agrees.cons, Agrees.nil, List.length_append,
        List.length_cons, List.length_nil, length_marks, length_marksBranches, Mark.on_level,
        and_true, if_true, Bool.false_eq_true, if_false, Bool.toNat_false, Bool.toNat_true,
        forall_const, List.append_nil] at hag hend htail hafter ⊢ <;>
      push_cast at *
    · obtain ⟨⟨hagc, htest, hagr⟩, hagb⟩ := hag
      obtain ⟨hfitsb, hstartb⟩ := fits_marks body l hbody hagb
        (by rw [hbodyNet, Int.add_zero]; exact level_at hend (by omega))
      obtain ⟨hfitsr, hstartr⟩ := fits_marksBranches rest _ _ true l hl hrest hagr
        (fun h => by cases h) (level_at htail (by push_cast; omega))
        (level_at hafter (by push_cast; omega))
      obtain ⟨hfitsc, hstartc⟩ := fits_marks condition l hcondition hagc
        (by rw [hconditionNet, Int.add_zero]; exact htest)
      simp only [Fits.append, Fits.cons, length_marks, length_marksBranches, List.length_append,
        List.length_cons]
      push_cast
      refine ⟨⟨⟨hfitsc, Mark.fits_jump rfl nofun hl (fun _ => hstartr) ?_, hfitsr⟩, hfitsb⟩, hstartc⟩
      exact level_at hstartb (by omega)
    · obtain ⟨⟨⟨hagc, htest, hagr⟩, hagb⟩, hjump⟩ := hag
      obtain ⟨hfitsb, hstartb⟩ := fits_marks body l hbody hagb
        (by rw [hbodyNet, Int.add_zero]; exact level_at hjump (by omega))
      obtain ⟨hfitsr, hstartr⟩ := fits_marksBranches rest _ _ true l hl hrest hagr
        (fun h => by cases h) (level_at htail (by push_cast; omega))
        (level_at hafter (by push_cast; omega))
      obtain ⟨hfitsc, hstartc⟩ := fits_marks condition l hcondition hagc
        (by rw [hconditionNet, Int.add_zero]; exact htest)
      simp only [Fits.append, Fits.cons, Fits.nil, length_marks, length_marksBranches,
        List.length_append, List.length_cons, and_true]
      push_cast
      refine ⟨⟨⟨⟨hfitsc, Mark.fits_jump rfl nofun hl (fun _ => hstartr) ?_, hfitsr⟩, hfitsb⟩,
        Mark.fits_jump rfl nofun hl (fun h => absurd rfl h) ?_⟩, hstartc⟩
      · exact level_at hstartb (by omega)
      · exact level_at hafter (by omega)

end

end Code

end JeffVm
