import JeffVm.LoopPatch
import JeffVm.Structured

/-!
# Where structured code lies

The emitted items of a piece of code on a tape, where the jumps of its `break` and `continue`
statements go to the positions that the loop around it patches in.
-/

set_option autoImplicit false

namespace JeffVm

/-- The positions that the `break` and `continue` of a piece of code go to. -/
abbrev Targets := BreakType → Option Nat

/-- Outside of loops nothing is said of where they go. -/
def noTargets : Targets := fun _ => none

def loopTargets (exit again : Nat) : Targets
  | .break => some exit
  | .continue => some again

/-- What stands on the tape for an item at position `pos`. -/
def Item.Stands (tape : List Instruction) (targets : Targets) (pos : Nat) (item : Item) : Prop :=
  match item.own with
  | none => tape[pos]? = some item.ins
  | some type => ∀ target, targets type = some target →
      tape[pos]? = some ⟨.JMP, .val (.int ((target : Int) - pos - 1))⟩

/-- The items stand on the tape from position `base` on. -/
def Placed (tape : List Instruction) (targets : Targets) (base : Nat) (items : List Item) : Prop :=
  ∀ (i : Nat) (item : Item), items[i]? = some item → item.Stands tape targets (base + i)

namespace Placed

variable {tape : List Instruction} {targets : Targets} {base : Nat} {item : Item}
  {xs ys : List Item}

theorem nil : Placed tape targets base [] := by
  intro i item h
  cases h

theorem cons_iff : Placed tape targets base (item :: xs) ↔
    item.Stands tape targets base ∧ Placed tape targets (base + 1) xs := by
  constructor
  · intro h
    refine ⟨h 0 item rfl, ?_⟩
    intro i x hx
    have hplace := h (i + 1) x hx
    have hpos : base + (i + 1) = base + 1 + i := by omega
    rwa [hpos] at hplace
  · rintro ⟨hitem, hrest⟩ i x hx
    cases i with
    | zero =>
      cases hx
      exact hitem
    | succ i =>
      have hplace := hrest i x hx
      have hpos : base + 1 + i = base + (i + 1) := by omega
      rwa [hpos] at hplace

theorem append_iff : Placed tape targets base (xs ++ ys) ↔
    Placed tape targets base xs ∧ Placed tape targets (base + xs.length) ys := by
  induction xs generalizing base with
  | nil =>
    simp only [List.nil_append, List.length_nil, Nat.add_zero]
    exact ⟨fun h => ⟨nil, h⟩, fun h => h.2⟩
  | cons x xs ih =>
    rw [List.cons_append, cons_iff, cons_iff, ih, List.length_cons, and_assoc]
    have hbase : base + 1 + xs.length = base + (xs.length + 1) := by omega
    rw [hbase]

/-- Outside of the loop around them the items are on the tape as they are. -/
theorem settle (h : Placed tape targets base (Item.settleAll xs)) {i : Nat}
    (hitem : xs[i]? = some item) : tape[base + i]? = some item.ins := by
  have hplace := h i item.settle (by
    unfold Item.settleAll
    rw [List.getElem?_map, hitem]
    rfl)
  exact hplace

theorem settleAll_append : Placed tape targets base (Item.settleAll (xs ++ ys)) ↔
    Placed tape targets base (Item.settleAll xs) ∧
      Placed tape targets (base + xs.length) (Item.settleAll ys) := by
  unfold Item.settleAll
  rw [List.map_append, append_iff, List.length_map]

theorem settleAll_cons : Placed tape targets base (Item.settleAll (item :: xs)) ↔
    tape[base]? = some item.ins ∧ Placed tape targets (base + 1) (Item.settleAll xs) := by
  unfold Item.settleAll
  rw [List.map_cons, cons_iff]
  rfl

/-- Items whose `break` and `continue` are not patched. -/
theorem unpatched (h : Placed tape targets base (Item.settleAll xs)) :
    Placed tape noTargets base xs := by
  intro i item hitem
  have hins := settle h hitem
  unfold Item.Stands
  cases hown : item.own with
  | none => exact hins
  | some type =>
    intro target htarget
    cases htarget

/-- The repeated part of a loop, where the patch loop reads no other jump as its own. -/
theorem patched {brk cont : Nat → Int} {exit again : Nat} (hmarked : Code.Marked xs)
    (hmisread : ∀ item ∈ xs, item.misread = false)
    (h : Placed tape targets base (Item.settleAll (patchItems brk cont xs)))
    (hbrk : ∀ i : Nat, brk i = (exit : Int) - (base + i) - 1)
    (hcont : ∀ i : Nat, cont i = (again : Int) - (base + i) - 1) :
    Placed tape (loopTargets exit again) base xs := by
  intro i item hitem
  have hmem := List.mem_of_getElem? hitem
  have hpatched : (patchItems brk cont xs)[i]? = some (patchItem brk cont i item) := by
    unfold patchItems
    rw [List.getElem?_mapIdx, hitem]
    rfl
  have hins := settle h hpatched
  simp only [patchItem] at hins
  unfold Item.Stands
  cases hown : item.own with
  | none =>
    have hlooks : item.ins.looksLikeBreak = false := by
      have hmis := hmisread item hmem
      unfold Item.misread at hmis
      rw [hown] at hmis
      exact hmis
    rw [hins]
    unfold patchIns
    cases hoffset : item.ins.jmpOffset with
    | none => rfl
    | some n =>
      unfold Instruction.looksLikeBreak at hlooks
      rw [hoffset] at hlooks
      have hn := of_decide_eq_false hlooks
      simp only [Option.some.injEq, not_or] at hn
      simp only [if_neg hn.1, if_neg hn.2]
  | some type =>
    rw [hmarked item hmem type hown] at hins
    intro target htarget
    cases type with
    | «break» =>
      cases htarget
      rw [hins]
      simp only [patchIns, breakOperand, Instruction.jmpOffset_jmp, if_true, hbrk i]
      push_cast
      rfl
    | «continue» =>
      cases htarget
      rw [hins]
      have hne : intMax ≠ 0 := by decide
      simp only [patchIns, breakOperand, Instruction.jmpOffset_jmp, if_neg hne, if_true, hcont i]
      push_cast
      rfl

end Placed

/-! ## Tidy code -/

namespace Code

/-- The patch loop of a loop with these items takes no other jump for one of its own. -/
def clean (items : List Item) : Bool := items.all fun item => !item.misread

mutual

/-- Every patch loop rewrites only the jumps of its own loop. -/
def tidy : Code → Bool
  | nil => true
  | plain _ => true
  | brk _ => true
  | seq a b => tidy a && tidy b
  | skip _ body => tidy body
  | choice _ a b => tidy a && tidy b
  | ifThen branches => tidyBranches branches
  | ifElse branches otherwise => tidyBranches branches && tidy otherwise
  | func body => tidy body
  | tryCatch body assign handler => tidy body && tidy assign && tidy handler
  | whileLoop condition body => tidy condition && tidy body && clean (emit body)
  | forLoop init condition inc body =>
    tidy init && tidy condition && tidy inc && tidy body && clean (emit body ++ emit inc)
  | foreachLoop iterable lhs body =>
    tidy iterable && tidy lhs && tidy body && clean (emit lhs ++ emit body)

def tidyBranches : Branches → Bool
  | .last condition body => tidy condition && tidy body
  | .more condition body rest => tidy condition && tidy body && tidyBranches rest

end

theorem misread_of_clean {items : List Item} (h : clean items = true) :
    ∀ item ∈ items, item.misread = false := by
  intro item hmem
  have hitem := List.all_eq_true.mp h item hmem
  simpa using hitem

end Code

theorem Code.length_emit (code : Code) : code.emit.length = code.size := rfl

/-! ## Loops -/

namespace Loop

variable (loop : Loop) (base : Nat)

/-- The repeated part after the test. -/
def repeated : List Item := loop.first.emit ++ loop.second.emit

def branchAt : Nat := base + loop.test.size

def firstAt : Nat := loop.branchAt base + 1

def secondAt : Nat := loop.firstAt base + loop.first.size

def backAt : Nat := loop.secondAt base + loop.second.size

def exitAt : Nat := loop.backAt base + 1

def targets : Targets := loopTargets (loop.exitAt base) (loop.secondAt base)

/-- The loop stands on the tape with its test at `base`. -/
structure Placed (tape : List Instruction) : Prop where
  test : JeffVm.Placed tape noTargets base loop.test.emit
  branch : tape[loop.branchAt base]? =
    some ⟨.IFN, .val (.int ((loop.exitAt base : Int) - loop.branchAt base - 1))⟩
  first : JeffVm.Placed tape (loop.targets base) (loop.firstAt base) loop.first.emit
  second : JeffVm.Placed tape (loop.targets base) (loop.secondAt base) loop.second.emit
  back : tape[loop.backAt base]? =
    some ⟨.JMP, .val (.int ((base : Int) - loop.backAt base - 1))⟩
  tidy : loop.test.tidy = true ∧ loop.first.tidy = true ∧ loop.second.tidy = true

variable {loop : Loop} {base : Nat} {tape : List Instruction} {targets : Targets}

theorem marked_repeated (loop : Loop) : Code.Marked loop.repeated :=
  (Code.marked_emit loop.first).append (Code.marked_emit loop.second)

theorem length_repeated (loop : Loop) :
    loop.repeated.length = loop.first.size + loop.second.size := by
  unfold repeated Code.size
  rw [List.length_append]

/-- The layout that the three loops have in common. -/
theorem placed {brk cont : Nat → Int} {n m : Int} {tail : List Item}
    (htidy : loop.test.tidy = true ∧ loop.first.tidy = true ∧ loop.second.tidy = true)
    (hclean : ∀ item ∈ loop.repeated, item.misread = false)
    (hbrk : ∀ i : Nat, brk i = (loop.repeated.length : Int) - i)
    (hcont : ∀ i : Nat, cont i = (loop.first.size : Int) - i - 1)
    (hn : n = loop.repeated.length + 1)
    (hm : m = -((loop.test.size : Int) + loop.repeated.length + 2))
    (h : JeffVm.Placed tape targets base (Item.settleAll (loop.test.emit ++
      (.jump .IFN n :: (patchItems brk cont loop.repeated ++ (.jump .JMP m :: tail)))))) :
    loop.Placed base tape ∧
      JeffVm.Placed tape targets (loop.exitAt base) (Item.settleAll tail) := by
  have hlength := length_repeated loop
  rw [Placed.settleAll_append, Placed.settleAll_cons, Placed.settleAll_append,
    Placed.settleAll_cons, length_patchItems, hlength] at h
  obtain ⟨htest, hbranch, hrepeated, hback, htail⟩ := h
  have hbackAt : base + loop.test.size + 1 + (loop.first.size + loop.second.size) =
      loop.backAt base := by
    unfold backAt secondAt firstAt branchAt
    omega
  have hparts : JeffVm.Placed tape (loopTargets (loop.exitAt base) (loop.secondAt base))
      (loop.firstAt base) loop.repeated := by
    apply Placed.patched (marked_repeated loop) hclean hrepeated
    · intro i
      rw [hbrk i, hlength]
      unfold exitAt backAt secondAt firstAt branchAt Code.size
      push_cast
      omega
    · intro i
      rw [hcont i]
      unfold secondAt firstAt branchAt Code.size
      push_cast
      omega
  unfold repeated at hparts
  rw [Placed.append_iff] at hparts
  refine ⟨⟨htest.unpatched, ?_, hparts.1, hparts.2, ?_, htidy⟩, ?_⟩
  · have hoffset : n = (loop.exitAt base : Int) - loop.branchAt base - 1 := by
      rw [hn, hlength]
      unfold exitAt backAt secondAt firstAt
      push_cast
      omega
    rw [← hoffset]
    exact hbranch
  · have hoffset : m = (base : Int) - loop.backAt base - 1 := by
      rw [hm, hlength, ← hbackAt]
      push_cast
      omega
    rw [← hoffset]
    exact hbackAt ▸ hback
  · have hexit : base + loop.test.emit.length + 1 + (loop.first.size + loop.second.size) + 1 =
        loop.exitAt base := congrArg (· + 1) hbackAt
    rwa [hexit] at htail

end Loop

/-! ## The loops of the source -/

section Loops

variable {tape : List Instruction} {targets : Targets} {base : Nat}

/-- A block with `inner` between `NBLK` and `BBLK`. -/
theorem Placed.block {inner : List Item}
    (h : Placed tape targets base (Item.settleAll (.op .NBLK :: (inner ++ [.op .BBLK])))) :
    tape[base]? = some ⟨.NBLK, .noArg⟩ ∧
      Placed tape targets (base + 1) (Item.settleAll inner) ∧
        tape[base + 1 + inner.length]? = some ⟨.BBLK, .noArg⟩ := by
  rw [Placed.settleAll_cons, Placed.settleAll_append, Placed.settleAll_cons] at h
  exact ⟨h.1, h.2.1, h.2.2.1⟩

theorem Loop.exitAt_eq (loop : Loop) (base : Nat) :
    loop.exitAt base = base + loop.test.size + loop.first.size + loop.second.size + 2 := by
  unfold Loop.exitAt Loop.backAt Loop.secondAt Loop.firstAt Loop.branchAt
  omega

theorem whileLoop_placed {condition body : Code}
    (h : Placed tape targets base (Code.whileLoop condition body).emit)
    (htidy : (Code.whileLoop condition body).tidy = true) :
    tape[base]? = some ⟨.NBLK, .noArg⟩ ∧
      (Loop.ofWhile condition body).Placed (base + 1) tape ∧
      tape[(Loop.ofWhile condition body).exitAt (base + 1)]? = some ⟨.BBLK, .noArg⟩ ∧
      (Loop.ofWhile condition body).exitAt (base + 1) + 1 =
        base + (Code.whileLoop condition body).size := by
  simp only [Code.tidy, Bool.and_eq_true] at htidy
  obtain ⟨⟨hcondition, hbody⟩, hclean⟩ := htidy
  have hrepeated : (Loop.ofWhile condition body).repeated = body.emit := by
    simp [Loop.ofWhile, Loop.repeated, Code.emit]
  have hitems : (Code.whileLoop condition body).emit = Item.settleAll (.op .NBLK ::
      ((Loop.ofWhile condition body).test.emit ++
        (.jump .IFN (body.size + 1) :: (patchItems (fun i => body.size - i) (fun i => -(i + 1))
          (Loop.ofWhile condition body).repeated ++
            (.jump .JMP (-(1 + condition.size + body.size + 1)) :: [.op .BBLK]))))) := by
    rw [hrepeated, Code.emit]
    simp [Loop.ofWhile, Code.size]
  have hlength : (Loop.ofWhile condition body).repeated.length = body.size := by
    rw [hrepeated]
    rfl
  have hfirst : (Loop.ofWhile condition body).first.size = 0 := rfl
  have htest : (Loop.ofWhile condition body).test.size = condition.size := rfl
  have hsecond : (Loop.ofWhile condition body).second.size = body.size := rfl
  have hsize : (Code.whileLoop condition body).size = condition.size + body.size + 4 := by
    rw [Code.size, hitems]
    simp only [Item.length_settleAll, List.length_cons, List.length_append, length_patchItems,
      Code.length_emit, hlength, htest, List.length_nil]
    omega
  rw [hitems, Placed.settleAll_cons] at h
  obtain ⟨hloop, hend⟩ := Loop.placed ⟨hcondition, rfl, hbody⟩
    (hrepeated ▸ Code.misread_of_clean hclean) (fun i => by rw [hlength])
    (fun i => by rw [hfirst]; push_cast; omega) (by rw [hlength])
    (by rw [hlength, htest]; omega) h.2
  refine ⟨h.1, hloop, (Placed.settleAll_cons.mp hend).1, ?_⟩
  rw [Loop.exitAt_eq, hfirst, htest, hsecond, hsize]
  omega

theorem forLoop_placed {init condition inc body : Code}
    (h : Placed tape targets base (Code.forLoop init condition inc body).emit)
    (htidy : (Code.forLoop init condition inc body).tidy = true) :
    tape[base]? = some ⟨.NBLK, .noArg⟩ ∧ Placed tape noTargets (base + 1) init.emit ∧
      (Loop.ofFor condition inc body).Placed (base + 1 + init.size) tape ∧
      tape[(Loop.ofFor condition inc body).exitAt (base + 1 + init.size)]? =
        some ⟨.BBLK, .noArg⟩ ∧
      (Loop.ofFor condition inc body).exitAt (base + 1 + init.size) + 1 =
        base + (Code.forLoop init condition inc body).size := by
  simp only [Code.tidy, Bool.and_eq_true] at htidy
  obtain ⟨⟨⟨⟨-, hcondition⟩, hinc⟩, hbody⟩, hclean⟩ := htidy
  have hrepeated : (Loop.ofFor condition inc body).repeated = body.emit ++ inc.emit := rfl
  have hitems : (Code.forLoop init condition inc body).emit = Item.settleAll (.op .NBLK ::
      (init.emit ++ ((Loop.ofFor condition inc body).test.emit ++
        (.jump .IFN (body.size + inc.size + 1) :: (patchItems
          (fun i => body.size + inc.size - i) (fun i => body.size - i - 1)
          (Loop.ofFor condition inc body).repeated ++
            (.jump .JMP (-(body.size + condition.size + inc.size + 1 + 1)) ::
              [.op .BBLK])))))) := by
    rw [hrepeated, Code.emit]
    simp [Loop.ofFor, Code.size]
  have hlength : (Loop.ofFor condition inc body).repeated.length = body.size + inc.size := by
    rw [hrepeated, List.length_append]
    rfl
  have hfirst : (Loop.ofFor condition inc body).first.size = body.size := rfl
  have htest : (Loop.ofFor condition inc body).test.size = condition.size := rfl
  have hsecond : (Loop.ofFor condition inc body).second.size = inc.size := rfl
  have hsize : (Code.forLoop init condition inc body).size =
      init.size + condition.size + body.size + inc.size + 4 := by
    rw [Code.size, hitems]
    simp only [Item.length_settleAll, List.length_cons, List.length_append, length_patchItems,
      Code.length_emit, hlength, htest, List.length_nil]
    omega
  rw [hitems, Placed.settleAll_cons, Placed.settleAll_append] at h
  obtain ⟨hloop, hend⟩ := Loop.placed ⟨hcondition, hbody, hinc⟩
    (hrepeated ▸ Code.misread_of_clean hclean) (fun i => by rw [hlength]; push_cast; rfl)
    (fun i => by rw [hfirst]) (by rw [hlength]; push_cast; rfl)
    (by rw [hlength, htest]; push_cast; omega) h.2.2
  refine ⟨h.1, h.2.1.unpatched, hloop, (Placed.settleAll_cons.mp hend).1, ?_⟩
  rw [Loop.exitAt_eq, hfirst, htest, hsecond, hsize]
  omega

theorem foreachLoop_placed {iterable lhs body : Code}
    (h : Placed tape targets base (Code.foreachLoop iterable lhs body).emit)
    (htidy : (Code.foreachLoop iterable lhs body).tidy = true) :
    tape[base]? = some ⟨.NBLK, .noArg⟩ ∧
      Placed tape noTargets (base + 1) (foreachInit iterable).emit ∧
      (Loop.ofForeach lhs body).Placed (base + 1 + (foreachInit iterable).size) tape ∧
      tape[(Loop.ofForeach lhs body).exitAt (base + 1 + (foreachInit iterable).size)]? =
        some ⟨.RES, .noArg⟩ ∧
      tape[(Loop.ofForeach lhs body).exitAt (base + 1 + (foreachInit iterable).size) + 1]? =
        some ⟨.BBLK, .noArg⟩ ∧
      (Loop.ofForeach lhs body).exitAt (base + 1 + (foreachInit iterable).size) + 2 =
        base + (Code.foreachLoop iterable lhs body).size := by
  simp only [Code.tidy, Bool.and_eq_true] at htidy
  obtain ⟨⟨⟨-, hlhs⟩, hbody⟩, hclean⟩ := htidy
  have hrepeated : (Loop.ofForeach lhs body).repeated =
      .op .DUP :: .named .CALL nextFnName :: (lhs.emit ++ body.emit) := by
    simp [Loop.ofForeach, Loop.repeated, Code.emit, opCode, idCode, Item.op, Item.named]
  have hclean' : ∀ item ∈ (Loop.ofForeach lhs body).repeated, item.misread = false := by
    rw [hrepeated]
    intro item hmem
    rcases List.mem_cons.mp hmem with rfl | hmem
    · rfl
    · rcases List.mem_cons.mp hmem with rfl | hmem
      · rfl
      · exact Code.misread_of_clean hclean item hmem
  let r := (Loop.ofForeach lhs body).repeated
  have hitems : (Code.foreachLoop iterable lhs body).emit = Item.settleAll (.op .NBLK ::
      ((foreachInit iterable).emit ++ ((Loop.ofForeach lhs body).test.emit ++
        (.jump .IFN (r.length + 1) :: (patchItems (fun i => r.length - i)
          (fun i => r.length - i - 1) r ++
            (.jump .JMP (-(3 + r.length + 1)) :: [.op .RES, .op .BBLK])))))) := by
    rw [Code.emit]
    simp only [r, hrepeated]
    simp [Loop.ofForeach, foreachInit, Code.emit, opCode, idCode, Item.op, Item.named]
  have hfirst : (Loop.ofForeach lhs body).first.size = r.length := by
    have hlength := Loop.length_repeated (Loop.ofForeach lhs body)
    have hsecond : (Loop.ofForeach lhs body).second.size = 0 := rfl
    simp only [r]
    omega
  have hsecond : (Loop.ofForeach lhs body).second.size = 0 := rfl
  have htest : (Loop.ofForeach lhs body).test.size = 2 := rfl
  have hsize : (Code.foreachLoop iterable lhs body).size =
      (foreachInit iterable).size + r.length + 7 := by
    rw [Code.size, hitems]
    simp only [Item.length_settleAll, List.length_cons, List.length_append, length_patchItems,
      Code.length_emit, htest, List.length_nil]
    omega
  have htidy : (Loop.ofForeach lhs body).first.tidy = true := by
    simp only [Loop.ofForeach, HAppend.hAppend, Append.append, Code.tidy, opCode, idCode, hlhs,
      hbody, Bool.and_self]
  rw [hitems, Placed.settleAll_cons, Placed.settleAll_append] at h
  obtain ⟨hloop, hend⟩ := Loop.placed ⟨rfl, htidy, rfl⟩ hclean' (fun i => rfl)
    (fun i => by rw [hfirst]) rfl
    (show -(3 + (r.length : Int) + 1) = -((2 : Nat) + (r.length : Int) + 2) by omega) h.2.2
  rw [Placed.settleAll_cons, Placed.settleAll_cons] at hend
  refine ⟨h.1, h.2.1.unpatched, hloop, hend.1, hend.2.1, ?_⟩
  rw [Loop.exitAt_eq, hfirst, htest, hsecond, hsize]
  omega

end Loops

end JeffVm
