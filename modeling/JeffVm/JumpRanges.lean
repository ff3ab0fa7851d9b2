import JeffVm.PlainCode
import JeffVm.StrayContinue
import JeffVm.LoopPatch

/-!
# Where jumps land

Every jump of the code that a producer appends stays within this code, as long as no
`continue` waits for the patch loop of a statement around it.
-/

set_option autoImplicit false

namespace JeffVm

def Op.isJump : Op → Bool
  | .JMP => true
  | .IF => true
  | .IFN => true
  | .CTCH => true
  | _ => false

/-- If the instruction at position `i` is a jump, its target is one of the positions up to `n`. -/
def Instruction.LandsWithin (n i : Nat) (ins : Instruction) : Prop :=
  ins.op.isJump = true →
    ∃ d : Int, ins.arg = .val (.int d) ∧ 0 ≤ i + 1 + d ∧ i + 1 + d ≤ n

/-- All jumps of the instructions stay between the first and the position after the last. -/
def JumpsWithin (is : List Instruction) : Prop :=
  ∀ (i : Nat) (ins : Instruction), is[i]? = some ins → ins.LandsWithin is.length i

theorem Instruction.landsWithin_of_plain {ins : Instruction} (h : ins.isPlain = true) (n i : Nat) :
    ins.LandsWithin n i := by
  intro hjump
  obtain ⟨op, arg⟩ := ins
  cases op <;> simp_all [Op.isJump, isPlain, Op.isSkeleton]

/-- An item `off` instructions after the start of code of size `n`; with `strays` it may be a
`continue` that the loop around the code still has to patch. -/
def Item.LandsAt (strays : Bool) (n off : Nat) (item : Item) : Prop :=
  (strays = true ∧ item.ins.looksLikeContinue = true) ∨ item.ins.LandsWithin n off

theorem Item.landsAt_jump {strays : Bool} {n off : Nat} {op : Op} {d : Int}
    (hlow : 0 ≤ off + 1 + d) (hhigh : off + 1 + d ≤ n) : (Item.jump op d).LandsAt strays n off :=
  .inr fun _ => ⟨d, rfl, hlow, hhigh⟩

theorem Item.landsAt_op {strays : Bool} {n off : Nat} {op : Op} (h : op.isJump = false) :
    (Item.op op).LandsAt strays n off := by
  right
  intro hjump
  cases h.symm.trans hjump

theorem Item.landsAt_named {strays : Bool} {n off : Nat} {op : Op} {id : String}
    (h : op.isJump = false) : (Item.named op id).LandsAt strays n off := by
  right
  intro hjump
  cases h.symm.trans hjump

def LandAt (strays : Bool) (n : Nat) : Nat → List Item → Prop
  | _, [] => True
  | off, item :: items => item.LandsAt strays n off ∧ LandAt strays n (off + 1) items

namespace LandAt

variable {strays strays' : Bool} {n : Nat}

@[simp] theorem nil (strays : Bool) (n off : Nat) : LandAt strays n off [] := trivial

@[simp] theorem cons {off : Nat} {item : Item} {items : List Item} :
    LandAt strays n off (item :: items) ↔
      item.LandsAt strays n off ∧ LandAt strays n (off + 1) items := Iff.rfl

@[simp] theorem append {xs ys : List Item} : ∀ {off : Nat},
    LandAt strays n off (xs ++ ys) ↔
      LandAt strays n off xs ∧ LandAt strays n (off + xs.length) ys := by
  induction xs with
  | nil => simp
  | cons x xs ih =>
    intro off
    simp only [List.cons_append, cons, ih, List.length_cons, and_assoc]
    rw [show off + 1 + xs.length = off + (xs.length + 1) by omega]

theorem iff_getElem {items : List Item} : ∀ {off : Nat},
    LandAt strays n off items ↔
      ∀ (i : Nat) (item : Item), items[i]? = some item → item.LandsAt strays n (off + i) := by
  induction items with
  | nil => simp
  | cons x xs ih =>
    intro off
    rw [cons, ih]
    constructor
    · rintro ⟨hx, hxs⟩ i item hi
      cases i with
      | zero =>
        cases hi
        exact hx
      | succ i =>
        rw [show off + (i + 1) = off + 1 + i by omega]
        exact hxs i item hi
    · intro h
      refine ⟨h 0 x rfl, fun i item hi => ?_⟩
      rw [show off + 1 + i = off + (i + 1) by omega]
      exact h (i + 1) item hi

/-- Code whose jumps stay inside it may be part of any larger code. -/
theorem inside {items : List Item} (h : LandAt strays items.length 0 items) {off : Nat}
    (hstrays : strays = true → strays' = true) (hn : off + items.length ≤ n) :
    LandAt strays' n off items := by
  rw [iff_getElem] at h ⊢
  intro i item hi
  rcases h i item hi with ⟨hs, hcontinue⟩ | hlands
  · exact .inl ⟨hstrays hs, hcontinue⟩
  · right
    intro hjump
    obtain ⟨d, harg, hlow, hhigh⟩ := hlands hjump
    refine ⟨d, harg, ?_, ?_⟩ <;> push_cast at * <;> omega

theorem weaken {items : List Item} {off : Nat} (h : LandAt strays n off items)
    (hstrays : strays = true → strays' = true) : LandAt strays' n off items := by
  rw [iff_getElem] at h ⊢
  intro i item hi
  rcases h i item hi with ⟨hs, hcontinue⟩ | hlands
  · exact .inl ⟨hstrays hs, hcontinue⟩
  · exact .inr hlands

theorem settle {items : List Item} {off : Nat} (h : LandAt strays n off items) :
    LandAt strays n off (Item.settleAll items) := by
  rw [iff_getElem] at h ⊢
  intro i item hi
  simp only [Item.settleAll, List.getElem?_map] at hi
  cases hitem : items[i]? with
  | none => simp [hitem] at hi
  | some old =>
    simp only [hitem, Option.map_some, Option.some.injEq] at hi
    subst hi
    exact h i old hitem

/-- A patched item lands at the break or continue position, or where it did before. -/
theorem patch {items : List Item} (h : LandAt strays items.length 0 items)
    {brk cont : Nat → Int} {off : Nat} (hn : off + items.length ≤ n)
    (hbrk : ∀ i < items.length, 0 ≤ off + i + 1 + brk i ∧ off + i + 1 + brk i ≤ n)
    (hcont : ∀ i < items.length, 0 ≤ off + i + 1 + cont i ∧ off + i + 1 + cont i ≤ n) :
    LandAt strays' n off (patchItems brk cont items) := by
  have hinside := h.inside (n := n) (fun hs => hs) hn
  rw [iff_getElem] at hinside ⊢
  intro i item hi
  simp only [patchItems, List.getElem?_mapIdx] at hi
  cases hitem : items[i]? with
  | none => simp [hitem] at hi
  | some old =>
    have hlt : i < items.length := (List.getElem?_eq_some_iff.mp hitem).1
    simp only [hitem, Option.map_some, Option.some.injEq] at hi
    subst hi
    right
    intro hjump
    simp only [patchItem, patchIns] at hjump ⊢
    split at hjump <;> rename_i hoffset
    · -- Not a jump that the patch loop reads.
      rcases hinside i old hitem with ⟨-, hcontinue⟩ | hlands
      · simp [Instruction.looksLikeContinue, hoffset] at hcontinue
      · exact hlands hjump
    · split
      · obtain ⟨hlow, hhigh⟩ := hbrk i hlt
        exact ⟨_, rfl, by push_cast; omega, by push_cast; omega⟩
      · split
        · obtain ⟨hlow, hhigh⟩ := hcont i hlt
          exact ⟨_, rfl, by push_cast; omega, by push_cast; omega⟩
        · rename_i hzero hmax
          rcases hinside i old hitem with ⟨-, hcontinue⟩ | hlands
          · simp [Instruction.looksLikeContinue, hoffset, hmax] at hcontinue
          · apply hlands
            rw [if_neg hzero, if_neg hmax] at hjump
            exact hjump

end LandAt

namespace Code

mutual

theorem land_emit : ∀ c : Code, c.allPlain Instruction.isPlain = true →
    LandAt c.strays c.emit.length 0 c.emit
  | nil, _ => trivial
  | plain ins, h => ⟨.inr (ins.landsWithin_of_plain h _ _), trivial⟩
  | brk .break, _ => by
    refine ⟨.inr fun _ => ⟨0, rfl, ?_, ?_⟩, trivial⟩ <;> simp [emit]
  | brk .continue, _ => ⟨.inl ⟨rfl, by decide⟩, trivial⟩
  | seq a b, h => by
    rw [allPlain, Bool.and_eq_true] at h
    have ha := land_emit a h.1
    have hb := land_emit b h.2
    rw [emit, strays, List.length_append]
    refine LandAt.append.mpr ⟨ha.inside ?_ ?_, hb.inside ?_ ?_⟩
    · simp_all
    · omega
    · simp_all
    · omega
  | skip test body, h => by
    have hbody := land_emit body h
    rw [emit, strays, List.length_cons]
    refine ⟨Item.landsAt_jump ?_ ?_, hbody.inside ?_ ?_⟩
    · omega
    · push_cast
      omega
    · exact id
    · omega
  | choice test a b, h => by
    rw [allPlain, Bool.and_eq_true] at h
    have ha := land_emit a h.1
    have hb := land_emit b h.2
    rw [emit, strays]
    simp only [List.length_append, List.length_cons, List.cons_append, LandAt.cons, LandAt.append]
    refine ⟨Item.landsAt_jump ?_ ?_, ha.inside ?_ ?_, Item.landsAt_jump ?_ ?_, hb.inside ?_ ?_⟩
    all_goals first | omega | simp_all
  | ifThen branches, h => by
    have hbranches := @land_emitBranches branches 0 0 false h (emitBranches branches 0 0
      false).length 0 (by omega) (by omega)
    rw [emit, strays]
    exact hbranches
  | ifElse branches otherwise, h => by
    rw [allPlain, Bool.and_eq_true] at h
    have hotherwise := land_emit otherwise h.2
    rw [emit, strays, List.length_append]
    refine LandAt.append.mpr ⟨?_, hotherwise.inside ?_ ?_⟩
    · have hbranches := @land_emitBranches branches 0 (emit otherwise).length true h.1
        ((emitBranches branches 0 (emit otherwise).length true).length + (emit otherwise).length) 0
        (by omega) (by omega)
      exact hbranches.weaken fun hs => by simp [hs]
    · intro hs
      simp [hs]
    · omega
  | func body, h => by
    have hbody := land_emit body h
    rw [emit, strays, List.length_cons]
    refine ⟨Item.landsAt_jump ?_ ?_, hbody.inside ?_ ?_⟩
    · omega
    · push_cast
      omega
    · exact id
    · omega
  | tryCatch body assign handler, h => by
    simp only [allPlain, Bool.and_eq_true] at h
    have hbody := land_emit body h.1.1
    have hassign := land_emit assign h.1.2
    have hhandler := land_emit handler h.2
    rw [emit, strays]
    simp only [List.length_append, List.length_cons, List.length_nil, LandAt.append, LandAt.cons,
      LandAt.nil, and_true]
    refine ⟨⟨⟨⟨⟨⟨Item.landsAt_op rfl, Item.landsAt_jump ?_ ?_⟩, hbody.inside ?_ ?_⟩,
      Item.landsAt_jump ?_ ?_⟩, hassign.inside ?_ ?_⟩, hhandler.inside ?_ ?_⟩,
      Item.landsAt_op rfl, Item.landsAt_named rfl, Item.landsAt_op rfl⟩
    all_goals first | omega | (intro hs; simp [hs])
  | whileLoop condition body, h => by
    simp only [allPlain, Bool.and_eq_true] at h
    have hcondition := land_emit condition h.1
    have hbody := land_emit body h.2
    rw [emit, strays]
    simp only [Item.length_settleAll, List.length_append, List.length_cons, List.length_nil,
      length_patchItems]
    refine LandAt.settle ?_
    simp only [LandAt.append, LandAt.cons, LandAt.nil, and_true, List.length_append,
      List.length_cons, List.length_nil, length_patchItems]
    refine ⟨⟨⟨⟨Item.landsAt_op rfl, hcondition.inside ?_ ?_⟩, Item.landsAt_jump ?_ ?_⟩,
      hbody.patch ?_ ?_ ?_⟩, Item.landsAt_jump ?_ ?_, Item.landsAt_op rfl⟩
    all_goals first | omega | exact id
  | forLoop init condition inc body, h => by
    simp only [allPlain, Bool.and_eq_true] at h
    have hinit := land_emit init h.1.1.1
    have hcondition := land_emit condition h.1.1.2
    have hinc := land_emit inc h.1.2
    have hbody := land_emit body h.2
    have hrepeated : LandAt (strays body || strays inc) (emit body ++ emit inc).length 0
        (emit body ++ emit inc) := by
      rw [List.length_append]
      refine LandAt.append.mpr ⟨hbody.inside ?_ ?_, hinc.inside ?_ ?_⟩
      all_goals first | omega | (intro hs; simp [hs])
    rw [emit, strays]
    simp only [Item.length_settleAll, List.length_append, List.length_cons, List.length_nil,
      length_patchItems]
    refine LandAt.settle ?_
    simp only [LandAt.append, LandAt.cons, LandAt.nil, and_true, List.length_append,
      List.length_cons, List.length_nil, length_patchItems]
    refine ⟨⟨⟨⟨⟨Item.landsAt_op rfl, hinit.inside ?_ ?_⟩, hcondition.inside ?_ ?_⟩,
      Item.landsAt_jump ?_ ?_⟩, hrepeated.patch ?_ ?_ ?_⟩, Item.landsAt_jump ?_ ?_,
      Item.landsAt_op rfl⟩
    all_goals
      first | omega | (intro hs; simp [hs]) | (rw [List.length_append]; omega)
  | foreachLoop iterable lhs body, h => by
    simp only [allPlain, Bool.and_eq_true] at h
    have hiterable := land_emit iterable h.1.1
    have hlhs := land_emit lhs h.1.2
    have hbody := land_emit body h.2
    have hrepeated : LandAt (strays lhs || strays body)
        ([Item.op .DUP, .named .CALL nextFnName] ++ emit lhs ++ emit body).length 0
        ([Item.op .DUP, .named .CALL nextFnName] ++ emit lhs ++ emit body) := by
      simp only [List.length_append, LandAt.append, LandAt.cons, LandAt.nil, and_true,
        List.length_cons, List.length_nil]
      refine ⟨⟨⟨Item.landsAt_op rfl, Item.landsAt_named rfl⟩, hlhs.inside ?_ ?_⟩,
        hbody.inside ?_ ?_⟩
      all_goals first | omega | (intro hs; simp [hs])
    rw [emit, strays]
    simp only [Item.length_settleAll, List.length_append, List.length_cons, List.length_nil,
      length_patchItems]
    refine LandAt.settle ?_
    rw [LandAt.append, LandAt.append]
    refine ⟨⟨?_, hrepeated.patch ?_ ?_ ?_⟩, ?_⟩
    · simp only [LandAt.append, LandAt.cons, LandAt.nil, and_true, List.length_append,
        List.length_cons, List.length_nil]
      refine ⟨⟨⟨Item.landsAt_op rfl, hiterable.inside ?_ ?_⟩, Item.landsAt_op rfl,
        Item.landsAt_named rfl, Item.landsAt_op rfl⟩, Item.landsAt_op rfl, Item.landsAt_named rfl,
        Item.landsAt_jump ?_ ?_⟩
      all_goals first | omega | exact id
    · simp only [List.length_append, List.length_cons, List.length_nil]
      omega
    · simp only [List.length_append, List.length_cons, List.length_nil]
      intros
      omega
    · simp only [List.length_append, List.length_cons, List.length_nil]
      intros
      omega
    · simp only [LandAt.cons, LandAt.nil, and_true, List.length_append, List.length_cons,
        List.length_nil, length_patchItems]
      refine ⟨Item.landsAt_jump ?_ ?_, Item.landsAt_op rfl, Item.landsAt_op rfl⟩
      all_goals omega

theorem land_emitBranches : ∀ (br : Branches) (tail after : Nat) (jumps : Bool),
    allPlainBranches Instruction.isPlain br = true → ∀ {n off : Nat},
      off + (emitBranches br tail after jumps).length + tail ≤ n →
      off + (emitBranches br tail after jumps).length + after ≤ n →
        LandAt (straysBranches br) n off (emitBranches br tail after jumps)
  | .last condition body, tail, after, jumps, h, n, off, htail, hafter => by
    rw [allPlainBranches, Bool.and_eq_true] at h
    have hcondition := land_emit condition h.1
    have hbody := land_emit body h.2
    rw [emitBranches] at htail hafter ⊢
    rw [straysBranches]
    cases jumps <;>
      simp only [List.length_append, List.length_cons, List.length_nil, LandAt.append, LandAt.cons,
        LandAt.nil, and_true, Bool.toNat_true, Bool.toNat_false, if_true,
        Bool.false_eq_true, if_false] at htail hafter ⊢
    · refine ⟨hcondition.inside ?_ ?_, Item.landsAt_jump ?_ ?_, hbody.inside ?_ ?_⟩
      all_goals first | omega | (intro hs; simp [hs])
    · refine ⟨⟨hcondition.inside ?_ ?_, Item.landsAt_jump ?_ ?_, hbody.inside ?_ ?_⟩,
        Item.landsAt_jump ?_ ?_⟩
      all_goals first | omega | (intro hs; simp [hs])
  | .more condition body rest, tail, after, jumps, h, n, off, htail, hafter => by
    simp only [allPlainBranches, Bool.and_eq_true] at h
    have hcondition := land_emit condition h.1.1
    have hbody := land_emit body h.1.2
    have hrest := @land_emitBranches rest ((emit body).length + jumps.toNat + tail)
      ((emit body).length + jumps.toNat + after) true h.2 n (off + (emit condition).length + 1)
    rw [emitBranches] at htail hafter ⊢
    rw [straysBranches]
    cases jumps <;>
      simp only [List.length_append, List.length_cons, List.length_nil, LandAt.append, LandAt.cons,
        LandAt.nil, and_true, Bool.toNat_true, Bool.toNat_false, if_true,
        Bool.false_eq_true, if_false] at htail hafter hrest ⊢
    · refine ⟨⟨hcondition.inside ?_ ?_, Item.landsAt_jump ?_ ?_,
        (hrest ?_ ?_).weaken ?_⟩, hbody.inside ?_ ?_⟩
      all_goals first | omega | (intro hs; simp [hs])
    · refine ⟨⟨⟨hcondition.inside ?_ ?_, Item.landsAt_jump ?_ ?_,
        (hrest ?_ ?_).weaken ?_⟩, hbody.inside ?_ ?_⟩, Item.landsAt_jump ?_ ?_⟩
      all_goals first | omega | (intro hs; simp [hs])

end

end Code

/-- Structured code jumps nowhere else if no `continue` in it is left for a loop around it. -/
theorem jumpsWithin_of_landAt {c : Code} (h : LandAt false c.emit.length 0 c.emit) :
    JumpsWithin c.code := by
  intro i ins hi
  simp only [Code.code, List.getElem?_map] at hi
  cases hitem : c.emit[i]? with
  | none => simp [hitem] at hi
  | some item =>
    simp only [hitem, Option.map_some, Option.some.injEq] at hi
    subst hi
    rcases LandAt.iff_getElem.mp h i item hitem with ⟨hfalse, -⟩ | hlands
    · cases hfalse
    · rw [Code.length_code]
      rwa [Nat.zero_add] at hlands

/-- Without a `continue` that no loop repeats, the jumps of a tree stay in its code. -/
theorem jumpsWithin_tree {tree : RegisteredTree}
    (hcontinue : ¬ tree.ContinueBelow ExpressionTree.unrepeated) :
    JumpsWithin (lowerTree tree).code := by
  apply jumpsWithin_of_landAt
  have hstrays : (lowerTree tree).strays = false := by
    by_contra h
    exact hcontinue (stray_tree tree (Bool.eq_true_of_not_eq_false h))
  have hland := (lowerTree tree).land_emit (allPlain_tree tree)
  rwa [hstrays] at hland

/-- The count of a producer is the number of instructions it appends, and they jump within
their own range when each `continue` is in the repeated part of a loop of the tree. -/
theorem produceTree_counts_and_jumps (tree : RegisteredTree) (tape tape' : Tape) (n : Int)
    (hrun : produceTree tree tape = some (n, tape')) :
    ∃ is, tape'.ins = tape.ins ++ is ∧ n = is.length ∧
      (¬ tree.ContinueBelow ExpressionTree.unrepeated → JumpsWithin is) := by
  obtain ⟨hcount, hins⟩ := generates_tree tree tape n tape' hrun
  exact ⟨(lowerTree tree).code, hins, hcount, jumpsWithin_tree⟩

/-- `while (x) { continue }` -/
theorem produceTree_counts_and_jumps_while : ∃ n tape',
    produceTree (.expression (.whileStatement (.word "while" 1) (.identifier (.word "x" 1))
      (.breakStatement (.word "continue" 1) .continue))) .create = some (n, tape') ∧
    ∃ is, tape'.ins = Tape.create.ins ++ is ∧ n = is.length ∧ JumpsWithin is := by
  refine ⟨_, _, rfl, ?_⟩
  obtain ⟨is, hins, hn, hjumps⟩ := produceTree_counts_and_jumps
    (.expression (.whileStatement (.word "while" 1) (.identifier (.word "x" 1))
      (.breakStatement (.word "continue" 1) .continue))) .create _ _ rfl
  refine ⟨is, hins, hn, hjumps ?_⟩
  rintro (_ | ⟨hmem, hpart⟩)
  obtain rfl := List.mem_singleton.mp hmem
  obtain _ | ⟨hmem, -⟩ := hpart
  cases hmem

/-- `while (() { continue }) {}` -/
def continueInCondition : RegisteredTree :=
  .expression (.whileStatement (.word "while" 1)
    (.anonFunctionDefinition ⟨.word "(" 1, none, .NONE, false, none,
      .breakStatement (.word "continue" 1) .continue⟩) (.compoundStatement []))

/-- A `continue` in the condition of a loop is inside the loop, but no patch loop sees it. -/
theorem not_produceTree_jumps_within : ¬ ∀ (tree : RegisteredTree) (tape tape' : Tape) (n : Int),
    produceTree tree tape = some (n, tape') →
    ∃ is, tape'.ins = tape.ins ++ is ∧ n = is.length ∧
      (¬ tree.ContinueBelow ExpressionTree.outsideLoop → JumpsWithin is) := by
  intro h
  obtain ⟨is, hins, -, hjumps⟩ := h continueInCondition .create _ _ rfl
  obtain rfl := List.nil_append is ▸ hins.symm
  have hwithin : JumpsWithin _ := hjumps (by
    rintro (_ | ⟨hmem, -⟩)
    cases hmem)
  obtain ⟨d, harg, -, hhigh⟩ := hwithin 2 ⟨.JMP, .val (.int intMax)⟩ rfl rfl
  cases harg
  revert hhigh
  decide

end JeffVm
