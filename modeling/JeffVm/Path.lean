import JeffVm.Levels
import JeffVm.StackEffect

/-!
# Paths through code

What a task goes through between the start of a piece of code and the place where control
leaves it: a position, the catch positions of the block contexts from the innermost on, and
the height of the operand stack. Calls are one step, and an error goes to the nearest handler.
-/

set_option autoImplicit false

namespace JeffVm

structure PathState where
  pc : Int
  contexts : List (Option Int)
  height : Int
  deriving DecidableEq

/-- An instruction passes control on, or an error arises when it has taken some values. -/
inductive Move where
  | goto (pc : Int)
  | raise (taken : Nat)
  deriving DecidableEq

def insAt (is : List Instruction) (pc : Int) : Option Instruction :=
  if pc < 0 then none else is[pc.toNat]?

/-- The contexts after an instruction at position `i`. -/
def Instruction.blocks (ins : Instruction) (i : Int) :
    List (Option Int) → Option (List (Option Int))
  | contexts =>
    match ins.op, contexts with
    | .NBLK, contexts => some (none :: contexts)
    | .BBLK, [] => none
    | .BBLK, _ :: rest => some rest
    | .CTCH, [] => none
    | .CTCH, _ :: rest => some ((ins.target i).head? :: rest)
    | _, contexts => some contexts

/-- The nearest handler, which is used up. -/
def catchError : List (Option Int) → Option (Int × List (Option Int))
  | [] => none
  | some h :: rest => some (h, none :: rest)
  | none :: rest => catchError rest

/-- A step within the code `is`. -/
def PathState.step (is : List Instruction) (s : PathState) : Move → Option PathState
  | .goto pc =>
    match insAt is s.pc with
    | none => none
    | some ins =>
      if pc ∈ ins.nexts s.pc then
        (ins.blocks s.pc s.contexts).map fun contexts =>
          ⟨pc, contexts, s.height - ins.takes + ins.leaves⟩
      else none
  | .raise taken =>
    match insAt is s.pc, catchError s.contexts with
    | some _, some (h, contexts) =>
      if 0 ≤ h ∧ h < is.length then some ⟨h, contexts, s.height - taken⟩ else none
    | _, _ => none

/-! ## Steps -/

theorem insAt_some {is : List Instruction} {pc : Int} {ins : Instruction}
    (h : insAt is pc = some ins) : ∃ i : Nat, pc = i ∧ is[i]? = some ins := by
  unfold insAt at h
  split at h
  · cases h
  · exact ⟨pc.toNat, by omega, h⟩

theorem goto_cases {is : List Instruction} {s s' : PathState} {pc : Int}
    (h : s.step is (.goto pc) = some s') :
    ∃ ins, insAt is s.pc = some ins ∧ pc ∈ ins.nexts s.pc ∧ s'.pc = pc ∧
      ins.blocks s.pc s.contexts = some s'.contexts ∧
      s'.height = s.height - ins.takes + ins.leaves := by
  unfold PathState.step at h
  cases hins : insAt is s.pc with
  | none => simp [hins] at h
  | some ins =>
    simp only [hins] at h
    split at h
    · rename_i hmem
      obtain ⟨contexts, hblocks, rfl⟩ := Option.map_eq_some_iff.mp h
      exact ⟨ins, rfl, hmem, rfl, hblocks, rfl⟩
    · cases h

theorem raise_cases {is : List Instruction} {s s' : PathState} {taken : Nat}
    (h : s.step is (.raise taken) = some s') :
    catchError s.contexts = some (s'.pc, s'.contexts) ∧ 0 ≤ s'.pc ∧ s'.pc < is.length := by
  unfold PathState.step at h
  cases hins : insAt is s.pc with
  | none => simp [hins] at h
  | some ins =>
    cases hcatch : catchError s.contexts with
    | none => simp [hins, hcatch] at h
    | some caught =>
      simp only [hins, hcatch] at h
      split at h
      · rename_i hrange
        cases h
        exact ⟨rfl, hrange⟩
      · cases h

/-- The handler is in the innermost context that has one. -/
theorem catchError_cases {contexts contexts' : List (Option Int)} {h : Int}
    (hcatch : catchError contexts = some (h, contexts')) :
    ∃ pre rest, contexts = pre ++ some h :: rest ∧ (∀ x ∈ pre, x = none) ∧
      contexts' = none :: rest := by
  induction contexts with
  | nil => cases hcatch
  | cons x contexts ih =>
    cases x with
    | some h' =>
      cases hcatch
      exact ⟨[], contexts, rfl, by simp, rfl⟩
    | none =>
      obtain ⟨pre, rest, rfl, hpre, hrest⟩ := ih hcatch
      exact ⟨none :: pre, rest, rfl, by simpa using hpre, hrest⟩

/-! ## Levels along a path -/

namespace Code

variable {W : Weight} {c : Code} {l : Int}

/-- The level of a position of the code or of the position after it. -/
def levelAt (W : Weight) (c : Code) (l : Int) (pc : Int) : Option Int :=
  if pc = c.size then some (l + c.net W)
  else if pc < 0 then none
  else ((c.marks W l)[pc.toNat]?).bind Mark.level

/-- A step that no jump of the wrong level takes. -/
def Tame (W : Weight) (c : Code) (s : PathState) : Move → Prop
  | .goto _ => ∀ m, (c.marks W 0)[s.pc.toNat]? = some m → m.wild = false
  | .raise _ => True

theorem levelAt_size : c.levelAt W l c.size = some (l + c.net W) := by
  rw [levelAt, if_pos rfl]

theorem agrees_levelAt : Agrees (c.levelAt W l) 0 (c.marks W l) := by
  rw [Agrees.iff_getElem]
  intro i m hi
  have hlt : i < c.size := by
    have := (List.getElem?_eq_some_iff.mp hi).1
    rwa [length_marks] at this
  rw [levelAt, if_neg (by omega), if_neg (by omega)]
  simp [hi]

theorem fits_levelAt (h : c.HasLevel W l) :
    Fits W (c.levelAt W l) 0 (c.marks W l) ∧ c.levelAt W l 0 = some l := by
  apply fits_marks c l h agrees_levelAt
  rw [Int.zero_add]
  exact levelAt_size

theorem mark_of_insAt {pc : Int} {ins : Instruction} (h : insAt c.code pc = some ins) (l : Int) :
    ∃ m, (c.marks W l)[pc.toNat]? = some m ∧ m.item.ins = ins ∧ pc = pc.toNat ∧
      c.levelAt W l pc = m.level := by
  obtain ⟨i, rfl, hi⟩ := insAt_some h
  rw [code, ← marks_item c l, List.map_map, List.getElem?_map] at hi
  obtain ⟨m, hm, rfl⟩ := Option.map_eq_some_iff.mp hi
  have hlevel := Agrees.iff_getElem.mp (agrees_levelAt (W := W) (c := c) (l := l)) i m hm
  rw [Int.zero_add] at hlevel
  exact ⟨m, by simpa using hm, rfl, by simp, hlevel⟩

/-- A tame step goes from level to level. -/
theorem level_goto (h : c.HasLevel W 0) {s s' : PathState} {pc : Int}
    (htame : c.Tame W s (.goto pc)) (hstep : s.step c.code (.goto pc) = some s')
    (hlevel : c.levelAt W 0 s.pc = some l) :
    ∃ ins, W.need ins ≤ l ∧ c.levelAt W 0 s'.pc = some (l + W.gain ins) ∧
      (∀ j ∈ ins.handler s.pc, c.levelAt W 0 j = some (l + W.gain ins)) ∧
      ins.blocks s.pc s.contexts = some s'.contexts ∧
      s'.height = s.height - ins.takes + ins.leaves := by
  obtain ⟨ins, hins, hnext, rfl, hblocks, hheight⟩ := goto_cases hstep
  obtain ⟨m, hm, rfl, hpc, hl⟩ := mark_of_insAt (W := W) hins 0
  rw [hlevel] at hl
  have hfits := Fits.iff_getElem.mp (fits_levelAt h).1 _ m hm l hl.symm
  rw [Int.zero_add, ← hpc] at hfits
  obtain ⟨hneed, hnexts⟩ := hfits
  have hto := hnexts (htame m hm)
  exact ⟨_, hneed, hto _ (List.mem_append_left _ hnext),
    fun j hj => hto j (List.mem_append_right _ hj), hblocks, hheight⟩

/-- Positions with a level are those of the code and the one after it. -/
theorem levelAt_range {pc l' : Int} (h : c.levelAt W l pc = some l') : 0 ≤ pc ∧ pc ≤ c.size := by
  unfold levelAt at h
  split at h
  · omega
  · split at h
    · cases h
    · obtain ⟨m, hm, -⟩ := Option.bind_eq_some_iff.mp h
      have := (List.getElem?_eq_some_iff.mp hm).1
      rw [length_marks] at this
      unfold size
      omega

end Code

end JeffVm
