import JeffVm.Lib.Editing
import JeffVm.Files
import JeffVm.Optimizer

/-!
# What a pass leaves of a tape

The rebuilt tape holds the edited instructions in their order; only the operands of jumps
are computed anew, and a jump goes on to end where it ended before.
-/

set_option autoImplicit false

namespace JeffVm

open Editing

/-! ## The loops of the passes -/

theorem mem_pairRounds {round : Nat → Instruction → Instruction → Adjustments}
    {p : Nat × Adjustment} : ∀ {tape : List Instruction} {s : Nat},
      p ∈ pairRounds round s tape ↔ ∃ i first second, tape[i]? = some first ∧
        tape[i + 1]? = some second ∧ p ∈ round (s + i) first second
  | [], s => by simp [pairRounds]
  | [_], s => by simp [pairRounds]
  | a :: b :: rest, s => by
    rw [pairRounds, List.mem_append, mem_pairRounds]
    constructor
    · rintro (h | ⟨i, first, second, hfirst, hsecond, h⟩)
      · exact ⟨0, a, b, rfl, rfl, h⟩
      · refine ⟨i + 1, first, second, hfirst, hsecond, ?_⟩
        rwa [Nat.add_right_comm] at h
    · rintro ⟨i, first, second, hfirst, hsecond, h⟩
      cases i with
      | zero =>
        cases hfirst
        cases hsecond
        exact .inl h
      | succ i =>
        refine .inr ⟨i, first, second, hfirst, hsecond, ?_⟩
        rwa [← Nat.add_assoc, Nat.add_right_comm] at h

theorem mem_tripleRounds {round : Nat → Instruction → Instruction → Instruction → Adjustments}
    {p : Nat × Adjustment} : ∀ {tape : List Instruction} {s : Nat},
      p ∈ tripleRounds round s tape ↔ ∃ i first second third, tape[i]? = some first ∧
        tape[i + 1]? = some second ∧ tape[i + 2]? = some third ∧
          p ∈ round (s + i) first second third
  | [], s => by simp [tripleRounds]
  | [_], s => by simp [tripleRounds]
  | [_, _], s => by simp [tripleRounds]
  | a :: b :: c :: rest, s => by
    rw [tripleRounds, List.mem_append, mem_tripleRounds]
    constructor
    · rintro (h | ⟨i, first, second, third, hfirst, hsecond, hthird, h⟩)
      · exact ⟨0, a, b, c, rfl, rfl, rfl, h⟩
      · refine ⟨i + 1, first, second, third, hfirst, hsecond, hthird, ?_⟩
        rwa [Nat.add_right_comm] at h
    · rintro ⟨i, first, second, third, hfirst, hsecond, hthird, h⟩
      cases i with
      | zero =>
        cases hfirst
        cases hsecond
        cases hthird
        exact .inl h
      | succ i =>
        refine .inr ⟨i, first, second, third, hfirst, hsecond, hthird, ?_⟩
        rwa [← Nat.add_assoc, Nat.add_right_comm] at h

theorem mem_eachRound {round : Nat → Instruction → Adjustments} {p : Nat × Adjustment} :
    ∀ {tape : List Instruction} {s : Nat}, p ∈ eachRound round s tape ↔
      ∃ i ins, tape[i]? = some ins ∧ p ∈ round (s + i) ins
  | [], s => by simp [eachRound]
  | a :: rest, s => by
    rw [eachRound, List.mem_append, mem_eachRound]
    constructor
    · rintro (h | ⟨i, ins, hins, h⟩)
      · exact ⟨0, a, rfl, h⟩
      · refine ⟨i + 1, ins, hins, ?_⟩
        rwa [Nat.add_right_comm] at h
    · rintro ⟨i, ins, hins, h⟩
      cases i with
      | zero =>
        cases hins
        exact .inl h
      | succ i =>
        refine .inr ⟨i, ins, hins, ?_⟩
        rwa [← Nat.add_assoc, Nat.add_right_comm] at h

theorem mem_optimizerJmpResFrom {tape : List Instruction} {p : Nat × Adjustment} :
    ∀ {rest : List Instruction} {s : Nat} {as : Adjustments},
      optimizerJmpResFrom tape s rest = some as → p ∈ as →
        ∃ i first second bs, rest[i]? = some first ∧ rest[i + 1]? = some second ∧
          roundJmpRes tape (s + i) first second = some bs ∧ p ∈ bs
  | [], s, as, h, hp => by cases h; cases hp
  | [_], s, as, h, hp => by cases h; cases hp
  | a :: b :: rest, s, as, h, hp => by
    rw [optimizerJmpResFrom] at h
    split at h
    · next bs cs hround hfrom =>
      cases h
      rcases List.mem_append.mp hp with hp | hp
      · exact ⟨0, a, b, bs, rfl, rfl, hround, hp⟩
      · obtain ⟨i, first, second, ds, hfirst, hsecond, hds, hmem⟩ :=
          mem_optimizerJmpResFrom hfrom hp
        refine ⟨i + 1, first, second, ds, hfirst, hsecond, ?_, hmem⟩
        rwa [Nat.add_right_comm] at hds
    · cases h

theorem Adjustments.mem_of_lookup {as : Adjustments} {i : Nat} {a : Adjustment}
    (h : as.lookup i = some a) : (i, a) ∈ as := by
  obtain ⟨⟨j, b⟩, hfind, rfl⟩ := Option.map_eq_some_iff.mp h
  have hmem := List.mem_reverse.mp (List.mem_of_find?_eq_some hfind)
  have hj : j = i := by simpa using List.find?_some hfind
  exact hj ▸ hmem

theorem Adjustments.lookup_isSome {as : Adjustments} {i : Nat} {a : Adjustment}
    (h : (i, a) ∈ as) : (as.lookup i).isSome = true := by
  rw [Adjustments.lookup, Option.isSome_map, List.find?_isSome]
  exact ⟨(i, a), List.mem_reverse.mpr h, beq_self_eq_true i⟩

/-- The last adjustment of an instruction, where all of them are the same. -/
theorem Adjustments.lookup_of_unique {as : Adjustments} {i : Nat} {a : Adjustment}
    (hmem : (i, a) ∈ as) (hunique : ∀ a', (i, a') ∈ as → a' = a) : as.lookup i = some a := by
  unfold Adjustments.lookup
  cases hfind : as.reverse.find? fun p => p.1 == i with
  | none =>
    have hnone := List.find?_eq_none.mp hfind (i, a) (List.mem_reverse.mpr hmem)
    exact absurd (beq_self_eq_true i) hnone
  | some p =>
    obtain ⟨j, a'⟩ := p
    have hj : j = i := by simpa using List.find?_some hfind
    subst hj
    have hp := List.mem_reverse.mp (List.mem_of_find?_eq_some hfind)
    rw [hunique a' hp]
    rfl

/-! ## The labels -/

namespace Tape

theorem addSuper_ins {tape tape' : Tape} {parent : String}
    (h : tape.addSuper parent = some tape') : tape'.ins = tape.ins := by
  unfold addSuper at h
  split at h
  · cases h
  · cases h
    rfl

theorem foldlM_ins {α : Type} {f : Tape → α → Option Tape}
    (hf : ∀ tape tape' a, f tape a = some tape' → tape'.ins = tape.ins) :
    ∀ {as : List α} {tape tape' : Tape}, as.foldlM f tape = some tape' → tape'.ins = tape.ins
  | [], tape, tape', h => by
    cases h
    rfl
  | a :: as, tape, tape', h => by
    obtain ⟨next, hnext, hrest⟩ := Option.bind_eq_some_iff.mp h
    exact (foldlM_ins hf hrest).trans (hf tape next a hnext)

theorem openClass_ins {new new' : Tape} {c : ClassRef} (h : new.openClass c = some new') :
    new'.ins = new.ins := by
  unfold openClass at h
  split at h
  · cases h
  · next new₁ hstart =>
    split at h
    · cases h
    · next new₂ hsupers =>
      rw [foldlM_ins (fun _ _ _ => field_ins) h,
        foldlM_ins (fun _ _ _ => addSuper_ins) hsupers, startClass_ins hstart]

/-- Labels leave the instructions as they are. -/
theorem labelsAt_ins {t new new' : Tape} {i : Nat} (h : t.labelsAt i new = some new') :
    new'.ins = new.ins := by
  unfold labelsAt at h
  dsimp only at h
  split at h
  · cases h
  · next new₁ hend =>
    have h₁ : new₁.ins = new.ins := by
      split at hend
      · exact endClass_ins hend
      · cases hend
        rfl
    split at h
    · cases h
    · next new₂ hopen =>
      have h₂ : new₂.ins = new₁.ins := by
        split at hopen
        · exact openClass_ins hopen
        · cases hopen
          rfl
      split at h
      · exact (startFuncAtIndex_ins h).trans (h₂.trans h₁)
      · cases h
        exact h₂.trans h₁

end Tape

/-! ## The instructions of the new tape -/

namespace Adjustments

/-- What becomes of the instruction at an index. -/
def edit (as : Adjustments) (i : Nat) (ins : Instruction) : Option Instruction :=
  Adjustment.apply ins (as.lookup i)

/-- The index of the new tape that `new_index` holds for an old one: that of the instruction
itself, or of the last one kept before it. -/
def landing (as : Adjustments) (old : List Instruction) (i : Nat) : Int :=
  position as.edit old i - if (as.lookup i) = some .remove then 1 else 0

theorem edit_eq_none {as : Adjustments} {i : Nat} {ins : Instruction} :
    as.edit i ins = none ↔ as.lookup i = some .remove := by
  unfold edit
  cases as.lookup i with
  | none => simp [Adjustment.apply]
  | some a => cases a <;> simp [Adjustment.apply]

/-- The entries of `new_index` for the instructions from index `i` on. -/
def newIndices (as : Adjustments) : Nat → List Instruction → Nat → List Int
  | _, [], _ => []
  | i, ins :: rest, n =>
    match as.edit i ins with
    | none => ((n : Int) - 1) :: newIndices as (i + 1) rest n
    | some _ => (n : Int) :: newIndices as (i + 1) rest (n + 1)

theorem newIndices_getElem? (as : Adjustments) : ∀ (s n : Nat) (rest : List Instruction) (k : Nat),
    (newIndices as s rest n)[k]? = rest[k]?.map fun _ =>
      (n : Int) + (edited as.edit s (rest.take k)).length -
        if as.lookup (s + k) = some .remove then 1 else 0
  | s, n, [], k => by simp [newIndices]
  | s, n, ins :: rest, 0 => by
    rw [newIndices, Nat.add_zero]
    cases hedit : as.edit s ins with
    | none => simp [edited, edit_eq_none.mp hedit]
    | some new =>
      have hkept : as.lookup s ≠ some .remove := by
        intro hremove
        rw [edit_eq_none.mpr hremove] at hedit
        cases hedit
      simp [edited, hkept]
  | s, n, ins :: rest, k + 1 => by
    have hshift : s + (k + 1) = s + 1 + k := by omega
    rw [newIndices, hshift, List.take_succ_cons]
    cases hedit : as.edit s ins with
    | none =>
      rw [edited_cons_none hedit]
      exact newIndices_getElem? as (s + 1) n rest k
    | some new =>
      rw [edited_cons_some hedit]
      simp only [List.getElem?_cons_succ]
      rw [newIndices_getElem? as (s + 1) (n + 1) rest k]
      simp only [List.length_cons]
      congr 1
      funext _
      rw [Nat.cast_succ, Nat.cast_succ, add_assoc, add_comm (1 : Int)]

theorem newIndices_zero (as : Adjustments) (old : List Instruction) (k : Nat) :
    (newIndices as 0 old 0)[k]? = old[k]?.map fun _ => as.landing old k := by
  rw [newIndices_getElem?, Nat.zero_add]
  congr 1
  funext _
  rw [Nat.cast_zero, zero_add]
  rfl

end Adjustments

theorem resolveFrom_spec {t : Tape} {as : Adjustments} : ∀ {rest : List Instruction} {i : Nat}
    {r r' : Resolving}, resolveFrom t as i rest r = some r' →
      r'.newTape.ins = r.newTape.ins ++ (edited as.edit i rest).map Prod.snd ∧
      r'.oldIndex = r.oldIndex ++ (edited as.edit i rest).map Prod.fst ∧
      r'.newIndex = r.newIndex ++ as.newIndices i rest r.newTape.size
  | [], i, r, r', h => by
    rw [resolveFrom] at h
    obtain ⟨new, hlabels, rfl⟩ := Option.map_eq_some_iff.mp h
    simp [edited, Adjustments.newIndices, Tape.labelsAt_ins hlabels]
  | ins :: rest, i, r, r', h => by
    rw [resolveFrom] at h
    split at h
    · cases h
    · next new hlabels =>
      have hins := Tape.labelsAt_ins hlabels
      have hsize : new.size = r.newTape.size := by rw [Tape.size, hins]; rfl
      rw [Adjustments.newIndices]
      cases hedit : as.edit i ins with
      | none =>
        rw [edited_cons_none hedit]
        unfold Adjustments.edit at hedit
        rw [hedit] at h
        obtain ⟨h₁, h₂, h₃⟩ := resolveFrom_spec h
        refine ⟨by rw [h₁, hins], h₂, ?_⟩
        rw [h₃, hsize, List.append_assoc]
        rfl
      | some newIns =>
        rw [edited_cons_some hedit]
        unfold Adjustments.edit at hedit
        rw [hedit] at h
        obtain ⟨h₁, h₂, h₃⟩ := resolveFrom_spec h
        refine ⟨?_, ?_, ?_⟩
        · rw [h₁, Tape.add_ins, hins, List.append_assoc]
          rfl
        · rw [h₂, List.append_assoc]
          rfl
        · have hadd : (new.add newIns (t.sourceMap.getD i ⟨-1, -1⟩)).size =
              r.newTape.size + 1 := by
            rw [Tape.size, Tape.add_ins, List.length_append, ← hsize]
            rfl
          rw [h₃, hadd, hsize, List.append_assoc]
          rfl

theorem retargetFrom_getElem? {r : Resolving} : ∀ {ins ins' : List Instruction} {s : Nat},
    r.retargetFrom s ins = some ins' →
      ins'.length = ins.length ∧
        ∀ j x, ins[j]? = some x → ∃ y, ins'[j]? = some y ∧ r.retarget (s + j) x = some y
  | [], ins', s, h => by
    cases h
    exact ⟨rfl, by simp⟩
  | x :: rest, ins', s, h => by
    rw [Resolving.retargetFrom] at h
    split at h
    · next y ys hy hys =>
      cases h
      obtain ⟨hlen, hrest⟩ := retargetFrom_getElem? hys
      refine ⟨by rw [List.length_cons, hlen, List.length_cons], fun j z hz => ?_⟩
      cases j with
      | zero =>
        cases hz
        exact ⟨y, rfl, hy⟩
      | succ j =>
        obtain ⟨w, hw, hretarget⟩ := hrest j z hz
        refine ⟨w, hw, ?_⟩
        rwa [Nat.add_right_comm] at hretarget
    · cases h

/-- The instruction `y` of the new tape at index `j` comes from `x`, which had index `i`. -/
def Adjustments.Retargeted (as : Adjustments) (old : List Instruction) (i j : Nat)
    (x y : Instruction) : Prop :=
  if x.op.isGoto then
    ∃ n : Int, x.pint = some n ∧ 0 ≤ i + n ∧ (i + n).toNat < old.length ∧
      y = ⟨x.op, .val (.int (as.landing old (i + n).toNat - j))⟩
  else y = x

theorem Adjustments.Retargeted.op_eq {as : Adjustments} {old : List Instruction} {i j : Nat}
    {x y : Instruction} (h : as.Retargeted old i j x y) : y.op = x.op := by
  unfold Adjustments.Retargeted at h
  split at h
  · obtain ⟨n, -, -, -, rfl⟩ := h
    rfl
  · rw [h]

/-- The new tape holds exactly the edited instructions, with retargeted jumps. -/
theorem ohResolve_ins {t t' : Tape} {as : Adjustments} (h : ohResolve t as = some t') :
    t'.ins.length = (edited as.edit 0 t.ins).length ∧
      ∀ j i x, (edited as.edit 0 t.ins)[j]? = some (i, x) →
        ∃ y, t'.ins[j]? = some y ∧ as.Retargeted t.ins i j x y := by
  unfold ohResolve at h
  split at h
  · cases h
  · next r hr =>
    obtain ⟨ins, hins, rfl⟩ := Option.map_eq_some_iff.mp h
    obtain ⟨h₁, h₂, h₃⟩ := resolveFrom_spec hr
    obtain ⟨hlen, hat⟩ := retargetFrom_getElem? hins
    simp only [Tape.create, List.nil_append, Tape.size, List.length_nil] at h₁ h₂ h₃
    refine ⟨by rw [hlen, h₁, List.length_map], fun j i x hj => ?_⟩
    have hx : r.newTape.ins[j]? = some x := by rw [h₁, List.getElem?_map, hj]; rfl
    have hold : r.oldIndex[j]? = some i := by rw [h₂, List.getElem?_map, hj]; rfl
    obtain ⟨y, hy, hretarget⟩ := hat j x hx
    refine ⟨y, hy, ?_⟩
    rw [Nat.zero_add, Resolving.retarget] at hretarget
    unfold Adjustments.Retargeted
    split
    · next hgoto =>
      rw [if_pos hgoto, hold] at hretarget
      cases hpint : x.pint with
      | none => simp [hpint] at hretarget
      | some n =>
        simp only [hpint] at hretarget
        split at hretarget
        · next hnonneg =>
          obtain ⟨g, hg, rfl⟩ := Option.map_eq_some_iff.mp hretarget
          rw [h₃, Adjustments.newIndices_zero] at hg
          obtain ⟨z, hz, rfl⟩ := Option.map_eq_some_iff.mp hg
          exact ⟨n, rfl, hnonneg, (List.getElem?_eq_some_iff.mp hz).1, rfl⟩
        · cases hretarget
    · next hgoto =>
      rw [if_neg hgoto] at hretarget
      exact (Option.some.inj hretarget).symm

end JeffVm
