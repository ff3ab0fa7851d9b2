import JeffVm.TapeBinaryRoundTrip

/-!
# The width of string references

The writer decides by the number of recorded strings and the reader by the number of strings it
has read. They differ when the name of the module is in the list twice.
-/

set_option autoImplicit false

namespace JeffVm

/-- The strings that a reader finds: their number is written in two bytes. -/
def StringTable.written (st : StringTable) : List String :=
  st.strings.take (st.strings.length % 2 ^ 16)

theorem readStrings_written {st : StringTable}
    (hstr : ∀ s ∈ st.strings, CString s ∧ s.length < maxStringSz) (rest : List UInt8) :
    ∃ rest', readStrings (serializeAllStrings st ++ rest) = some (st.written, rest') := by
  have hrun : ∀ ss acc : List String,
      ss.foldlM (fun acc s => some (acc ++ [s])) acc = some (acc ++ ss) := by
    intro ss
    induction ss with
    | nil => intro acc; simp
    | cons s ss ih => intro acc; simp [List.foldlM_cons, ih]
  have hwritten : st.written.length = st.strings.length % 256 ^ 2 := by
    rw [StringTable.written, List.length_take]
    exact Nat.min_eq_left (Nat.mod_le _ _)
  have hread : Decodes readStrings
      (leBytes 2 st.strings.length ++ st.written.flatMap serializeStr) st.written := by
    apply Decodes.bind (Decodes.le_mod 2 st.strings.length)
    rw [← hwritten]
    apply Decodes.iterate _ (hrun st.written [])
    intro s hs acc acc' hacc
    cases hacc
    obtain ⟨hc, hl⟩ := hstr s (List.mem_of_mem_take hs)
    exact Decodes.bind_pure (decodes_string hc hl)
  refine ⟨(st.strings.drop (st.strings.length % 2 ^ 16)).flatMap serializeStr ++ rest, ?_⟩
  have hsplit : serializeAllStrings st ++ rest =
      leBytes 2 st.strings.length ++ st.written.flatMap serializeStr ++
        ((st.strings.drop (st.strings.length % 2 ^ 16)).flatMap serializeStr ++ rest) := by
    conv_lhs => rw [serializeAllStrings,
      ← List.take_append_drop (st.strings.length % 2 ^ 16) st.strings, List.flatMap_append]
    simp only [StringTable.written, List.append_assoc, List.take_append_drop]
  rw [hsplit]
  exact hread _

/-- Writer and reader use the same number of bytes for a reference to `s`, and the reader of the
instruction finds `s`. -/
def RefAgrees (st : StringTable) (garbage : Nat) (ins : Instruction) (s : String) : Prop :=
  ((serializeRef st s).length = 1 ↔ st.written.length ≤ uint8Max) ∧
    Decodes (deserializeIns st.written) (serializeIns st garbage ins) ins

/-- The count of strings is at the edge of a byte or of two, and the second copy of the module
name carries it over. -/
def Tape.RefsSplit (tape : Tape) : Prop :=
  tape.NameRecurs ∧
    (tape.allTexts.toFinset.card = uint8Max ∨ tape.allTexts.toFinset.card = 2 ^ 16 - 1)

section

variable {tape : Tape} {st : StringTable} {ins : Instruction} {s : String}

theorem named_of_intern (hst : internAllStrings tape = some st) :
    ∃ name, tape.moduleName = some name := by
  cases hname : tape.moduleName with
  | none => simp [internAllStrings, hname] at hst
  | some name => exact ⟨name, rfl⟩

theorem length_ref_eq_one : (serializeRef st s).length = 1 ↔ st.mapSize ≤ uint8Max := by
  rw [length_serializeRef]
  split <;> omega

theorem not_refAgrees_of_splits (hst : internAllStrings tape = some st)
    (hsplit : tape.RefsSplit) (garbage : Nat) : ¬ RefAgrees st garbage ins s := by
  obtain ⟨name, hname⟩ := named_of_intern hst
  obtain ⟨hrecurs, hedge⟩ := hsplit
  have hsize := mapSize_eq_card hname hst
  have hlen := length_strings_eq hname hst
  rw [if_pos hrecurs] at hlen
  have hwritten : st.written.length = st.strings.length % 2 ^ 16 := by
    rw [StringTable.written, List.length_take]
    exact Nat.min_eq_left (Nat.mod_le _ _)
  rintro ⟨hwidth, -⟩
  rw [length_ref_eq_one, hwritten, hlen, hsize] at hwidth
  rcases hedge with hbyte | hword
  · rw [hbyte] at hwidth
    simp [uint8Max] at hwidth
  · rw [hword] at hwidth
    simp [uint8Max] at hwidth

theorem refAgrees_of_not_splits (hst : internAllStrings tape = some st)
    (hfew : tape.allTexts.toFinset.card < 2 ^ 16) (hins : ins ∈ tape.ins)
    (hs : ins.text = some s) (hsplit : ¬ tape.RefsSplit) (garbage : Nat) :
    RefAgrees st garbage ins s := by
  obtain ⟨name, hname⟩ := named_of_intern hst
  have htable := internAllStrings_interned hname hst
  have hsize := mapSize_eq_card hname hst
  have hlen := length_strings_eq hname hst
  have hcount : st.strings.length < 2 ^ 16 ∧
      (st.mapSize > uint8Max ↔ st.strings.length > uint8Max) := by
    by_cases hrecurs : tape.NameRecurs
    · rw [if_pos hrecurs] at hlen
      have hbyte : tape.allTexts.toFinset.card ≠ uint8Max := fun h => hsplit ⟨hrecurs, .inl h⟩
      have hword : tape.allTexts.toFinset.card ≠ 2 ^ 16 - 1 := fun h =>
        hsplit ⟨hrecurs, .inr h⟩
      omega
    · rw [if_neg hrecurs] at hlen
      omega
  have hwritten : st.written = st.strings := by
    rw [StringTable.written, Nat.mod_eq_of_lt hcount.1, List.take_length]
  have hrep : ins.Representable := by
    intro p hp
    rw [Instruction.text, hp] at hs
    cases hs
  have htext : ∀ s', ins.text = some s' → (s' = name ∨ s' ∈ tape.texts) ∧
      (st.mapSize > uint8Max ↔ st.strings.length > uint8Max) := by
    intro s' hs'
    refine ⟨.inr ?_, hcount.2⟩
    rw [Tape.texts, List.mem_append, List.mem_filterMap]
    exact .inr ⟨ins, hins, hs'⟩
  refine ⟨?_, ?_⟩
  · rw [length_ref_eq_one, hwritten]
    omega
  · rw [hwritten]
    exact decodes_ins htable hcount.1 hrep htext garbage

/-- A reference to a string is read as it was written unless the second copy of the module name
makes the list longer than a count of one or two bytes says. -/
theorem refs_agree_iff (hst : internAllStrings tape = some st)
    (hfew : tape.allTexts.toFinset.card < 2 ^ 16) (hins : ins ∈ tape.ins)
    (hs : ins.text = some s) (garbage : Nat) :
    RefAgrees st garbage ins s ↔ ¬ tape.RefsSplit :=
  ⟨fun hagrees hsplit => not_refAgrees_of_splits hst hsplit garbage hagrees,
    fun hsplit => refAgrees_of_not_splits hst hfew hins hs hsplit garbage⟩

end

theorem refs_agree_shapesTape : ∃ st, internAllStrings shapesTape = some st ∧
    ∀ ins ∈ shapesTape.ins, ∀ s, ins.text = some s → RefAgrees st 0 ins s := by
  refine ⟨_, rfl, fun ins hins s hs => (refs_agree_iff rfl ?_ hins hs 0).mpr ?_⟩
  · decide +kernel
  · rintro ⟨-, hover⟩
    revert hover
    decide +kernel

def letters (n : Nat) : String := String.ofList (List.replicate n 'a')

theorem letters_injective : Function.Injective letters := by
  intro m n h
  have hlists := congrArg String.toList h
  simp only [letters, String.toList_ofList] at hlists
  simpa using congrArg List.length hlists

/-- The empty string names the module and a variable among 255 variables. -/
def byteTape : Tape :=
  { Tape.create with
    moduleName := some (letters 0)
    ins := (List.range 255).map fun n => ⟨.RES, .id (letters n)⟩
    sourceMap := List.replicate 255 ⟨1, 1⟩ }

theorem texts_byteTape : byteTape.texts = (List.range 255).map letters := by
  simp only [Tape.texts, byteTape, Tape.create, KeyedList.entries_empty, List.flatMap_nil,
    List.map_nil, List.nil_append, List.filterMap_map]
  rw [← List.filterMap_eq_map]
  rfl

theorem card_byteTape : byteTape.allTexts.toFinset.card = 255 := by
  have hmem : letters 0 ∈ (List.range 255).map letters :=
    List.mem_map_of_mem (List.mem_range.mpr (by omega))
  have hall : byteTape.allTexts.toFinset = ((List.range 255).map letters).toFinset := by
    rw [Tape.allTexts, texts_byteTape]
    simp only [byteTape, Option.toList_some, List.singleton_append, List.toFinset_cons]
    exact Finset.insert_eq_of_mem (List.mem_toFinset.mpr hmem)
  rw [hall, List.toFinset_card_of_nodup (List.nodup_range.map letters_injective),
    List.length_map, List.length_range]

/-- The writer counts 255 strings and the reader 256. -/
theorem not_refs_agree : ¬ ∀ (tape : Tape) (st : StringTable) (ins : Instruction) (s : String)
    (garbage : Nat), internAllStrings tape = some st → tape.allTexts.toFinset.card < 2 ^ 16 →
      ins ∈ tape.ins → ins.text = some s → RefAgrees st garbage ins s := by
  intro h
  have hname : byteTape.moduleName = some (letters 0) := rfl
  have hmem : letters 0 ∈ byteTape.texts := by
    rw [texts_byteTape]
    exact List.mem_map_of_mem (List.mem_range.mpr (by omega))
  have hins : (⟨.RES, .id (letters 0)⟩ : Instruction) ∈ byteTape.ins :=
    List.mem_map_of_mem (f := fun n => (⟨.RES, .id (letters n)⟩ : Instruction))
      (List.mem_range.mpr (by omega))
  have hsplit : byteTape.RefsSplit :=
    ⟨⟨letters 0, Option.mem_def.mpr hname, hmem⟩, .inl card_byteTape⟩
  have hst := internAllStrings_eq hname
  refine not_refAgrees_of_splits hst hsplit 0
    (h byteTape _ _ _ 0 hst ?_ hins rfl)
  rw [card_byteTape]
  omega

end JeffVm
