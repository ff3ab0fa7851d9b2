import JeffVm.TapeBinary

/-!
# The string table of the binary writer

The position recorded for a string always leads back to it. The module name sits at
position 0, which the lookup cannot tell from absence, so it is stored a second time as
soon as anything else on the tape has the same name.
-/

set_option autoImplicit false

namespace JeffVm

namespace ClassRef

def texts (cref : ClassRef) : List String :=
  [cref.name] ++ cref.supers ++ cref.funcRefs.entries.map FunctionRef.name ++
    cref.fieldRefs.entries.map FieldRef.name

end ClassRef

namespace Tape

/-- Every string of the tape after its module name, in the order the writer meets them. -/
def texts (tape : Tape) : List String :=
  tape.classRefs.entries.flatMap ClassRef.texts ++ tape.funcRefs.entries.map FunctionRef.name ++
    tape.ins.filterMap Instruction.text

end Tape

theorem internClassStrings_eq (st : StringTable) (cref : ClassRef) :
    internClassStrings st cref = cref.texts.foldl StringTable.insertString st := by
  simp [internClassStrings, ClassRef.texts, List.foldl_append, List.foldl_map]

theorem internInsString_eq (st : StringTable) (ins : Instruction) :
    internInsString st ins = ins.text.toList.foldl StringTable.insertString st := by
  obtain ⟨op, arg⟩ := ins
  cases arg <;> rfl

theorem foldl_internClassStrings (crefs : List ClassRef) (st : StringTable) :
    crefs.foldl internClassStrings st =
      (crefs.flatMap ClassRef.texts).foldl StringTable.insertString st := by
  induction crefs generalizing st with
  | nil => rfl
  | cons c cs ih =>
    rw [List.foldl_cons, ih, List.flatMap_cons, List.foldl_append, internClassStrings_eq]

theorem foldl_internInsString (is : List Instruction) (st : StringTable) :
    is.foldl internInsString st =
      (is.filterMap Instruction.text).foldl StringTable.insertString st := by
  induction is generalizing st with
  | nil => rfl
  | cons i is ih =>
    rw [List.foldl_cons, ih, internInsString_eq, List.filterMap_cons]
    cases i.text with
    | none => rfl
    | some s => rfl

theorem internAllStrings_eq {tape : Tape} {name : String} (hname : tape.moduleName = some name) :
    internAllStrings tape =
      some (tape.texts.foldl StringTable.insertString (StringTable.empty.insertString name)) := by
  simp [internAllStrings, hname, Tape.texts, List.foldl_append, foldl_internClassStrings,
    foldl_internInsString, List.foldl_map]

namespace StringTable

/-- The table after the module name `name` and then `ws` were inserted. -/
structure Interned (name : String) (ws : List String) (st : StringTable) : Prop where
  sound : ∀ s n, st.index.lookup s = some n → st.strings[n]? = some s
  mem_index : ∀ s, s ∈ st.index ↔ s = name ∨ s ∈ ws
  zero_iff : ∀ s, st.index.lookup s = some 0 ↔ s = name ∧ name ∉ ws
  length_eq : st.strings.length = st.mapSize + if name ∈ ws then 1 else 0
  head : st.strings[0]? = some name

theorem insertString_empty (name : String) :
    empty.insertString name = ⟨[name], (∅ : AList (fun _ : String => Nat)).insert name 0⟩ := by
  simp [insertString, mapLookup, empty]

theorem interned_nil (name : String) : Interned name [] (empty.insertString name) := by
  rw [insertString_empty]
  refine ⟨?_, ?_, ?_, ?_, rfl⟩
  · intro s n h
    by_cases hs : s = name
    · subst hs
      rw [AList.lookup_insert] at h
      cases h
      rfl
    · rw [AList.lookup_insert_ne hs] at h
      simp at h
  · intro s
    rw [AList.mem_insert]
    simp
  · intro s
    by_cases hs : s = name
    · subst hs
      rw [AList.lookup_insert]
      simp
    · rw [AList.lookup_insert_ne hs]
      simp [hs]
  · simp [mapSize]

theorem mapSize_insert (st : StringTable) (s : String) (n : Nat) :
    (st.index.insert s n).keys.length = if s ∈ st.index then st.mapSize else st.mapSize + 1 := by
  rw [AList.keys_insert, List.length_cons]
  by_cases hs : s ∈ st.index
  · have hpos : 0 < st.index.keys.length := List.length_pos_of_mem (AList.mem_keys.mp hs)
    rw [if_pos hs, List.length_erase_of_mem (AList.mem_keys.mp hs)]
    simp only [mapSize]
    omega
  · rw [if_neg hs, List.erase_of_not_mem (fun h => hs (AList.mem_keys.mpr h))]
    rfl

theorem Interned.length_pos {name : String} {ws : List String} {st : StringTable}
    (h : Interned name ws st) : 0 < st.strings.length := by
  have := h.head
  cases hs : st.strings with
  | nil => simp [hs] at this
  | cons a as => simp

theorem Interned.insertString {name : String} {ws : List String} {st : StringTable}
    (h : Interned name ws st) (s : String) : Interned name (ws ++ [s]) (st.insertString s) := by
  unfold StringTable.insertString
  by_cases hfound : st.mapLookup s ≠ 0
  · -- the string is recorded at a nonzero position, so it is one of `ws`
    rw [if_pos hfound]
    have hsome : st.index.lookup s = some (st.mapLookup s) := by
      cases hl : st.index.lookup s with
      | none => simp [mapLookup, hl] at hfound
      | some n => simp [mapLookup, hl]
    have hmem : s = name ∨ s ∈ ws := (h.mem_index s).mp (AList.lookup_isSome.mp (by simp [hsome]))
    have hname : s = name → name ∈ ws := by
      intro heq
      by_contra hnot
      have hzero := (h.zero_iff s).mpr ⟨heq, hnot⟩
      rw [hsome] at hzero
      exact hfound (Option.some.inj hzero)
    have hmemws : ∀ t, t = name ∨ t ∈ ws ↔ t = name ∨ t ∈ ws ++ [s] := by
      intro t
      rw [List.mem_append, List.mem_singleton]
      constructor
      · rintro (ht | ht)
        · exact Or.inl ht
        · exact Or.inr (Or.inl ht)
      · rintro (ht | ht | rfl)
        · exact Or.inl ht
        · exact Or.inr ht
        · exact hmem
    have hnamews : name ∈ ws ↔ name ∈ ws ++ [s] := by
      rw [List.mem_append, List.mem_singleton]
      exact ⟨Or.inl, fun hor => hor.elim id (fun heq => hname heq.symm)⟩
    refine ⟨h.sound, ?_, ?_, ?_, h.head⟩
    · intro t
      rw [h.mem_index, hmemws]
    · intro t
      rw [h.zero_iff, hnamews]
    · rw [h.length_eq]
      simp only [hnamews]
  · rw [if_neg hfound]
    rw [not_not] at hfound
    have hlen := h.length_pos
    have hpresent : s ∈ st.index ↔ s = name ∧ name ∉ ws := by
      rw [← h.zero_iff, ← AList.lookup_isSome]
      cases hl : st.index.lookup s with
      | none => simp
      | some n =>
        have hn : n = 0 := by simpa [mapLookup, hl] using hfound
        simp [hn]
    refine ⟨?_, ?_, ?_, ?_, ?_⟩
    · intro t n ht
      by_cases hts : t = s
      · subst hts
        rw [AList.lookup_insert] at ht
        cases ht
        simp
      · rw [AList.lookup_insert_ne hts] at ht
        have hget := h.sound t n ht
        obtain ⟨hlt, -⟩ := List.getElem?_eq_some_iff.mp hget
        rw [List.getElem?_append_left hlt]
        exact hget
    · intro t
      rw [AList.mem_insert, h.mem_index, List.mem_append, List.mem_singleton]
      tauto
    · intro t
      by_cases hts : t = s
      · subst hts
        rw [AList.lookup_insert]
        constructor
        · intro hzero
          exact absurd (Option.some.inj hzero) (by omega)
        · rintro ⟨rfl, hnot⟩
          exact absurd (List.mem_append_right ws List.mem_cons_self) hnot
      · rw [AList.lookup_insert_ne hts, h.zero_iff]
        constructor
        · rintro ⟨rfl, hnot⟩
          refine ⟨rfl, ?_⟩
          rw [List.mem_append, List.mem_singleton]
          exact fun hor => hor.elim hnot hts
        · rintro ⟨rfl, hnot⟩
          exact ⟨rfl, fun hmem => hnot (List.mem_append_left _ hmem)⟩
    · rw [List.length_append, List.length_singleton, h.length_eq]
      simp only [mapSize, mapSize_insert]
      by_cases hs : s ∈ st.index
      · obtain ⟨rfl, hnot⟩ := hpresent.mp hs
        simp [hs, hnot]
      · have hiff : name ∈ ws ++ [s] ↔ name ∈ ws := by
          rw [List.mem_append, List.mem_singleton]
          constructor
          · rintro (hmem | rfl)
            · exact hmem
            · by_contra hnot
              exact hs (hpresent.mpr ⟨rfl, hnot⟩)
          · exact Or.inl
        simp only [hs, hiff, if_false]
        omega
    · rw [List.getElem?_append_left hlen]
      exact h.head

theorem Interned.foldl {name : String} (ws : List String) :
    ∀ {vs : List String} {st : StringTable}, Interned name vs st →
      Interned name (vs ++ ws) (ws.foldl StringTable.insertString st) := by
  induction ws with
  | nil =>
    intro vs st h
    simpa using h
  | cons w ws ih =>
    intro vs st h
    have := ih (h.insertString w)
    rwa [List.append_assoc] at this

theorem Interned.mapSize_eq {name : String} {ws : List String} {st : StringTable}
    (h : Interned name ws st) : st.mapSize = (name :: ws).toFinset.card := by
  have hset : st.index.keys.toFinset = (name :: ws).toFinset := by
    ext s
    rw [List.mem_toFinset, List.mem_toFinset, ← AList.mem_keys, h.mem_index, List.mem_cons]
  rw [← hset, List.toFinset_card_of_nodup st.index.keys_nodup]
  rfl

theorem Interned.getElem_mapLookup {name : String} {ws : List String} {st : StringTable}
    (h : Interned name ws st) {s : String} (hs : s = name ∨ s ∈ ws) :
    st.strings[st.mapLookup s]? = some s := by
  obtain ⟨n, hn⟩ := Option.isSome_iff_exists.mp (AList.lookup_isSome.mpr ((h.mem_index s).mpr hs))
  have : st.mapLookup s = n := by simp [mapLookup, hn]
  rw [this]
  exact h.sound s n hn

theorem Interned.mapLookup_lt {name : String} {ws : List String} {st : StringTable}
    (h : Interned name ws st) {s : String} (hs : s = name ∨ s ∈ ws) :
    st.mapLookup s < st.strings.length :=
  (List.getElem?_eq_some_iff.mp (h.getElem_mapLookup hs)).1

end StringTable

theorem internAllStrings_interned {tape : Tape} {name : String} {st : StringTable}
    (hname : tape.moduleName = some name) (hst : internAllStrings tape = some st) :
    st.Interned name tape.texts := by
  rw [internAllStrings_eq hname] at hst
  cases hst
  exact (StringTable.interned_nil name).foldl tape.texts

end JeffVm
