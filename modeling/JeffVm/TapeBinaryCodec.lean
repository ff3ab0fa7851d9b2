import JeffVm.StringTable

/-!
# Reading back the parts of a written tape

Each field, string, label and class the writer emits is decoded by the matching reader,
whatever bytes follow. A function comes back synchronous and a class without its fields.
-/

set_option autoImplicit false

namespace JeffVm

/-- The characters of a C string stand for its bytes. -/
def CString (str : String) : Prop := ∀ c ∈ str.toList, 0 < c.toNat ∧ c.toNat < 256

instance (str : String) : Decidable (CString str) :=
  inferInstanceAs (Decidable (∀ c ∈ str.toList, 0 < c.toNat ∧ c.toNat < 256))

def Primitive.Representable : Primitive → Prop
  | .char n => -2 ^ 7 ≤ n ∧ n < 2 ^ 7
  | .int n => -2 ^ 31 ≤ n ∧ n < 2 ^ 31
  | .float _ => False

def Instruction.Representable (ins : Instruction) : Prop :=
  ∀ p, ins.arg = .val p → p.Representable

/-! ## Fields -/

theorem takeCString_append {chars : List UInt8} (hnul : ∀ b ∈ chars, b ≠ 0) (rest : List UInt8) :
    takeCString (chars ++ 0 :: rest) = (chars, rest) := by
  induction chars with
  | nil => simp [takeCString]
  | cons b bs ih =>
    have hb : b ≠ 0 := hnul b List.mem_cons_self
    have htail := ih (fun c hc => hnul c (List.mem_cons_of_mem b hc))
    simp [takeCString, hb, htail]

theorem toNat_ofNat_char {c : Char} (h : c.toNat < 256) : (UInt8.ofNat c.toNat).toNat = c.toNat := by
  rw [UInt8.toNat_ofNat', Nat.mod_eq_of_lt h]

theorem ofList_bytes {str : String} (h : CString str) :
    String.ofList ((str.toList.map (fun c => UInt8.ofNat c.toNat)).map
      (fun b => Char.ofNat b.toNat)) = str := by
  have hchars : (str.toList.map (fun c => UInt8.ofNat c.toNat)).map (fun b => Char.ofNat b.toNat) =
      str.toList := by
    rw [List.map_map]
    conv => rhs; rw [← List.map_id str.toList]
    apply List.map_congr_left
    intro c hc
    simp only [Function.comp_apply, toNat_ofNat_char (h c hc).2, Char.ofNat_toNat, id]
  rw [hchars, String.ofList_toList]

theorem decodes_string {str : String} (h : CString str) (hlen : str.length < maxStringSz) :
    Decodes deserializeString (serializeStr str) str := by
  intro rest
  have hnul : ∀ b ∈ str.toList.map (fun c => UInt8.ofNat c.toNat), b ≠ 0 := by
    intro b hb
    obtain ⟨c, hc, rfl⟩ := List.mem_map.mp hb
    obtain ⟨hpos, hlt⟩ := h c hc
    intro hzero
    have := congrArg UInt8.toNat hzero
    rw [toNat_ofNat_char hlt] at this
    simp at this
    omega
  rw [deserializeString, serializeStr, List.append_assoc, List.singleton_append,
    takeCString_append hnul]
  simp only [List.length_map, String.length_toList, hlen, if_true, ofList_bytes h]

theorem decodes_strings {strings : List String} (hcount : strings.length < 2 ^ 16)
    (hstr : ∀ s ∈ strings, CString s ∧ s.length < maxStringSz) :
    Decodes readStrings (leBytes 2 strings.length ++ strings.flatMap serializeStr) strings := by
  apply Decodes.bind (Decodes.le (by simpa using hcount))
  have hrun : ∀ ss acc : List String,
      ss.foldlM (fun acc s => some (acc ++ [s])) acc = some (acc ++ ss) := by
    intro ss
    induction ss with
    | nil => intro acc; simp
    | cons s ss ih => intro acc; simp [List.foldlM_cons, ih]
  apply Decodes.iterate _ (hrun strings [])
  intro s hs acc acc' hacc
  cases hacc
  obtain ⟨hc, hl⟩ := hstr s hs
  exact Decodes.bind_pure (decodes_string hc hl)

theorem toNat_emod (n : Int) (k : Nat) : (n % 256 ^ k).toNat < 256 ^ k := by
  have hpos : (0 : Int) < 256 ^ k := by positivity
  have hlt := Int.emod_lt_of_pos n hpos
  have hnonneg := Int.emod_nonneg n (ne_of_gt hpos)
  zify
  rw [Int.toNat_of_nonneg hnonneg]
  exact hlt

theorem decodes_intBytes (k : Nat) (n : Int) :
    Decodes (Decoder.le k) (intBytes k n) (n % 256 ^ k).toNat :=
  Decodes.le (toNat_emod n k)

theorem wrap32_emod {n : Int} (h : -2 ^ 31 ≤ n ∧ n < 2 ^ 31) :
    wrap32 ((n % 256 ^ 4).toNat : Int) = n := by
  unfold wrap32
  rw [Int.bmod_def]
  omega

theorem wrap8_emod {n : Int} (h : -2 ^ 7 ≤ n ∧ n < 2 ^ 7) :
    wrap8 ((n % 256 ^ 1).toNat : Int) = n := by
  unfold wrap8
  rw [Int.bmod_def]
  omega

theorem decodes_byte (n : Nat) (h : n < 256) : Decodes (Decoder.le 1) [UInt8.ofNat n] n := by
  have hle : Decodes (Decoder.le 1) (leBytes 1 n) n := Decodes.le (by simpa using h)
  simpa [leBytes] using hle

theorem decodes_primitive {p : Primitive} (h : p.Representable) (garbage : Nat) :
    Decodes deserializeVal (serializePrimitive garbage p) p := by
  cases p with
  | int n =>
    refine Decodes.bind (decodes_byte 1 (by decide)) (Decodes.bind (decodes_intBytes 4 n) ?_)
    rw [wrap32_emod h]
    exact Decodes.bind_pure (Decodes.le_mod 4 garbage)
  | float bits => exact h.elim
  | char n =>
    refine Decodes.bind (decodes_byte 0 (by decide)) ?_
    have hval : Primitive.char (wrap8 ((n % 256 ^ 1).toNat : Int)) = .char n := by
      rw [wrap8_emod h]
    rw [← hval]
    exact Decodes.bind_pure (decodes_intBytes 1 n)

/-! ## Labels -/

def FunctionRef.written (f : FunctionRef) : FunctionRef := ⟨f.name, f.index, false, false⟩

@[simp] theorem FunctionRef.written_name (f : FunctionRef) : f.written.name = f.name := rfl

def ClassRef.written (c : ClassRef) : ClassRef :=
  { c with
    funcRefs := c.funcRefs.map FunctionRef.written FunctionRef.written_name
    fieldRefs := .empty }

@[simp] theorem ClassRef.written_name (c : ClassRef) : c.written.name = c.name := rfl

namespace Tape

def addFunc (t : Tape) (f : FunctionRef) : Option Tape := t.startFuncAtIndex f.name f.index false

def addClass (t : Tape) (c : ClassRef) : Option Tape := do
  let t ← t.startClassAtIndex c.name c.startIndex
  let t ← c.supers.foldlM addSuper t
  let t ← c.funcRefs.entries.foldlM addFunc t
  t.endClassAtIndex c.endIndex

theorem addFuncs_module (fs : List FunctionRef) :
    ∀ (t : Tape), t.currentClass = none → (t.funcRefs.keys ++ fs.map FunctionRef.name).Nodup →
      fs.foldlM addFunc t =
        some { t with funcRefs := (fs.map FunctionRef.written).foldl KeyedList.insert t.funcRefs } := by
  induction fs with
  | nil =>
    intro t _ _
    rfl
  | cons f fs ih =>
    intro t hcur hnodup
    have hnew : f.name ∉ t.funcRefs.keys := fun hmem =>
      (List.nodup_append.mp hnodup).2.2 _ hmem _ (by simp) rfl
    have hkeys : (t.funcRefs.insert f.written).keys = t.funcRefs.keys ++ [f.name] := by
      simp [KeyedList.keys, KeyedList.entries_insert_of_notMem (a := f.written) hnew]
    have hstep : t.addFunc f = some { t with funcRefs := t.funcRefs.insert f.written } := by
      simp [addFunc, startFuncAtIndex, hcur, hnew, FunctionRef.written]
    have htail := ih { t with funcRefs := t.funcRefs.insert f.written } hcur (by
        rw [hkeys, List.append_assoc]
        exact hnodup)
    rw [List.foldlM_cons, hstep]
    exact htail

theorem addFuncs_class {cs : List ClassRef} (fs : List FunctionRef) :
    ∀ {t : Tape} {c : ClassRef}, t.Opens cs c →
      (c.funcRefs.keys ++ fs.map FunctionRef.name).Nodup →
      ∃ t', fs.foldlM addFunc t = some t' ∧ SameCore t t' ∧ t'.Opens cs { c with
        funcRefs := (fs.map FunctionRef.written).foldl KeyedList.insert c.funcRefs } := by
  induction fs with
  | nil =>
    intro t c h _
    exact ⟨t, rfl, SameCore.refl t, h⟩
  | cons f fs ih =>
    intro t c h hnodup
    have hnew : f.name ∉ c.funcRefs.keys := fun hmem =>
      (List.nodup_append.mp hnodup).2.2 _ hmem _ (by simp) rfl
    have hkeys : (c.funcRefs.insert f.written).keys = c.funcRefs.keys ++ [f.name] := by
      simp [KeyedList.keys, KeyedList.entries_insert_of_notMem (a := f.written) hnew]
    have hstep : t.addFunc f = some (t.modifyClass c.name
        (fun c => { c with funcRefs := c.funcRefs.insert f.written }) (fun _ => rfl)) := by
      simp [addFunc, startFuncAtIndex, h.current, h.lookup, hnew, FunctionRef.written]
    obtain ⟨t', hrun, hcore, hopens⟩ := ih (h.modifyClass
      (fun c => { c with funcRefs := c.funcRefs.insert f.written }) (fun _ => rfl)) (by
        rw [hkeys, List.append_assoc]
        exact hnodup)
    refine ⟨t', ?_, (SameCore.modifyClass t _ _ _).trans hcore, hopens⟩
    rw [List.foldlM_cons, hstep]
    exact hrun

theorem written_foldl {fs : KeyedList FunctionRef.name} :
    (fs.entries.map FunctionRef.written).foldl KeyedList.insert KeyedList.empty =
      fs.map FunctionRef.written FunctionRef.written_name := by
  apply KeyedList.ext
  rw [KeyedList.entries_foldl_insert]
  · rfl
  · simpa [KeyedList.keys, Function.comp_def] using fs.nodup

theorem addClass_written {t : Tape} {c : ClassRef} (hnew : c.name ∉ t.classRefs.keys) :
    ∃ t', t.addClass c = some t' ∧ SameCore t t' ∧ t'.currentClass = none ∧
      t'.classRefs.entries = t.classRefs.entries ++ [c.written] := by
  have hopen : ({ t with
      classRefs := t.classRefs.insert (.init c.name c.startIndex)
      currentClass := some c.name } : Tape).Opens t.classRefs.entries
        (.init c.name c.startIndex) :=
    ⟨KeyedList.entries_insert_of_notMem hnew, rfl⟩
  obtain ⟨t₁, hrun₁, hcore₁, hopen₁⟩ := addSupers c.supers hopen
  obtain ⟨t₂, hrun₂, hcore₂, hopen₂⟩ := addFuncs_class c.funcRefs.entries hopen₁ (by
    simpa [ClassRef.init, KeyedList.keys] using c.funcRefs.nodup)
  refine ⟨{ t₂.modifyClass c.name (fun d => { d with endIndex := c.endIndex }) (fun _ => rfl) with
    currentClass := none }, ?_, ?_, rfl, ?_⟩
  · have hend : t₂.currentClass = some c.name := hopen₂.current
    simp [addClass, startClassAtIndex, hnew, hrun₁, hrun₂, endClassAtIndex, hend]
  · exact ⟨(hcore₁.trans hcore₂).moduleName, (hcore₁.trans hcore₂).ins,
      (hcore₁.trans hcore₂).sourceMap, (hcore₁.trans hcore₂).funcRefs⟩
  · have hlast := (hopen₂.modifyClass (fun d => { d with endIndex := c.endIndex })
      (fun _ => rfl)).entries
    refine hlast.trans ?_
    simp [ClassRef.init, ClassRef.written, written_foldl]

theorem addClasses (cs : List ClassRef) :
    ∀ (t : Tape), t.currentClass = none → (t.classRefs.keys ++ cs.map ClassRef.name).Nodup →
      ∃ t', cs.foldlM addClass t = some t' ∧ SameCore t t' ∧ t'.currentClass = none ∧
        t'.classRefs.entries = t.classRefs.entries ++ cs.map ClassRef.written := by
  induction cs with
  | nil =>
    intro t hcur _
    exact ⟨t, rfl, SameCore.refl t, hcur, by simp⟩
  | cons c cs ih =>
    intro t hcur hnodup
    have hnew : c.name ∉ t.classRefs.keys := fun hmem =>
      (List.nodup_append.mp hnodup).2.2 _ hmem _ (by simp) rfl
    obtain ⟨t₁, hstep, hcore₁, hcur₁, hentries₁⟩ := addClass_written hnew
    obtain ⟨t', hrun, hcore, hcur', hentries⟩ := ih t₁ hcur₁ (by
      simpa [KeyedList.keys, hentries₁] using hnodup)
    refine ⟨t', ?_, hcore₁.trans hcore, hcur', ?_⟩
    · rw [List.foldlM_cons, hstep]
      exact hrun
    · rw [hentries, hentries₁]
      simp

end Tape

/-! ## The table of contents -/

namespace Tape

def allTexts (tape : Tape) : List String := tape.moduleName.toList ++ tape.texts

/-- The limits of the format, and labels that lie on the tape. -/
structure Fits (tape : Tape) : Prop where
  named : tape.moduleName ≠ none
  ins_lt : tape.ins.length < 2 ^ 16
  funcs_lt : tape.funcRefs.entries.length < 2 ^ 16
  classes_lt : tape.classRefs.entries.length < 2 ^ 16
  methods_lt : ∀ c ∈ tape.classRefs.entries, c.funcRefs.entries.length < 2 ^ 16
  supers_lt : ∀ c ∈ tape.classRefs.entries, c.supers.length < 2 ^ 16
  strings_lt : tape.allTexts.toFinset.card < 2 ^ 16
  func_index : ∀ f ∈ tape.funcRefs.entries, f.index ≤ tape.size
  method_index : ∀ c ∈ tape.classRefs.entries, ∀ f ∈ c.funcRefs.entries, f.index ≤ tape.size
  class_range : ∀ c ∈ tape.classRefs.entries, c.startIndex ≤ tape.size ∧ c.endIndex ≤ tape.size
  strings : ∀ s ∈ tape.allTexts, CString s ∧ s.length < maxStringSz
  operands : ∀ ins ∈ tape.ins, ins.Representable

end Tape

section Reader

variable {name : String} {ws : List String} {st : StringTable}
variable (table : st.Interned name ws) (count : st.strings.length < 2 ^ 16)
include table count

theorem decodes_name {s : String} (hs : s = name ∨ s ∈ ws) :
    Decodes (readName st.strings) (leBytes 2 (st.mapLookup s)) s := by
  have hlt : st.mapLookup s < 256 ^ 2 := (table.mapLookup_lt hs).trans (by simpa using count)
  exact Decodes.bind_ofOption (Decodes.le hlt) (table.getElem_mapLookup hs)

theorem decodes_functionRef {t t' : Tape} {f : FunctionRef} (hf : f.name = name ∨ f.name ∈ ws)
    (hindex : f.index < 2 ^ 16) (hadd : t.addFunc f = some t') :
    Decodes (readFunctionRef st.strings t) (serializeFunctionRef st f) t' := by
  refine Decodes.bind (decodes_name table count hf) ?_
  exact Decodes.bind_ofOption (Decodes.le (by simpa using hindex)) hadd

theorem decodes_functionRefs {t t' : Tape} {fs : List FunctionRef} (hlen : fs.length < 2 ^ 16)
    (hfs : ∀ f ∈ fs, (f.name = name ∨ f.name ∈ ws) ∧ f.index < 2 ^ 16)
    (hadd : fs.foldlM Tape.addFunc t = some t') :
    Decodes (readFunctionRefs st.strings t)
      (leBytes 2 fs.length ++ fs.flatMap (serializeFunctionRef st)) t' := by
  refine Decodes.bind (Decodes.le (by simpa using hlen)) (Decodes.iterate ?_ hadd)
  intro f hf s s' hstep
  exact decodes_functionRef table count (hfs f hf).1 (hfs f hf).2 hstep

theorem decodes_classRef {t t' : Tape} {c : ClassRef} (hc : ∀ s ∈ c.texts, s = name ∨ s ∈ ws)
    (hmethods : c.funcRefs.entries.length < 2 ^ 16) (hsupers : c.supers.length < 2 ^ 16)
    (hindex : ∀ f ∈ c.funcRefs.entries, f.index < 2 ^ 16)
    (hstart : c.startIndex < 2 ^ 16) (hend : c.endIndex < 2 ^ 16)
    (hadd : t.addClass c = some t') :
    Decodes (readClassRef st.strings t) (serializeClassRef st c) t' := by
  obtain ⟨t₁, hstarted, hadd⟩ := Option.bind_eq_some_iff.mp hadd
  obtain ⟨t₂, hparents, hadd⟩ := Option.bind_eq_some_iff.mp hadd
  obtain ⟨t₃, hfuncs, hended⟩ := Option.bind_eq_some_iff.mp hadd
  have hparent : ∀ s ∈ c.supers, ∀ u u', Tape.addSuper u s = some u' →
      Decodes (readParent st.strings u) (leBytes 2 (st.mapLookup s)) u' := by
    intro s hs u u' hstep
    exact Decodes.bind_ofOption
      (decodes_name table count (hc s (by simp [ClassRef.texts, hs]))) hstep
  have hmethod : ∀ f ∈ c.funcRefs.entries, (f.name = name ∨ f.name ∈ ws) ∧ f.index < 2 ^ 16 := by
    intro f hf
    refine ⟨hc f.name ?_, hindex f hf⟩
    simp only [ClassRef.texts, List.mem_append, List.mem_map]
    exact Or.inl (Or.inr ⟨f, hf, rfl⟩)
  have htail : Decodes (readFunctionRefs st.strings t₂ >>= fun t =>
      Decoder.ofOption (t.endClassAtIndex c.endIndex)) _ t' := Decodes.bind_ofOption
    (decodes_functionRefs table count hmethods hmethod hfuncs) hended
  simp only [serializeClassRef, List.append_assoc]
  refine Decodes.bind (decodes_name table count (hc c.name (by simp [ClassRef.texts]))) ?_
  refine Decodes.bind (Decodes.le (by simpa using hstart)) ?_
  refine Decodes.bind (Decodes.le (by simpa using hend)) ?_
  refine Decodes.bind_nil (Decodes.ofOption hstarted) ?_
  refine Decodes.bind (Decodes.le (by simpa using hsupers)) ?_
  exact Decodes.bind (Decodes.iterate hparent hparents) htail

theorem decodes_ref {s : String} (hs : s = name ∨ s ∈ ws)
    (hwidth : st.mapSize > uint8Max ↔ st.strings.length > uint8Max) :
    Decodes (deserializeRef st.strings) (serializeRef st s) s := by
  have hlt := table.mapLookup_lt hs
  have hget := table.getElem_mapLookup hs
  refine Decodes.bind_ofOption ?_ hget
  unfold serializeRef
  by_cases hwide : st.strings.length > uint8Max
  · rw [if_pos hwide, if_pos (hwidth.mpr hwide)]
    exact Decodes.le (hlt.trans (by simpa using count))
  · rw [if_neg hwide, if_neg (fun h => hwide (hwidth.mp h))]
    refine Decodes.le ?_
    simp only [uint8Max] at hwide
    omega

end Reader

end JeffVm
