import JeffVm.TapeBinaryCodec

/-!
# What the binary reader gets back from the writer

Reading a written tape yields the tape without its fields and with every function
synchronous, unless the string table and its index disagree about their size: the module
name is stored twice, and either the count of strings no longer fits two bytes or the two
sides choose different widths for string references.
-/

set_option autoImplicit false

namespace JeffVm

namespace Tape

abbrev Label := String × Nat × Bool

def labels (refs : KeyedList FunctionRef.name) : List Label :=
  refs.entries.map (fun f => (f.name, f.index, f.isAsync))

structure ClassView where
  name : String
  startIndex : Nat
  endIndex : Nat
  supers : List String
  methods : List Label
  fields : List String
  deriving DecidableEq

/-- What a round trip has to keep. -/
structure View where
  moduleName : Option String
  functions : List Label
  classes : List ClassView
  ins : List Instruction
  deriving DecidableEq

def classView (c : ClassRef) : ClassView :=
  ⟨c.name, c.startIndex, c.endIndex, c.supers, labels c.funcRefs,
    c.fieldRefs.entries.map FieldRef.name⟩

def view (tape : Tape) : View :=
  ⟨tape.moduleName, labels tape.funcRefs, tape.classRefs.entries.map classView, tape.ins⟩

end Tape

def readFile (bytes : List UInt8) : Option Tape := (readBinary Tape.create bytes).map Prod.fst

/-- Reading what was written gives an equal tape. -/
def BinaryRoundTrips (garbage : Nat → Nat) (tape : Tape) : Prop :=
  ((writeBinary garbage tape).bind readFile).map Tape.view = some tape.view

instance (garbage : Nat → Nat) (tape : Tape) : Decidable (BinaryRoundTrips garbage tape) :=
  inferInstanceAs (Decidable (_ = _))

namespace Tape

def Synchronous (tape : Tape) : Prop :=
  (∀ f ∈ tape.funcRefs.entries, f.isAsync = false) ∧
    ∀ c ∈ tape.classRefs.entries, ∀ f ∈ c.funcRefs.entries, f.isAsync = false

def Fieldless (tape : Tape) : Prop := ∀ c ∈ tape.classRefs.entries, c.fieldRefs.entries = []

/-- Something else on the tape has the name of the module. -/
def NameRecurs (tape : Tape) : Prop := ∃ s ∈ tape.moduleName, s ∈ tape.texts

instance (tape : Tape) : Decidable tape.Synchronous := inferInstanceAs (Decidable (_ ∧ _))

instance (tape : Tape) : Decidable tape.Fieldless :=
  inferInstanceAs (Decidable (∀ c ∈ tape.classRefs.entries, c.fieldRefs.entries = []))

instance (tape : Tape) : Decidable tape.NameRecurs :=
  inferInstanceAs (Decidable (∃ s ∈ tape.moduleName, s ∈ tape.texts))

/-- The count of strings is at the edge of a byte or of two, and the second copy of the
module name carries it over. -/
def TableSplits (tape : Tape) : Prop :=
  tape.NameRecurs ∧
    (tape.allTexts.toFinset.card = 2 ^ 16 - 1 ∨
      tape.allTexts.toFinset.card = uint8Max ∧ ∃ ins ∈ tape.ins, ins.text ≠ none)

/-- The tape the reader builds from a well-read file. -/
def written (tape : Tape) : View :=
  ⟨tape.moduleName, labels (tape.funcRefs.map FunctionRef.written FunctionRef.written_name),
    tape.classRefs.entries.map (fun c => classView c.written), tape.ins⟩

theorem labels_written_eq_iff (refs : KeyedList FunctionRef.name) :
    labels (refs.map FunctionRef.written FunctionRef.written_name) = labels refs ↔
      ∀ f ∈ refs.entries, f.isAsync = false := by
  simp only [labels, KeyedList.entries_map, List.map_map]
  rw [List.map_inj_left]
  apply forall₂_congr
  intro f _
  simp only [Function.comp_apply, FunctionRef.written, Prod.mk.injEq, true_and]
  exact eq_comm

theorem classView_written_eq_iff (c : ClassRef) :
    classView c.written = classView c ↔
      (∀ f ∈ c.funcRefs.entries, f.isAsync = false) ∧ c.fieldRefs.entries = [] := by
  rw [← labels_written_eq_iff]
  simp only [classView, ClassRef.written, ClassView.mk.injEq, true_and,
    KeyedList.entries_empty, List.map_nil]
  exact and_congr_right (fun _ => by rw [eq_comm, List.map_eq_nil_iff])

theorem written_eq_view_iff (tape : Tape) :
    tape.written = tape.view ↔ tape.Synchronous ∧ tape.Fieldless := by
  have hclasses : tape.classRefs.entries.map (fun c => classView c.written) =
      tape.classRefs.entries.map classView ↔
        ∀ c ∈ tape.classRefs.entries,
          (∀ f ∈ c.funcRefs.entries, f.isAsync = false) ∧ c.fieldRefs.entries = [] := by
    rw [List.map_inj_left]
    exact forall₂_congr (fun c _ => classView_written_eq_iff c)
  simp only [written, view, View.mk.injEq, true_and, and_true, labels_written_eq_iff, hclasses,
    Synchronous, Fieldless]
  constructor
  · rintro ⟨hfuncs, hcls⟩
    exact ⟨⟨hfuncs, fun c hc => (hcls c hc).1⟩, fun c hc => (hcls c hc).2⟩
  · rintro ⟨⟨hfuncs, hmethods⟩, hfields⟩
    exact ⟨hfuncs, fun c hc => ⟨hmethods c hc, hfields c hc⟩⟩

end Tape

section Reader

variable {name : String} {ws : List String} {st : StringTable}
variable (table : st.Interned name ws) (count : st.strings.length < 2 ^ 16)
include table count

theorem decodes_ins {ins : Instruction} (hrep : ins.Representable)
    (htext : ∀ s, ins.text = some s → (s = name ∨ s ∈ ws) ∧
      (st.mapSize > uint8Max ↔ st.strings.length > uint8Max)) (garbage : Nat) :
    Decodes (deserializeIns st.strings) (serializeIns st garbage ins) ins := by
  obtain ⟨op, arg⟩ := ins
  have hop : Decodes (Decoder.le 1) (leBytes 1 op.code) op.code :=
    Decodes.le (by simpa using op.code_lt)
  have hcode := Decodes.ofOption (Op.ofCode_code op)
  cases arg with
  | noArg =>
    exact Decodes.bind hop (Decodes.bind_done (Decodes.le_mod 1 0)
      (Decodes.bind_nil hcode (Decodes.pure _)))
  | id s =>
    obtain ⟨hs, hwidth⟩ := htext s rfl
    simp only [serializeIns, List.append_assoc]
    exact Decodes.bind hop (Decodes.bind (Decodes.le_mod 1 1)
      (Decodes.bind_nil hcode (Decodes.bind_pure (decodes_ref table count hs hwidth))))
  | str s =>
    obtain ⟨hs, hwidth⟩ := htext s rfl
    simp only [serializeIns, List.append_assoc]
    exact Decodes.bind hop (Decodes.bind (Decodes.le_mod 1 2)
      (Decodes.bind_nil hcode (Decodes.bind_pure (decodes_ref table count hs hwidth))))
  | val p =>
    simp only [serializeIns, List.append_assoc]
    exact Decodes.bind hop (Decodes.bind (Decodes.le_mod 1 3)
      (Decodes.bind_nil hcode (Decodes.bind_pure (decodes_primitive (hrep p rfl) garbage))))

end Reader

namespace Tape

theorem view_foldl_insRaw (is : List Instruction) (tape : Tape) :
    (is.foldl insRaw tape).view = { tape.view with ins := tape.ins ++ is } := by
  induction is generalizing tape with
  | nil => simp [view]
  | cons i is ih =>
    rw [List.foldl_cons, ih]
    simp [view, insRaw, add]

theorem foldlM_insRaw (is : List Instruction) (k : Nat) (tape : Tape) :
    (is.zipIdx k).foldlM (fun t p => some (insRaw t p.1)) tape = some (is.foldl insRaw tape) := by
  induction is generalizing k tape with
  | nil => rfl
  | cons i is ih =>
    rw [List.zipIdx_cons, List.foldlM_cons]
    exact ih (k + 1) (tape.insRaw i)

end Tape

theorem decodes_allIns {name : String} {ws : List String} {st : StringTable}
    (table : st.Interned name ws) (count : st.strings.length < 2 ^ 16) {is : List Instruction}
    (hlen : is.length < 2 ^ 16) (hrep : ∀ ins ∈ is, ins.Representable)
    (htext : ∀ ins ∈ is, ∀ s, ins.text = some s → (s = name ∨ s ∈ ws) ∧
      (st.mapSize > uint8Max ↔ st.strings.length > uint8Max))
    (garbage : Nat → Nat) (tape : Tape) :
    Decodes (readAllIns st.strings tape)
      (leBytes 2 is.length ++ is.zipIdx.flatMap (fun p => serializeIns st (garbage p.2) p.1))
      (is.foldl Tape.insRaw tape) := by
  refine Decodes.bind (Decodes.le (by simpa using hlen)) ?_
  rw [← List.length_zipIdx]
  refine Decodes.iterate ?_ (Tape.foldlM_insRaw is 0 tape)
  intro p hp t t' hstep
  cases hstep
  have hmem : p.1 ∈ is := (List.mem_zipIdx' hp).2 ▸ List.getElem_mem _
  exact Decodes.bind_pure (decodes_ins table count (hrep p.1 hmem) (htext p.1 hmem) _)

/-! ## Sizes -/

def valSize : Primitive → Nat
  | .char _ => 2
  | .int _ => 9
  | .float _ => 9

def writeSize (st : StringTable) (ins : Instruction) : Nat :=
  match ins.arg with
  | .noArg => 2
  | .id _ => if st.mapSize > uint8Max then 4 else 3
  | .str _ => if st.mapSize > uint8Max then 4 else 3
  | .val p => 2 + valSize p

def readSize (strings : List String) (ins : Instruction) : Nat :=
  match ins.arg with
  | .noArg => 2
  | .id _ => if strings.length > uint8Max then 4 else 3
  | .str _ => if strings.length > uint8Max then 4 else 3
  | .val p => 2 + valSize p

theorem length_serializeRef (st : StringTable) (s : String) :
    (serializeRef st s).length = if st.mapSize > uint8Max then 2 else 1 := by
  unfold serializeRef
  split <;> simp

theorem length_serializeIns (st : StringTable) (garbage : Nat) (ins : Instruction) :
    (serializeIns st garbage ins).length = writeSize st ins := by
  obtain ⟨op, arg⟩ := ins
  cases arg with
  | noArg => simp [serializeIns, writeSize]
  | id s =>
    simp only [serializeIns, writeSize, List.length_append, length_leBytes, length_serializeRef]
    split <;> rfl
  | str s =>
    simp only [serializeIns, writeSize, List.length_append, length_leBytes, length_serializeRef]
    split <;> rfl
  | val p => cases p <;> simp [serializeIns, writeSize, serializePrimitive, intBytes, valSize]

theorem length_flatMap_serializeIns (st : StringTable) (garbage : Nat → Nat) :
    ∀ (is : List Instruction) (k : Nat),
      ((is.zipIdx k).flatMap (fun p => serializeIns st (garbage p.2) p.1)).length =
        (is.map (writeSize st)).sum := by
  intro is
  induction is with
  | nil => intro k; rfl
  | cons i is ih =>
    intro k
    rw [List.zipIdx_cons, List.flatMap_cons, List.length_append, ih, length_serializeIns]
    simp

theorem consumes_ref (strings : List String) (k : Nat) :
    Consumes k (deserializeRef strings)
      (fun _ => k + if strings.length > uint8Max then 2 else 1) :=
  Consumes.bind (Consumes.le _) (fun _ => Consumes.ofOption _)

theorem consumes_val : Consumes 2 deserializeVal (fun p => 2 + valSize p) := by
  refine Consumes.bind (Consumes.le 1) (fun valType => ?_)
  split
  · exact Consumes.bind (Consumes.le 4) (fun n =>
      Consumes.bind (Consumes.le 4) (fun _ => Consumes.pure rfl))
  · exact Consumes.bind (Consumes.le 4) (fun n =>
      Consumes.bind (Consumes.le 4) (fun _ => Consumes.pure rfl))
  · exact Consumes.bind (Consumes.le 1) (fun n => Consumes.pure rfl)

theorem consumes_ins (strings : List String) :
    Consumes 0 (deserializeIns strings) (readSize strings) := by
  refine Consumes.bind (Consumes.le 1) (fun op => ?_)
  refine Consumes.bind (Consumes.le 1) (fun param => ?_)
  refine Consumes.bind (Consumes.ofOption _) (fun op => ?_)
  split
  · exact Consumes.pure rfl
  · refine Consumes.bind (consumes_ref strings _) (fun s => Consumes.pure ?_)
    simp only [readSize]
    split <;> rfl
  · refine Consumes.bind (consumes_ref strings _) (fun s => Consumes.pure ?_)
    simp only [readSize]
    split <;> rfl
  · intro bs ins rest h
    obtain ⟨⟨p, mid⟩, hval, hret⟩ := Option.bind_eq_some_iff.mp h
    cases hret
    exact consumes_val bs p rest hval
  · exact Consumes.fail _

/-- The loop appends what it decodes, and each instruction took its size. -/
theorem readIns_loop (strings : List String) :
    ∀ (n : Nat) (tape tape' : Tape) (bs rest : List UInt8),
      Decoder.iterate n (readIns strings) tape bs = some (tape', rest) →
      ∃ is, tape'.ins = tape.ins ++ is ∧
        bs.length = (is.map (readSize strings)).sum + rest.length := by
  intro n
  induction n with
  | zero =>
    intro tape tape' bs rest h
    cases h
    exact ⟨[], by simp, by simp⟩
  | succ n ih =>
    intro tape tape' bs rest h
    obtain ⟨⟨t, mid⟩, hstep, htail⟩ := Option.bind_eq_some_iff.mp h
    obtain ⟨⟨ins, mid'⟩, hins, hret⟩ := Option.bind_eq_some_iff.mp hstep
    cases hret
    obtain ⟨is, htape, hsize⟩ := ih _ _ _ _ htail
    have hsize₁ := consumes_ins strings bs ins mid hins
    refine ⟨ins :: is, ?_, ?_⟩
    · rw [htape]
      simp [Tape.insRaw]
    · rw [List.map_cons, List.sum_cons]
      omega

/-! ## The whole file -/

theorem mem_allTexts_iff {tape : Tape} {name s : String} (hname : tape.moduleName = some name) :
    s ∈ tape.allTexts ↔ s = name ∨ s ∈ tape.texts := by
  simp [Tape.allTexts, hname]

theorem mem_strings {tape : Tape} {name s : String} {st : StringTable}
    (hname : tape.moduleName = some name) (hst : internAllStrings tape = some st)
    (hs : s ∈ st.strings) : s ∈ tape.allTexts := by
  rw [internAllStrings_eq hname] at hst
  cases hst
  have hgrow : ∀ (ws : List String) (st : StringTable),
      (∀ t ∈ st.strings, t = name ∨ t ∈ tape.texts) → (∀ w ∈ ws, w ∈ tape.texts) →
      ∀ t ∈ (ws.foldl StringTable.insertString st).strings, t = name ∨ t ∈ tape.texts := by
    intro ws
    induction ws with
    | nil =>
      intro st h _
      exact h
    | cons w ws ih =>
      intro st h hws
      refine ih _ ?_ (fun v hv => hws v (List.mem_cons_of_mem w hv))
      intro t ht
      unfold StringTable.insertString at ht
      split at ht
      · exact h t ht
      · rcases List.mem_append.mp ht with ht | ht
        · exact h t ht
        · rw [List.mem_singleton] at ht
          exact Or.inr (ht ▸ hws w List.mem_cons_self)
  refine (mem_allTexts_iff hname).mpr (hgrow tape.texts _ ?_ (fun _ hw => hw) s hs)
  intro t ht
  rw [StringTable.insertString_empty] at ht
  exact Or.inl (List.mem_singleton.mp ht)

section File

variable {tape : Tape} {name : String} {st : StringTable}
variable (fits : tape.Fits) (hname : tape.moduleName = some name)
variable (hst : internAllStrings tape = some st)

include hname hst in
theorem mapSize_eq_card : st.mapSize = tape.allTexts.toFinset.card := by
  rw [(internAllStrings_interned hname hst).mapSize_eq, Tape.allTexts, hname]
  rfl

include hname hst in
theorem length_strings_eq :
    st.strings.length = tape.allTexts.toFinset.card + if tape.NameRecurs then 1 else 0 := by
  have hrecurs : tape.NameRecurs ↔ name ∈ tape.texts := by simp [Tape.NameRecurs, hname]
  rw [(internAllStrings_interned hname hst).length_eq, mapSize_eq_card hname hst]
  simp only [hrecurs]

include fits hst in
theorem writeBinary_eq (garbage : Nat → Nat) : writeBinary garbage tape =
    some (serializeAllStrings st ++
      (leBytes 2 tape.funcRefs.entries.length ++
        tape.funcRefs.entries.flatMap (serializeFunctionRef st)) ++
      (leBytes 2 tape.classRefs.entries.length ++
        tape.classRefs.entries.flatMap (serializeClassRef st)) ++
      (leBytes 2 tape.ins.length ++
        tape.ins.zipIdx.flatMap (fun p => serializeIns st (garbage p.2) p.1))) := by
  have htake : tape.ins.take (tape.ins.length % 2 ^ 16) = tape.ins := by
    rw [Nat.mod_eq_of_lt fits.ins_lt, List.take_length]
  simp only [writeBinary, hst, htake]
  rfl

include fits hname hst

/-- Everything before the instructions is read back, into an empty tape with the labels. -/
theorem readBinary_header (count : st.strings.length < 2 ^ 16) :
    ∃ t₀ : Tape, t₀.ins = [] ∧ { t₀.view with ins := tape.ins } = tape.written ∧
      ∀ rest, readBinary Tape.create (serializeAllStrings st ++
        (leBytes 2 tape.funcRefs.entries.length ++
          tape.funcRefs.entries.flatMap (serializeFunctionRef st)) ++
        (leBytes 2 tape.classRefs.entries.length ++
          tape.classRefs.entries.flatMap (serializeClassRef st)) ++ rest) =
        readAllIns st.strings t₀ rest := by
  have table := internAllStrings_interned hname hst
  have hsize : tape.size < 2 ^ 16 := fits.ins_lt
  have hfuncs : ∀ f ∈ tape.funcRefs.entries,
      (f.name = name ∨ f.name ∈ tape.texts) ∧ f.index < 2 ^ 16 := by
    intro f hf
    refine ⟨Or.inr ?_, lt_of_le_of_lt (fits.func_index f hf) hsize⟩
    simp only [Tape.texts, List.mem_append, List.mem_map]
    exact Or.inl (Or.inr ⟨f, hf, rfl⟩)
  have hclasses : ∀ c ∈ tape.classRefs.entries, ∀ s ∈ c.texts, s = name ∨ s ∈ tape.texts := by
    intro c hc s hs
    simp only [Tape.texts, List.mem_append, List.mem_flatMap]
    exact Or.inr (Or.inl (Or.inl ⟨c, hc, hs⟩))
  have hstrings := decodes_strings count
    (fun s hs => fits.strings s (mem_strings hname hst hs))
  obtain ⟨t₁, ht₁⟩ : ∃ t₁ : Tape, t₁ = { Tape.create.module name with
    funcRefs := (tape.funcRefs.entries.map FunctionRef.written).foldl KeyedList.insert .empty } :=
    ⟨_, rfl⟩
  have hadded : tape.funcRefs.entries.foldlM Tape.addFunc (Tape.create.module name) = some t₁ := by
    rw [ht₁]
    apply Tape.addFuncs_module _ _ rfl
    simpa [KeyedList.keys, Tape.module, Tape.create] using tape.funcRefs.nodup
  obtain ⟨t₀, hrun, hcore, -, hentries⟩ := Tape.addClasses tape.classRefs.entries t₁
    (by rw [ht₁]; rfl) (by
      rw [ht₁]
      simpa [KeyedList.keys, Tape.module, Tape.create] using tape.classRefs.nodup)
  have hclassRefs : Decodes (readClassRefs st.strings t₁)
      (leBytes 2 tape.classRefs.entries.length ++
        tape.classRefs.entries.flatMap (serializeClassRef st)) t₀ := by
    refine Decodes.bind (Decodes.le (by simpa using fits.classes_lt)) (Decodes.iterate ?_ hrun)
    intro c hc t t' hstep
    obtain ⟨hstart, hend⟩ := fits.class_range c hc
    exact decodes_classRef table count (hclasses c hc) (fits.methods_lt c hc)
      (fits.supers_lt c hc) (fun f hf => lt_of_le_of_lt (fits.method_index c hc f hf) hsize)
      (lt_of_le_of_lt hstart hsize) (lt_of_le_of_lt hend hsize) hstep
  refine ⟨t₀, ?_, ?_, ?_⟩
  · rw [hcore.ins, ht₁]
    rfl
  · simp only [Tape.view, Tape.written, hcore.moduleName, hcore.funcRefs, hentries, hname, ht₁,
      Tape.written_foldl]
    simp [Tape.module, Tape.create]
  · intro rest
    simp only [List.append_assoc]
    rw [← List.append_assoc (leBytes 2 tape.funcRefs.entries.length),
      ← List.append_assoc (leBytes 2 tape.classRefs.entries.length)]
    refine (hstrings.run_bind _ _).trans ?_
    refine ((Decodes.ofOption table.head).run_bind _ _).trans ?_
    refine ((decodes_functionRefs table count fits.funcs_lt hfuncs hadded).run_bind _ _).trans ?_
    exact hclassRefs.run_bind _ _

/-- Both sides use the same width for string references, or there are none. -/
theorem roundTrips_iff_of_width (garbage : Nat → Nat) (count : st.strings.length < 2 ^ 16)
    (hwidth : ∀ ins ∈ tape.ins, ins.text ≠ none →
      (st.mapSize > uint8Max ↔ st.strings.length > uint8Max)) :
    BinaryRoundTrips garbage tape ↔ tape.Synchronous ∧ tape.Fieldless := by
  obtain ⟨t₀, hins, hview, hheader⟩ := readBinary_header fits hname hst count
  have htext : ∀ ins ∈ tape.ins, ∀ s, ins.text = some s → (s = name ∨ s ∈ tape.texts) ∧
      (st.mapSize > uint8Max ↔ st.strings.length > uint8Max) := by
    intro ins hmem s hs
    refine ⟨Or.inr ?_, hwidth ins hmem (by simp [hs])⟩
    simp only [Tape.texts, List.mem_append, List.mem_filterMap]
    exact Or.inr ⟨ins, hmem, hs⟩
  have hdecode := decodes_allIns (internAllStrings_interned hname hst) count fits.ins_lt
    fits.operands htext garbage t₀ []
  have hread : ((writeBinary garbage tape).bind readFile).map Tape.view = some tape.written := by
    rw [writeBinary_eq fits hst]
    simp only [Option.bind_some, readFile, hheader]
    rw [List.append_nil] at hdecode
    rw [hdecode]
    simp [Tape.view_foldl_insRaw, hins, hview]
  rw [BinaryRoundTrips, hread, Option.some_inj, Tape.written_eq_view_iff]

/-- A reader with the wider references asks for more bytes than the writer left. -/
theorem not_roundTrips_of_wider (garbage : Nat → Nat) (count : st.strings.length < 2 ^ 16)
    (hnarrow : ¬ st.mapSize > uint8Max) (hwide : st.strings.length > uint8Max)
    (htext : ∃ ins ∈ tape.ins, ins.text ≠ none) : ¬ BinaryRoundTrips garbage tape := by
  obtain ⟨t₀, hins, -, hheader⟩ := readBinary_header fits hname hst count
  intro hround
  rw [BinaryRoundTrips, writeBinary_eq fits hst] at hround
  simp only [Option.bind_some, readFile, hheader, Option.map_map,
    Option.map_eq_some_iff] at hround
  obtain ⟨⟨tape', rest⟩, hread, hview⟩ := hround
  have hcount : Decodes (Decoder.le 2) (leBytes 2 tape.ins.length) tape.ins.length :=
    Decodes.le (by simpa using fits.ins_lt)
  rw [readAllIns, hcount.run_bind] at hread
  obtain ⟨is, hinsEq, hsize⟩ := readIns_loop st.strings _ _ _ _ _ hread
  have heq : is = tape.ins := by
    have hsame : tape'.ins = tape.ins := congrArg Tape.View.ins hview
    rw [← hsame, hinsEq, hins, List.nil_append]
  rw [length_flatMap_serializeIns, heq] at hsize
  have hle : ∀ ins ∈ tape.ins, writeSize st ins ≤ readSize st.strings ins := by
    rintro ⟨op, arg⟩ _
    cases arg <;> simp [writeSize, readSize, hnarrow, hwide]
  have hlt : ∃ ins ∈ tape.ins, writeSize st ins < readSize st.strings ins := by
    obtain ⟨⟨op, arg⟩, hmem, hsome⟩ := htext
    refine ⟨_, hmem, ?_⟩
    cases arg with
    | noArg => exact absurd rfl hsome
    | id s => simp [writeSize, readSize, hnarrow, hwide]
    | str s => simp [writeSize, readSize, hnarrow, hwide]
    | val p => exact absurd rfl hsome
  have hsum := List.sum_lt_sum _ _ hle hlt
  omega

omit hname in
/-- With 65536 strings the count wraps to 0 and not even the module name is read. -/
theorem not_roundTrips_of_overflow (garbage : Nat → Nat) (hcount : st.strings.length = 2 ^ 16) :
    ¬ BinaryRoundTrips garbage tape := by
  intro hround
  have hzero : Decodes (Decoder.le 2) (leBytes 2 st.strings.length) 0 := by
    rw [hcount]
    exact Decodes.le_mod 2 (2 ^ 16)
  have hstrings : Decodes readStrings (leBytes 2 st.strings.length) [] :=
    Decodes.bind_done hzero (Decodes.pure [])
  have hfail : ∀ rest, readBinary Tape.create (leBytes 2 st.strings.length ++ rest) = none :=
    fun rest => hstrings.run_bind _ rest
  rw [BinaryRoundTrips, writeBinary_eq fits hst] at hround
  simp [readFile, serializeAllStrings, hfail] at hround

end File

/-- Where the module name does not split the string table, both sides agree on it. -/
theorem roundTrips_iff_of_whole (garbage : Nat → Nat) {tape : Tape} (fits : tape.Fits)
    (hwhole : ¬ tape.TableSplits) :
    BinaryRoundTrips garbage tape ↔ tape.Synchronous ∧ tape.Fieldless := by
  obtain ⟨name, hname⟩ := Option.ne_none_iff_exists'.mp fits.named
  obtain ⟨st, hst⟩ : ∃ st, internAllStrings tape = some st := ⟨_, internAllStrings_eq hname⟩
  have hsize := mapSize_eq_card hname hst
  have hlen := length_strings_eq hname hst
  have hcard := fits.strings_lt
  by_cases hrecurs : tape.NameRecurs
  · rw [if_pos hrecurs] at hlen
    have hover : tape.allTexts.toFinset.card ≠ 2 ^ 16 - 1 := fun h => hwhole ⟨hrecurs, .inl h⟩
    apply roundTrips_iff_of_width fits hname hst garbage (by omega)
    intro ins hmem htext
    have hedge : tape.allTexts.toFinset.card ≠ uint8Max :=
      fun h => hwhole ⟨hrecurs, .inr ⟨h, ins, hmem, htext⟩⟩
    omega
  · rw [if_neg hrecurs] at hlen
    apply roundTrips_iff_of_width fits hname hst garbage (by omega)
    intro ins _ _
    omega

theorem not_roundTrips_of_splits (garbage : Nat → Nat) {tape : Tape} (fits : tape.Fits)
    (hsplits : tape.TableSplits) : ¬ BinaryRoundTrips garbage tape := by
  obtain ⟨name, hname⟩ := Option.ne_none_iff_exists'.mp fits.named
  obtain ⟨st, hst⟩ : ∃ st, internAllStrings tape = some st := ⟨_, internAllStrings_eq hname⟩
  have hsize := mapSize_eq_card hname hst
  have hlen := length_strings_eq hname hst
  obtain ⟨hrecurs, hcases⟩ := hsplits
  rw [if_pos hrecurs] at hlen
  rcases hcases with hover | ⟨hedge, htext⟩
  · exact not_roundTrips_of_overflow fits hst garbage (by omega)
  · have hmax : uint8Max = 255 := rfl
    exact not_roundTrips_of_wider fits hname hst garbage (by omega) (by omega) (by omega) htext

theorem binary_round_trips_iff (garbage : Nat → Nat) {tape : Tape} (fits : tape.Fits) :
    BinaryRoundTrips garbage tape ↔
      tape.Synchronous ∧ tape.Fieldless ∧ ¬ tape.TableSplits := by
  constructor
  · intro h
    have hwhole : ¬ tape.TableSplits := fun hsplits =>
      not_roundTrips_of_splits garbage fits hsplits h
    obtain ⟨hsync, hfieldless⟩ := (roundTrips_iff_of_whole garbage fits hwhole).mp h
    exact ⟨hsync, hfieldless, hwhole⟩
  · rintro ⟨hsync, hfieldless, hwhole⟩
    exact (roundTrips_iff_of_whole garbage fits hwhole).mpr ⟨hsync, hfieldless⟩

/-- `module m` with one function `f` that returns nothing. -/
def oneFunctionTape (isAsync : Bool) : Tape :=
  { Tape.create with
    moduleName := some "m"
    ins := [⟨.RES, .val (.int 7)⟩, ⟨.RET, .noArg⟩]
    sourceMap := [⟨1, 1⟩, ⟨1, 1⟩]
    funcRefs := KeyedList.empty.insert ⟨"f", 0, false, isAsync⟩ }

theorem oneFunctionTape_fits (isAsync : Bool) : (oneFunctionTape isAsync).Fits where
  named := by simp [oneFunctionTape]
  ins_lt := by decide +revert
  funcs_lt := by decide +revert
  classes_lt := by decide +revert
  methods_lt := by intro c hc; cases hc
  supers_lt := by intro c hc; cases hc
  strings_lt := by decide +revert
  func_index := by decide +revert
  method_index := by intro c hc; cases hc
  class_range := by intro c hc; cases hc
  strings := by
    intro s hs
    rw [show (oneFunctionTape isAsync).allTexts = ["m", "f"] from rfl] at hs
    revert s
    simp [CString, maxStringSz]
    decide
  operands := by
    intro ins hins p hp
    rcases List.mem_cons.mp hins with rfl | hins
    · cases hp
      simp [Primitive.Representable]
    · rw [List.mem_singleton.mp hins] at hp
      cases hp

theorem not_binary_round_trips :
    (oneFunctionTape true).Fits ∧ ¬ BinaryRoundTrips (fun _ => 0) (oneFunctionTape true) :=
  ⟨oneFunctionTape_fits true, by decide⟩

/-- A class with a superclass and two methods, a function, and a call with its argument. -/
def shapesTape : Tape where
  moduleName := some "shapes"
  ins := [⟨.RES, .id "self"⟩, ⟨.RET, .noArg⟩, ⟨.PUSH, .val (.int (-3))⟩, ⟨.RES, .id "x"⟩,
    ⟨.RET, .noArg⟩, ⟨.RES, .id "Shape"⟩, ⟨.PUSH, .noArg⟩, ⟨.RES, .str "'shapes'"⟩,
    ⟨.CALL, .id "new"⟩, ⟨.SET, .id "shapes"⟩, ⟨.JMP, .val (.int (-2))⟩]
  sourceMap := List.replicate 11 ⟨1, 1⟩
  classRefs := KeyedList.empty.insert ⟨"Shape", 0, 5, (KeyedList.empty.insert
    ⟨"new", 0, false, false⟩).insert ⟨"area", 2, false, false⟩, KeyedList.empty, ["Object"]⟩
  funcRefs := KeyedList.empty.insert ⟨"main", 5, false, false⟩
  currentClass := none

theorem shapesTape_fits : shapesTape.Fits where
  named := by simp [shapesTape]
  ins_lt := by decide
  funcs_lt := by decide
  classes_lt := by decide
  methods_lt := by decide
  supers_lt := by decide
  strings_lt := (List.toFinset_card_le _).trans_lt (by decide)
  func_index := by decide
  method_index := by decide
  class_range := by decide
  strings := by
    have htexts : shapesTape.allTexts = ["shapes", "Shape", "Object", "new", "area", "main", "self",
      "x", "Shape", "'shapes'", "new", "shapes"] := rfl
    rw [htexts]
    simp [CString, maxStringSz]
    decide
  operands := by
    intro ins hins p hp
    simp only [shapesTape, List.mem_cons, List.not_mem_nil, or_false] at hins
    rcases hins with rfl | rfl | rfl | rfl | rfl | rfl | rfl | rfl | rfl | rfl | rfl
    all_goals cases hp
    all_goals exact ⟨by decide, by decide⟩

theorem shapesTape_whole : ¬ shapesTape.TableSplits := by
  rintro ⟨-, hfull | ⟨hedge, -⟩⟩
  · exact absurd hfull (by decide +kernel)
  · exact absurd hedge (by decide +kernel)

theorem binary_round_trips_shapesTape : BinaryRoundTrips (fun _ => 0) shapesTape :=
  (binary_round_trips_iff _ shapesTape_fits).mpr ⟨by decide, by decide, shapesTape_whole⟩

end JeffVm
