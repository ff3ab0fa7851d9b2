import JeffVm.Buffer
import JeffVm.TapeBinaryRoundTrip

/-!
# Writing a tape through the buffer

`tape_write_binary` over the buffer: the blocks that the `serialize_*` functions hand to
`buffer_write`, one after the other. Their bytes are those of `writeBinary`.
-/

set_option autoImplicit false

namespace JeffVm

/-! ## The blocks of a tape -/

def allStringsBlocks (st : StringTable) : List (List UInt8) :=
  leBytes 2 st.strings.length :: st.strings.map serializeStr

def functionRefBlocks (st : StringTable) (fref : FunctionRef) : List (List UInt8) :=
  [leBytes 2 (st.mapLookup fref.name), leBytes 2 fref.index]

def classRefBlocks (st : StringTable) (cref : ClassRef) : List (List UInt8) :=
  [leBytes 2 (st.mapLookup cref.name), leBytes 2 cref.startIndex, leBytes 2 cref.endIndex,
    leBytes 2 cref.supers.length] ++ cref.supers.map (fun s => leBytes 2 (st.mapLookup s)) ++
    [leBytes 2 cref.funcRefs.entries.length] ++
    cref.funcRefs.entries.flatMap (functionRefBlocks st)

def primitiveBlocks (garbage : Nat) : Primitive → List (List UInt8)
  | .int n => [[1], intBytes 4 n ++ leBytes 4 garbage]
  | .float bits =>
    [[2], leBytes 4 (Float.ofBits bits).toFloat32.toBits.toNat ++ leBytes 4 garbage]
  | .char n => [[0], intBytes 1 n]

def insBlocks (st : StringTable) (garbage : Nat) (ins : Instruction) : List (List UInt8) :=
  match ins.arg with
  | .noArg => [leBytes 1 ins.op.code, leBytes 1 0]
  | .id s => [leBytes 1 ins.op.code, leBytes 1 1, serializeRef st s]
  | .str s => [leBytes 1 ins.op.code, leBytes 1 2, serializeRef st s]
  | .val p => [leBytes 1 ins.op.code, leBytes 1 3] ++ primitiveBlocks garbage p

def tapeBlocks (garbage : Nat → Nat) (st : StringTable) (tape : Tape) : List (List UInt8) :=
  allStringsBlocks st ++
    (leBytes 2 tape.funcRefs.entries.length ::
      tape.funcRefs.entries.flatMap (functionRefBlocks st)) ++
    (leBytes 2 tape.classRefs.entries.length ::
      tape.classRefs.entries.flatMap (classRefBlocks st)) ++
    (leBytes 2 tape.ins.length ::
      (tape.ins.take (tape.ins.length % 2 ^ 16)).zipIdx.flatMap
        (fun p => insBlocks st (garbage p.2) p.1))

theorem flatten_flatMap {α : Type*} {f : α → List (List UInt8)} {g : α → List UInt8}
    (h : ∀ a, (f a).flatten = g a) (as : List α) : (as.flatMap f).flatten = as.flatMap g := by
  rw [← List.flatMap_id, List.flatMap_assoc]
  simp only [List.flatMap_id, h]

theorem flatten_functionRefBlocks (st : StringTable) (fref : FunctionRef) :
    (functionRefBlocks st fref).flatten = serializeFunctionRef st fref := by
  simp [functionRefBlocks, serializeFunctionRef]

theorem flatten_classRefBlocks (st : StringTable) (cref : ClassRef) :
    (classRefBlocks st cref).flatten = serializeClassRef st cref := by
  have hsupers : (cref.supers.map fun s => leBytes 2 (st.mapLookup s)).flatten =
      cref.supers.flatMap fun s => leBytes 2 (st.mapLookup s) := List.flatMap_def.symm
  have hmethods := flatten_flatMap (flatten_functionRefBlocks st) cref.funcRefs.entries
  simp [classRefBlocks, serializeClassRef, hsupers, hmethods]

theorem flatten_primitiveBlocks (garbage : Nat) (p : Primitive) :
    (primitiveBlocks garbage p).flatten = serializePrimitive garbage p := by
  cases p with
  | char n => simp [primitiveBlocks, serializePrimitive]
  | int n => simp [primitiveBlocks, serializePrimitive]
  | float bits => simp [primitiveBlocks, serializePrimitive]

theorem flatten_insBlocks (st : StringTable) (garbage : Nat) (ins : Instruction) :
    (insBlocks st garbage ins).flatten = serializeIns st garbage ins := by
  obtain ⟨op, arg⟩ := ins
  cases arg with
  | noArg => simp [insBlocks, serializeIns]
  | id s => simp [insBlocks, serializeIns]
  | str s => simp [insBlocks, serializeIns]
  | val p => simp [insBlocks, serializeIns, flatten_primitiveBlocks]

theorem flatten_allStringsBlocks (st : StringTable) :
    (allStringsBlocks st).flatten = serializeAllStrings st := by
  rw [allStringsBlocks, List.flatten_cons, ← List.flatMap_def]
  rfl

/-- The blocks of a tape are the bytes of its binary form. -/
theorem writeBinary_eq_flatten (garbage : Nat → Nat) {st : StringTable} {tape : Tape}
    (hst : internAllStrings tape = some st) :
    writeBinary garbage tape = some (tapeBlocks garbage st tape).flatten := by
  have hfuncs := flatten_flatMap (flatten_functionRefBlocks st) tape.funcRefs.entries
  have hclasses := flatten_flatMap (flatten_classRefBlocks st) tape.classRefs.entries
  have hins := flatten_flatMap (fun p : Instruction × Nat => flatten_insBlocks st (garbage p.2) p.1)
    (tape.ins.take (tape.ins.length % 2 ^ 16)).zipIdx
  rw [writeBinary, hst, tapeBlocks]
  simp only [List.flatten_append, List.flatten_cons, flatten_allStringsBlocks, hfuncs, hclasses,
    hins]
  rfl

/-! ## The blocks are short -/

theorem short_functionRefBlocks (st : StringTable) (fref : FunctionRef) :
    ∀ b ∈ functionRefBlocks st fref, b.length ≤ 8 := by
  simp [functionRefBlocks]

theorem short_classRefBlocks (st : StringTable) (cref : ClassRef) :
    ∀ b ∈ classRefBlocks st cref, b.length ≤ 8 := by
  unfold classRefBlocks
  simp only [List.forall_mem_append, List.forall_mem_flatMap]
  refine ⟨⟨⟨by simp, by simp⟩, by simp⟩, ?_⟩
  intro fref _
  exact short_functionRefBlocks st fref

theorem short_primitiveBlocks (garbage : Nat) (p : Primitive) :
    ∀ b ∈ primitiveBlocks garbage p, b.length ≤ 8 := by
  cases p with
  | char n => simp [primitiveBlocks, intBytes]
  | int n => simp [primitiveBlocks, intBytes]
  | float bits => simp [primitiveBlocks]

theorem short_serializeRef (st : StringTable) (s : String) : (serializeRef st s).length ≤ 8 := by
  rw [length_serializeRef]
  split <;> omega

theorem short_insBlocks (st : StringTable) (garbage : Nat) (ins : Instruction) :
    ∀ b ∈ insBlocks st garbage ins, b.length ≤ 8 := by
  obtain ⟨op, arg⟩ := ins
  cases arg with
  | noArg => simp [insBlocks]
  | id s => simp [insBlocks, short_serializeRef]
  | str s => simp [insBlocks, short_serializeRef]
  | val p =>
    simp only [insBlocks, List.forall_mem_append]
    exact ⟨by simp, short_primitiveBlocks garbage p⟩

/-- No block but a string has more than eight bytes. -/
theorem length_le_of_mem_tapeBlocks {garbage : Nat → Nat} {st : StringTable} {tape : Tape}
    {bound : Nat} (hbound : 8 ≤ bound) (hstrings : ∀ s ∈ st.strings, s.length < bound) :
    ∀ b ∈ tapeBlocks garbage st tape, b.length ≤ bound := by
  have hcount : ∀ n, (leBytes 2 n).length ≤ bound := by
    intro n
    rw [length_leBytes]
    omega
  unfold tapeBlocks allStringsBlocks
  simp only [List.forall_mem_append, List.forall_mem_cons, List.forall_mem_flatMap,
    List.forall_mem_map]
  refine ⟨⟨⟨⟨hcount _, ?_⟩, hcount _, ?_⟩, hcount _, ?_⟩, hcount _, ?_⟩
  · intro s hs
    have hlength := hstrings s hs
    simp only [serializeStr, List.length_append, List.length_map, List.length_singleton,
      String.length_toList]
    omega
  · intro fref _ b hb
    exact le_trans (short_functionRefBlocks st fref b hb) hbound
  · intro cref _ b hb
    exact le_trans (short_classRefBlocks st cref b hb) hbound
  · intro p _ b hb
    exact le_trans (short_insBlocks st (garbage p.2) p.1 b hb) hbound

/-! ## The writer -/

section Writer

variable {P : Platform}

/-- `serialize_bytes` with the length of the block, which is an `int`. -/
def serializeBytes (fuel : Nat) (buffer : WBuffer P) (bytes : List UInt8) : Option (WBuffer P) :=
  bufferWrite fuel buffer bytes (wrap32 bytes.length)

def serializeBlocks (fuel : Nat) (buffer : WBuffer P) (blocks : List (List UInt8)) :
    Option (WBuffer P) :=
  blocks.foldlM (serializeBytes fuel) buffer

def tapeWriteBinary (fuel : Nat) (garbage : Nat → Nat) (tape : Tape) (file : P.File) :
    Option (WBuffer P) :=
  (internAllStrings tape).bind fun st =>
    (serializeBlocks fuel (bufferInit file 512) (tapeBlocks garbage st tape)).bind bufferFinalize

variable {size fuel : Nat}

theorem serializeBytes_appends (hlaw : P.Lawful) (hsize : 1 ≤ size) (hfits : size < 2 ^ 64)
    {bytes : List UInt8} (hfuel : bytes.length ≤ fuel) (hint : bytes.length < 2 ^ 31) :
    Appends (WBuffer.Sound (P := P) size) WBuffer.written
      (fun buffer => serializeBytes fuel buffer bytes) bytes := by
  let call : WriteCall := ⟨bytes, bytes.length, by omega, le_rfl, by omega⟩
  have hlength : wrap32 bytes.length = call.numBytes := wrap32_of_range (by omega) (by omega)
  have hbytes : call.bytes = bytes := List.take_length
  have hcallFuel : call.numBytes ≤ fuel := Int.ofNat_le.mpr hfuel
  have happends := bufferWrite_appends (P := P) hlaw hsize hfits hcallFuel
  unfold serializeBytes
  rw [hlength]
  rwa [hbytes] at happends

theorem serializeBlocks_appends (hlaw : P.Lawful) (hsize : 1 ≤ size) (hfits : size < 2 ^ 64)
    {blocks : List (List UInt8)} (hfuel : ∀ bytes ∈ blocks, bytes.length ≤ fuel)
    (hint : ∀ bytes ∈ blocks, bytes.length < 2 ^ 31) :
    Appends (WBuffer.Sound (P := P) size) WBuffer.written
      (fun buffer => serializeBlocks fuel buffer blocks) blocks.flatten := by
  rw [← List.flatMap_id]
  apply appends_foldlM
  intro bytes hbytes
  exact serializeBytes_appends hlaw hsize hfits (hfuel bytes hbytes) (hint bytes hbytes)

/-- `tape_write_binary` puts the binary form of the tape behind what the file has. -/
theorem tapeWriteBinary_content (hlaw : P.Lawful) (file : P.File) (garbage : Nat → Nat)
    {tape : Tape} {st : StringTable} (hst : internAllStrings tape = some st)
    (hstrings : ∀ s ∈ st.strings, s.length + 1 < 2 ^ 31) (hsteps : 8 ≤ fuel)
    (hfuel : ∀ s ∈ st.strings, s.length < fuel) :
    ∃ buffer' bytes, tapeWriteBinary fuel garbage tape file = some buffer' ∧
      writeBinary garbage tape = some bytes ∧
      P.content buffer'.file = P.content file ++ bytes := by
  have hint : ∀ bytes ∈ tapeBlocks garbage st tape, bytes.length < 2 ^ 31 := by
    intro bytes hbytes
    have hshort : ∀ s ∈ st.strings, s.length < 2 ^ 31 - 1 := fun s hs => by
      have hs' := hstrings s hs
      omega
    have hle := length_le_of_mem_tapeBlocks (by omega) hshort bytes hbytes
    omega
  have hsize : 1 ≤ (512 : UInt64).toNat := by decide
  obtain ⟨buffer, hblocks, hsound, hwritten⟩ :=
    serializeBlocks_appends hlaw hsize (UInt64.toNat_lt 512)
      (length_le_of_mem_tapeBlocks hsteps hfuel) hint _ (bufferInit_sound hlaw file 512)
  obtain ⟨last, hfinalize, hcontent⟩ := bufferFinalize_spec hlaw hsound
  refine ⟨last, _, ?_, writeBinary_eq_flatten garbage hst, ?_⟩
  · change serializeBlocks fuel (bufferInit file 512) _ = some buffer at hblocks
    rw [tapeWriteBinary, hst, Option.bind_some, hblocks, Option.bind_some, hfinalize]
  · rw [hcontent, hwritten, written_bufferInit]

/-- What `tape_write_binary` puts behind what the file has reads back as the tape. -/
theorem written_tape_reads_back (hlaw : P.Lawful) (file : P.File) (garbage : Nat → Nat)
    {tape : Tape} (fits : tape.Fits) (hwhole : ¬ tape.TableSplits) (hfuel : maxStringSz ≤ fuel) :
    ∃ buffer' bytes, tapeWriteBinary fuel garbage tape file = some buffer' ∧
      P.content buffer'.file = P.content file ++ bytes ∧
      ((readFile bytes).map Tape.view = some tape.view ↔ tape.Synchronous ∧ tape.Fieldless) := by
  obtain ⟨name, hname⟩ := Option.ne_none_iff_exists'.mp fits.named
  obtain ⟨st, hst⟩ : ∃ st, internAllStrings tape = some st := ⟨_, internAllStrings_eq hname⟩
  have hmax : maxStringSz = 1024 := rfl
  have hstrings : ∀ s ∈ st.strings, s.length < maxStringSz := fun s hs =>
    (fits.strings s (mem_strings hname hst hs)).2
  have hint : ∀ s ∈ st.strings, s.length + 1 < 2 ^ 31 := fun s hs => by
    have hs' := hstrings s hs
    omega
  obtain ⟨buffer', bytes, hwrite, hbytes, hcontent⟩ := tapeWriteBinary_content hlaw file garbage
    hst hint (by omega) fun s hs => (hstrings s hs).trans_le hfuel
  refine ⟨buffer', bytes, hwrite, hcontent, ?_⟩
  have hround := roundTrips_iff_of_whole garbage fits hwhole
  rwa [BinaryRoundTrips, hbytes] at hround

end Writer

/-- The file has a byte already. -/
theorem written_tape_reads_back_shapes : ∃ (buffer' : WBuffer memoryPlatform) (bytes : List UInt8),
    tapeWriteBinary 1024 (fun _ => 7) shapesTape ([9] : List UInt8) = some buffer' ∧
      buffer'.file = ((9 :: bytes) : List UInt8) ∧
      (readFile bytes).map Tape.view = some shapesTape.view := by
  obtain ⟨buffer', bytes, hwrite, hcontent, hreads⟩ :=
    @written_tape_reads_back memoryPlatform 1024 memoryPlatform_lawful ([9] : List UInt8)
      (fun _ => 7) shapesTape shapesTape_fits shapesTape_whole (Nat.le_refl _)
  exact ⟨buffer', bytes, hwrite, hcontent, hreads.mpr ⟨by decide, by decide⟩⟩

end JeffVm
