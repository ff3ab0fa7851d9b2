import JeffVm.Instruction
import JeffVm.Lib.AppendLog
import JeffVm.Lib.WhileLoop

/-!
# The write buffer

`WBuffer` of `serialization/buffer.h`: a block of memory between the writers of a file and
`fwrite`. `none` is a failed assertion, a copy or a read past the end of a block, or a loop with
more rounds than it is given.
-/

set_option autoImplicit false

namespace JeffVm

/-- The value a `size_t` holds after `n` is stored in it. -/
def sizeT (n : Int) : Nat := (n % 2 ^ 64).toNat

/-- What `buffer.c` uses of `stdio.h` and `alloc/alloc.h`. -/
structure Platform where
  File : Type
  content : File → List UInt8
  /-- The number of bytes that were written, and the file. -/
  fwrite : File → List UInt8 → Nat × File
  fflush : File → File
  /-- The block that `ALLOC_ARRAY` gives, with what is in it. -/
  alloc : Nat → List UInt8

/-- `fwrite` writes all it is given behind what the file has. -/
structure Platform.Lawful (P : Platform) : Prop where
  fwrite_count : ∀ file bytes, (P.fwrite file bytes).1 = bytes.length
  fwrite_content : ∀ file bytes, P.content (P.fwrite file bytes).2 = P.content file ++ bytes
  fflush_content : ∀ file, P.content (P.fflush file) = P.content file
  alloc_length : ∀ size, (P.alloc size).length = size

structure WBuffer (P : Platform) where
  file : P.File
  buff : List UInt8
  pos : Nat
  buffSize : Nat

/-- `memcpy` of `n` bytes to the place `off` of one block from the place `start` of another. -/
def memcpy (dst : List UInt8) (off : Nat) (src : List UInt8) (start : Int) (n : Nat) :
    Option (List UInt8) :=
  if off + n ≤ dst.length ∧ 0 ≤ start ∧ start + n ≤ src.length then
    some (dst.take off ++ (src.drop start.toNat).take n ++ dst.drop (off + n))
  else none

section Code

variable {P : Platform}

def bufferInit (file : P.File) (size : UInt64) : WBuffer P :=
  { file, buff := P.alloc size.toNat, pos := 0, buffSize := size.toNat }

def bufferFlush (buffer : WBuffer P) : Option (WBuffer P) :=
  if buffer.pos ≤ buffer.buff.length then
    match P.fwrite buffer.file (buffer.buff.take buffer.pos) with
    | (count, file) =>
      if count = buffer.pos then some { buffer with file := P.fflush file, pos := 0 } else none
  else none

/-- The block is freed. -/
def bufferFinalize (buffer : WBuffer P) : Option (WBuffer P) :=
  (bufferFlush buffer).map fun buffer => { buffer with buff := [] }

/-- The loop of `buffer_write`: the buffer and the local `i`. -/
structure WriteState (P : Platform) where
  buffer : WBuffer P
  i : Int

/-- The `int` that `min(room, left)` is stored in, where `room` is a `size_t` and `left` an
`int`. -/
def writeAmount (room : Nat) (left : Int) : Int :=
  wrap32 (if room > sizeT left then sizeT left else room)

def flushIfFull (buffer : WBuffer P) : Option (WBuffer P) :=
  if buffer.buffSize = buffer.pos then bufferFlush buffer else some buffer

def writeRound (start : List UInt8) (numBytes : Int) (s : WriteState P) : Option (WriteState P) :=
  match flushIfFull s.buffer with
  | none => none
  | some buffer =>
    let amount := writeAmount (sizeT (buffer.buffSize - buffer.pos)) (wrap32 (numBytes - s.i))
    match memcpy buffer.buff buffer.pos start s.i (sizeT amount) with
    | none => none
    | some buff =>
      some ⟨{ buffer with buff, pos := sizeT (buffer.pos + amount) }, wrap32 (s.i + amount)⟩

def writeLoop (start : List UInt8) (numBytes : Int) : WhileLoop (WriteState P) where
  cond s := decide (s.i < numBytes)
  body := writeRound start numBytes

def bufferWrite (fuel : Nat) (buffer : WBuffer P) (start : List UInt8) (numBytes : Int) :
    Option (WBuffer P) :=
  if 0 ≤ numBytes then
    ((writeLoop start numBytes).run fuel ⟨buffer, 0⟩).map WriteState.buffer
  else none

end Code

/-- The arguments of a call of `buffer_write`: an `int` number of bytes, all of them in the block
at `start`. -/
structure WriteCall where
  start : List UInt8
  numBytes : Int
  nonneg : 0 ≤ numBytes
  within : numBytes ≤ start.length
  fits : numBytes < 2 ^ 31

namespace WriteCall

def bytes (call : WriteCall) : List UInt8 := call.start.take call.numBytes.toNat

def loop {P : Platform} (call : WriteCall) : WhileLoop (WriteState P) :=
  writeLoop call.start call.numBytes

end WriteCall

section Code

variable {P : Platform}

def writeAll (fuel : Nat) (buffer : WBuffer P) (calls : List WriteCall) : Option (WBuffer P) :=
  calls.foldlM (fun buffer call => bufferWrite fuel buffer call.start call.numBytes) buffer

/-- A buffer of the given size, the calls of `buffer_write`, and `buffer_finalize`. -/
def writeFile (fuel : Nat) (file : P.File) (size : UInt64) (calls : List WriteCall) :
    Option (WBuffer P) :=
  (writeAll fuel (bufferInit file size) calls).bind bufferFinalize

/-- The loop of one of the calls comes to the state `s`. -/
def Visited (fuel : Nat) (buffer : WBuffer P) (calls : List WriteCall) (s : WriteState P) : Prop :=
  ∃ before call after next, calls = before ++ call :: after ∧
    writeAll fuel buffer before = some next ∧ call.loop.Visits ⟨next, 0⟩ s

end Code

/-! ## Sizes and copies -/

@[simp] theorem sizeT_of_range {n : Nat} (h : n < 2 ^ 64) : sizeT n = n := by
  unfold sizeT
  omega

/-- A round copies what there is room for. -/
theorem writeAmount_eq {room : Nat} {left : Int} (hnonneg : 0 ≤ left) (hfits : left < 2 ^ 31) :
    writeAmount room left = min (room : Int) left := by
  have hleft : (sizeT left : Int) = left := by
    unfold sizeT
    omega
  unfold writeAmount
  rw [wrap32_of_range]
  · split <;> omega
  · split <;> omega
  · split <;> omega

theorem memcpy_eq {dst src : List UInt8} {off i n : Nat} (hdst : off + n ≤ dst.length)
    (hsrc : i + n ≤ src.length) :
    ∃ dst', memcpy dst off src i n = some dst' ∧ dst'.length = dst.length ∧
      dst'.take (off + n) = dst.take off ++ (src.drop i).take n := by
  have hcopied : (dst.take off ++ (src.drop i).take n).length = off + n := by
    rw [List.length_append, List.length_take, List.length_take, List.length_drop]
    omega
  refine ⟨dst.take off ++ (src.drop i).take n ++ dst.drop (off + n), ?_, ?_, ?_⟩
  · unfold memcpy
    rw [if_pos ⟨hdst, Int.natCast_nonneg i, by omega⟩, Int.toNat_natCast]
  · rw [List.length_append, hcopied, List.length_drop]
    omega
  · rw [← hcopied, List.take_left]

/-! ## The buffer as a log -/

namespace WBuffer

variable {P : Platform}

/-- What the file has, and what waits in the buffer. -/
def written (buffer : WBuffer P) : List UInt8 :=
  P.content buffer.file ++ buffer.buff.take buffer.pos

/-- The buffer has a block of `size` bytes and is filled up to a place in it. -/
structure Sound (size : Nat) (buffer : WBuffer P) : Prop where
  buffSize_eq : buffer.buffSize = size
  block : buffer.buff.length = size
  pos_le : buffer.pos ≤ size

end WBuffer

section Log

variable {P : Platform} {size : Nat} {buffer : WBuffer P} {call : WriteCall}

theorem bufferInit_sound (hlaw : P.Lawful) (file : P.File) (size : UInt64) :
    (bufferInit file size).Sound size.toNat :=
  ⟨rfl, hlaw.alloc_length _, Nat.zero_le _⟩

theorem written_bufferInit (file : P.File) (size : UInt64) :
    (bufferInit file size).written = P.content file :=
  List.append_nil _

theorem bufferFlush_eq (hlaw : P.Lawful) (hpos : buffer.pos ≤ buffer.buff.length) :
    bufferFlush buffer = some { buffer with
      file := P.fflush (P.fwrite buffer.file (buffer.buff.take buffer.pos)).2, pos := 0 } := by
  have hcount : (P.fwrite buffer.file (buffer.buff.take buffer.pos)).1 = buffer.pos := by
    rw [hlaw.fwrite_count, List.length_take, Nat.min_eq_left hpos]
  rw [bufferFlush, if_pos hpos]
  exact if_pos hcount

/-- A flush moves what waits in the buffer to the file. -/
theorem bufferFlush_spec (hlaw : P.Lawful) (h : buffer.Sound size) :
    ∃ buffer', bufferFlush buffer = some buffer' ∧ buffer'.Sound size ∧ buffer'.pos = 0 ∧
      P.content buffer'.file = buffer.written := by
  have hpos : buffer.pos ≤ buffer.buff.length := by
    rw [h.block]
    exact h.pos_le
  refine ⟨_, bufferFlush_eq hlaw hpos, ⟨h.buffSize_eq, h.block, Nat.zero_le _⟩, rfl, ?_⟩
  rw [hlaw.fflush_content]
  exact hlaw.fwrite_content _ _

theorem written_of_flushed (hpos : buffer.pos = 0) : buffer.written = P.content buffer.file := by
  rw [WBuffer.written, hpos]
  exact List.append_nil _

/-- After the first statement of a round there is room in the buffer. -/
theorem flushIfFull_spec (hlaw : P.Lawful) (hsize : 1 ≤ size) (h : buffer.Sound size) :
    ∃ buffer', flushIfFull buffer = some buffer' ∧ buffer'.Sound size ∧ buffer'.pos < size ∧
      buffer'.written = buffer.written := by
  unfold flushIfFull
  by_cases hfull : buffer.buffSize = buffer.pos
  · obtain ⟨flushed, hflush, hsound, hpos, hcontent⟩ := bufferFlush_spec hlaw h
    rw [if_pos hfull]
    refine ⟨flushed, hflush, hsound, ?_, ?_⟩
    · rw [hpos]
      exact hsize
    · rw [written_of_flushed hpos, hcontent]
  · rw [if_neg hfull]
    rw [h.buffSize_eq] at hfull
    exact ⟨buffer, rfl, h, Nat.lt_of_le_of_ne h.pos_le (Ne.symm hfull), rfl⟩

/-- The state of the loop of a call that has written `i` of its bytes behind `log`. -/
structure Writing (size : Nat) (log : List UInt8) (call : WriteCall) (s : WriteState P) :
    Prop where
  sound : s.buffer.Sound size
  nonneg : 0 ≤ s.i
  le : s.i ≤ call.numBytes
  written : s.buffer.written = log ++ call.start.take s.i.toNat

def WriteCall.remaining (call : WriteCall) (s : WriteState P) : Nat := (call.numBytes - s.i).toNat

theorem WriteCall.remaining_lt {s s' : WriteState P} (hlt : s.i < s'.i)
    (hle : s'.i ≤ call.numBytes) : call.remaining s' < call.remaining s := by
  unfold remaining
  omega

theorem writeAmount_call {pos i : Nat} (hfits : size < 2 ^ 64) (hpos : pos < size)
    (hi : i < call.numBytes) :
    writeAmount (sizeT (size - pos)) (wrap32 (call.numBytes - i)) =
      min (size - pos) (call.numBytes.toNat - i) := by
  have hcallFits := call.fits
  have hroom : sizeT (size - pos) = size - pos := by
    rw [← Int.ofNat_sub (Nat.le_of_lt hpos)]
    exact sizeT_of_range (by omega)
  rw [hroom, wrap32_of_range (by omega) (by omega), writeAmount_eq (by omega) (by omega)]
  omega

/-- A round copies at least one byte, and behind the others. -/
theorem writeRound_spec (hlaw : P.Lawful) (hsize : 1 ≤ size) (hfits : size < 2 ^ 64)
    {log : List UInt8} {s : WriteState P} (h : Writing size log call s)
    (hcond : s.i < call.numBytes) :
    ∃ s', writeRound call.start call.numBytes s = some s' ∧ Writing size log call s' ∧
      call.remaining s' < call.remaining s := by
  obtain ⟨full, i⟩ := s
  obtain ⟨i, rfl⟩ := Int.eq_ofNat_of_zero_le h.nonneg
  change (i : Int) < call.numBytes at hcond
  obtain ⟨buffer, hflush, hsound, hroom, hwritten⟩ := flushIfFull_spec hlaw hsize h.sound
  have hcallFits := call.fits
  have hwithin := call.within
  have hamount := writeAmount_call hfits hroom hcond
  obtain ⟨n, hn⟩ : ∃ n, n = min (size - buffer.pos) (call.numBytes.toNat - i) := ⟨_, rfl⟩
  rw [← hn] at hamount
  have hcopies : 0 < n := by omega
  have hfit : buffer.pos + n ≤ size := by omega
  have hleft : i + n ≤ call.numBytes := by omega
  have hsrc : i + n ≤ call.start.length := by omega
  obtain ⟨buff, hcopy, hlength, htake⟩ := memcpy_eq (hsound.block.symm ▸ hfit) hsrc
  have hsizeT : sizeT (n : Nat) = n := sizeT_of_range (by omega)
  have hpos : sizeT (buffer.pos + n) = buffer.pos + n := sizeT_of_range (by omega)
  have hnext : wrap32 (i + n) = (i + n : Nat) := wrap32_of_range (by omega) (by omega)
  refine ⟨⟨{ buffer with buff, pos := buffer.pos + n }, (i + n : Nat)⟩, ?_, ?_, ?_⟩
  · rw [writeRound, hflush]
    simp only [hsound.buffSize_eq, hamount, hsizeT, hpos, hnext, hcopy]
  · constructor
    · exact ⟨hsound.buffSize_eq, hlength.trans hsound.block, hfit⟩
    · exact Int.natCast_nonneg _
    · exact hleft
    · calc P.content buffer.file ++ buff.take (buffer.pos + n)
          = buffer.written ++ (call.start.drop i).take n := by
            rw [htake, ← List.append_assoc, WBuffer.written]
        _ = log ++ (call.start.take i ++ (call.start.drop i).take n) := by
            rw [hwritten, h.written, List.append_assoc, Int.toNat_natCast]
        _ = log ++ call.start.take (i + n) := by
            rw [List.take_add]
  · apply WriteCall.remaining_lt _ hleft
    exact Int.ofNat_lt.mpr (Nat.lt_add_of_pos_right hcopies)

/-! ## Whole calls -/

theorem writing_start (h : buffer.Sound size) (call : WriteCall) :
    Writing size buffer.written call ⟨buffer, 0⟩ :=
  ⟨h, le_rfl, call.nonneg, (List.append_nil _).symm⟩

theorem bufferWrite_appends (hlaw : P.Lawful) (hsize : 1 ≤ size) (hfits : size < 2 ^ 64)
    {fuel : Nat} (hfuel : call.numBytes ≤ fuel) :
    Appends (WBuffer.Sound (P := P) size) WBuffer.written
      (fun buffer => bufferWrite fuel buffer call.start call.numBytes) call.bytes := by
  intro buffer h
  have hbound : call.remaining ⟨buffer, 0⟩ ≤ fuel := by
    change (call.numBytes - 0).toNat ≤ fuel
    omega
  obtain ⟨s, hrun, hwriting, hend⟩ := WhileLoop.run_total (L := call.loop) call.remaining
    (fun s hs hcond => writeRound_spec hlaw hsize hfits hs (of_decide_eq_true hcond))
    (writing_start h call) hbound
  have hall : s.i = call.numBytes :=
    le_antisymm hwriting.le (Int.not_lt.mp (of_decide_eq_false hend))
  refine ⟨s.buffer, ?_, hwriting.sound, ?_⟩
  · change bufferWrite fuel buffer call.start call.numBytes = some s.buffer
    rw [bufferWrite, if_pos call.nonneg]
    exact congrArg (Option.map WriteState.buffer) hrun
  · rw [hwriting.written, hall]
    rfl

theorem writeAll_appends (hlaw : P.Lawful) (hsize : 1 ≤ size) (hfits : size < 2 ^ 64)
    {fuel : Nat} {calls : List WriteCall} (hfuel : ∀ call ∈ calls, call.numBytes ≤ fuel) :
    Appends (WBuffer.Sound (P := P) size) WBuffer.written
      (fun buffer => writeAll fuel buffer calls) (calls.flatMap WriteCall.bytes) :=
  appends_foldlM fun call hcall => bufferWrite_appends hlaw hsize hfits (hfuel call hcall)

theorem visits_sound (hlaw : P.Lawful) (hsize : 1 ≤ size) (hfits : size < 2 ^ 64)
    (h : buffer.Sound size) {s : WriteState P} (hvisits : call.loop.Visits ⟨buffer, 0⟩ s) :
    s.buffer.Sound size := by
  have hwriting : Writing size buffer.written call s := by
    apply WhileLoop.visits_invariant _ (writing_start h call) hvisits
    intro s s' hs hround
    obtain ⟨next, hnext, hwriting, -⟩ :=
      writeRound_spec hlaw hsize hfits hs (of_decide_eq_true hround.1)
    cases hnext.symm.trans hround.2
    exact hwriting
  exact hwriting.sound

theorem bufferFinalize_spec (hlaw : P.Lawful) (h : buffer.Sound size) :
    ∃ buffer', bufferFinalize buffer = some buffer' ∧ P.content buffer'.file = buffer.written := by
  obtain ⟨flushed, hflush, -, -, hcontent⟩ := bufferFlush_spec hlaw h
  refine ⟨{ flushed with buff := [] }, ?_, hcontent⟩
  rw [bufferFinalize, hflush]
  rfl

theorem writeFile_content (hlaw : P.Lawful) (file : P.File) {size : UInt64} (hsize : 1 ≤ size)
    {calls : List WriteCall} {fuel : Nat} (hfuel : ∀ call ∈ calls, call.numBytes ≤ fuel) :
    ∃ buffer', writeFile fuel file size calls = some buffer' ∧
      P.content buffer'.file = P.content file ++ calls.flatMap WriteCall.bytes := by
  obtain ⟨buffer, hall, hsound, hwritten⟩ := writeAll_appends hlaw
    (UInt64.le_iff_toNat_le.mp hsize) (UInt64.toNat_lt size) hfuel _
    (bufferInit_sound hlaw file size)
  obtain ⟨last, hfinalize, hcontent⟩ := bufferFinalize_spec hlaw hsound
  refine ⟨last, ?_, ?_⟩
  · change (writeAll fuel (bufferInit file size) calls).bind bufferFinalize = some last
    change writeAll fuel (bufferInit file size) calls = some buffer at hall
    rw [hall, Option.bind_some, hfinalize]
  · rw [hcontent, hwritten, written_bufferInit]

/-- Writing through a buffer of any size is writing to the file. Every call comes to its end, and
on the way the buffer is never filled past its block. -/
theorem bufferWrite_transparent (hlaw : P.Lawful) (file : P.File) {size : UInt64}
    (hsize : 1 ≤ size) (calls : List WriteCall) {fuel : Nat}
    (hfuel : ∀ call ∈ calls, call.numBytes ≤ fuel) :
    (∃ buffer', writeFile fuel file size calls = some buffer' ∧
      P.content buffer'.file = P.content file ++ calls.flatMap WriteCall.bytes) ∧
    ∀ s, Visited fuel (bufferInit file size) calls s →
      s.buffer.pos ≤ s.buffer.buffSize ∧ s.buffer.buffSize = s.buffer.buff.length := by
  refine ⟨writeFile_content hlaw file hsize hfuel, ?_⟩
  intro s ⟨before, call, after, next, hcalls, hbefore, hvisits⟩
  have hle : 1 ≤ size.toNat := UInt64.le_iff_toNat_le.mp hsize
  have hbeforeFuel : ∀ call ∈ before, call.numBytes ≤ fuel := by
    intro call' hcall'
    apply hfuel
    rw [hcalls]
    exact List.mem_append_left _ hcall'
  obtain ⟨next', hnext, hsound, -⟩ := writeAll_appends hlaw hle (UInt64.toNat_lt size)
    hbeforeFuel _ (bufferInit_sound hlaw file size)
  cases hnext.symm.trans hbefore
  have hs := visits_sound hlaw hle (UInt64.toNat_lt size) hsound hvisits
  rw [hs.buffSize_eq, hs.block]
  exact ⟨hs.pos_le, rfl⟩

end Log

/-- A platform whose files are their contents. -/
def memoryPlatform : Platform where
  File := List UInt8
  content := fun file => file
  fwrite := fun file bytes => (bytes.length, file ++ bytes)
  fflush := fun file => file
  alloc := fun size => List.replicate size 255

theorem memoryPlatform_lawful : memoryPlatform.Lawful where
  fwrite_count _ _ := rfl
  fwrite_content _ _ := rfl
  fflush_content _ := rfl
  alloc_length _ := List.length_replicate

/-- Calls with no bytes, with fewer than three bytes and with more. -/
def sampleCalls : List WriteCall :=
  [⟨[1, 2], 2, by decide, by decide, by decide⟩, ⟨[9], 0, by decide, by decide, by decide⟩,
    ⟨[3, 4, 5, 6, 7, 8], 5, by decide, by decide, by decide⟩]

theorem bufferWrite_transparent_sample :
    (∃ buffer' : WBuffer memoryPlatform, writeFile 5 [0] 3 sampleCalls = some buffer' ∧
      buffer'.file = ([0, 1, 2, 3, 4, 5, 6, 7] : List UInt8)) ∧
    ∀ s, Visited 5 (bufferInit ([0] : List UInt8) 3 : WBuffer memoryPlatform) sampleCalls s →
      s.buffer.pos ≤ s.buffer.buffSize ∧ s.buffer.buffSize = s.buffer.buff.length :=
  bufferWrite_transparent memoryPlatform_lawful ([0] : List UInt8) (by decide) sampleCalls
    (by decide)

/-! ## A buffer without room -/

section NoRoom

variable {P : Platform}

/-- In a buffer of no bytes a round copies nothing. -/
theorem writeRound_noRoom (hlaw : P.Lawful) {call : WriteCall} {s s' : WriteState P}
    (h : s.buffer.Sound 0 ∧ s.i = 0) (hround : call.loop.Round s s') :
    s'.buffer.Sound 0 ∧ s'.i = 0 := by
  obtain ⟨full, i⟩ := s
  obtain ⟨hsound, rfl⟩ := h
  obtain ⟨-, hbody⟩ := hround
  change writeRound call.start call.numBytes ⟨full, 0⟩ = some s' at hbody
  have hfull : full.buffSize = full.pos := by
    rw [hsound.buffSize_eq]
    exact (Nat.le_zero.mp hsound.pos_le).symm
  obtain ⟨buffer, hflush, hflushed, hpos, -⟩ := bufferFlush_spec hlaw hsound
  have hamount : writeAmount (sizeT ((0 : Nat) - (0 : Nat))) (wrap32 (call.numBytes - 0)) = 0 := by
    have hfits := call.fits
    have hnonneg := call.nonneg
    rw [Int.sub_zero, wrap32_of_range (by omega) hfits, writeAmount_eq hnonneg hfits]
    exact Int.min_eq_left hnonneg
  rw [writeRound, flushIfFull, if_pos hfull, hflush] at hbody
  obtain ⟨buff, hcopy, hlength, -⟩ :=
    memcpy_eq (i := 0) (n := 0) (Nat.zero_le buffer.buff.length) (Nat.zero_le call.start.length)
  change memcpy buffer.buff 0 call.start 0 (sizeT 0) = some buff at hcopy
  simp only [hflushed.buffSize_eq, hpos, hamount, hcopy] at hbody
  cases hbody
  exact ⟨⟨rfl, hlength.trans hflushed.block, Nat.le_refl 0⟩, rfl⟩

/-- A call that has something to write does not return from a buffer of no bytes. -/
theorem bufferWrite_noRoom (hlaw : P.Lawful) (file : P.File) (call : WriteCall)
    (hsome : 0 < call.numBytes) (fuel : Nat) :
    bufferWrite fuel (bufferInit file 0) call.start call.numBytes = none := by
  have hsound : (bufferInit file 0).Sound 0 := bufferInit_sound hlaw file 0
  have hrun : call.loop.run fuel ⟨bufferInit file 0, 0⟩ = none := by
    apply WhileLoop.run_eq_none _ (fun s s' => writeRound_noRoom hlaw) ⟨hsound, rfl⟩
    intro s ⟨_, hi⟩
    exact decide_eq_true (hi ▸ hsome)
  rw [bufferWrite, if_pos call.nonneg]
  exact congrArg (Option.map WriteState.buffer) hrun

end NoRoom

end JeffVm
