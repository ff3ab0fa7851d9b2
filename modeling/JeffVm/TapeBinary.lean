import JeffVm.Lib.Codec
import JeffVm.Tape

/-!
# The binary tape format

The writer and the reader of compiled tapes. The characters of a string are its bytes. The
writer copies eight bytes from a four-byte variable for `INT` and `FLOAT` operands; the
four that follow the variable in memory are `garbage`, a parameter of each instruction.
-/

set_option autoImplicit false

namespace JeffVm

def maxStringSz : Nat := 1024

def uint8Max : Nat := 255

structure StringTable where
  strings : List String
  index : AList (fun _ : String => Nat)

namespace StringTable

def empty : StringTable := ⟨[], ∅⟩

/-- `map_lookup`, which returns `NULL`, the number 0, for an absent key. -/
def mapLookup (st : StringTable) (str : String) : Nat := (st.index.lookup str).getD 0

/-- A string whose recorded position is 0 counts as absent. -/
def insertString (st : StringTable) (str : String) : StringTable :=
  if st.mapLookup str ≠ 0 then st
  else ⟨st.strings ++ [str], st.index.insert str st.strings.length⟩

def mapSize (st : StringTable) : Nat := st.index.keys.length

end StringTable

def internClassStrings (st : StringTable) (cref : ClassRef) : StringTable :=
  let st := st.insertString cref.name
  let st := cref.supers.foldl StringTable.insertString st
  let st := cref.funcRefs.entries.foldl (fun st f => st.insertString f.name) st
  cref.fieldRefs.entries.foldl (fun st f => st.insertString f.name) st

def internInsString (st : StringTable) (ins : Instruction) : StringTable :=
  match ins.arg with
  | .id s => st.insertString s
  | .str s => st.insertString s
  | _ => st

/-- `none` when the tape has no module name. -/
def internAllStrings (tape : Tape) : Option StringTable := do
  let name ← tape.moduleName
  let st := StringTable.empty.insertString name
  let st := tape.classRefs.entries.foldl internClassStrings st
  let st := tape.funcRefs.entries.foldl (fun st f => st.insertString f.name) st
  return tape.ins.foldl internInsString st

def serializeStr (str : String) : List UInt8 :=
  str.toList.map (fun c => UInt8.ofNat c.toNat) ++ [0]

def serializeAllStrings (st : StringTable) : List UInt8 :=
  leBytes 2 st.strings.length ++ st.strings.flatMap serializeStr

def serializeFunctionRef (st : StringTable) (fref : FunctionRef) : List UInt8 :=
  leBytes 2 (st.mapLookup fref.name) ++ leBytes 2 fref.index

def serializeClassRef (st : StringTable) (cref : ClassRef) : List UInt8 :=
  leBytes 2 (st.mapLookup cref.name) ++ leBytes 2 cref.startIndex ++ leBytes 2 cref.endIndex ++
    leBytes 2 cref.supers.length ++ cref.supers.flatMap (fun s => leBytes 2 (st.mapLookup s)) ++
    leBytes 2 cref.funcRefs.entries.length ++
    cref.funcRefs.entries.flatMap (serializeFunctionRef st)

/-- The two's complement representation of `n` in `k` bytes. -/
def intBytes (k : Nat) (n : Int) : List UInt8 := leBytes k (n % 256 ^ k).toNat

def serializePrimitive (garbage : Nat) : Primitive → List UInt8
  | .int n => [1] ++ (intBytes 4 n ++ leBytes 4 garbage)
  | .float bits => [2] ++ (leBytes 4 (Float.ofBits bits).toFloat32.toBits.toNat ++ leBytes 4 garbage)
  | .char n => [0] ++ intBytes 1 n

def serializeRef (st : StringTable) (str : String) : List UInt8 :=
  if st.mapSize > uint8Max then leBytes 2 (st.mapLookup str) else leBytes 1 (st.mapLookup str)

def serializeIns (st : StringTable) (garbage : Nat) (ins : Instruction) : List UInt8 :=
  match ins.arg with
  | .noArg => leBytes 1 ins.op.code ++ leBytes 1 0
  | .id s => leBytes 1 ins.op.code ++ leBytes 1 1 ++ serializeRef st s
  | .str s => leBytes 1 ins.op.code ++ leBytes 1 2 ++ serializeRef st s
  | .val p => leBytes 1 ins.op.code ++ leBytes 1 3 ++ serializePrimitive garbage p

def writeBinary (garbage : Nat → Nat) (tape : Tape) : Option (List UInt8) := do
  let st ← internAllStrings tape
  return serializeAllStrings st ++
    (leBytes 2 tape.funcRefs.entries.length ++
      tape.funcRefs.entries.flatMap (serializeFunctionRef st)) ++
    (leBytes 2 tape.classRefs.entries.length ++
      tape.classRefs.entries.flatMap (serializeClassRef st)) ++
    (leBytes 2 tape.ins.length ++
      (tape.ins.take (tape.ins.length % 2 ^ 16)).zipIdx.flatMap
        (fun p => serializeIns st (garbage p.2) p.1))

/-- The bytes up to the terminator; the end of the file also terminates the string. -/
def takeCString : List UInt8 → List UInt8 × List UInt8
  | [] => ([], [])
  | b :: bs => if b = 0 then ([], bs) else (b :: (takeCString bs).1, (takeCString bs).2)

/-- `none` is a string that overflows the buffer. -/
def deserializeString : Decoder String := fun bs =>
  let (chars, rest) := takeCString bs
  if chars.length < maxStringSz then
    some (String.ofList (chars.map (fun b => Char.ofNat b.toNat)), rest)
  else none

def deserializeVal : Decoder Primitive := do
  let valType ← Decoder.le 1
  match valType with
  | 1 =>
    let n ← Decoder.le 4
    let _ ← Decoder.le 4
    return .int (wrap32 n)
  | 2 =>
    let n ← Decoder.le 4
    let _ ← Decoder.le 4
    return .float (Float32.ofBits (UInt32.ofNat n)).toFloat.toBits
  | _ =>
    let n ← Decoder.le 1
    return .char (wrap8 n)

def deserializeRef (strings : List String) : Decoder String := do
  let ref ← Decoder.le (if strings.length > uint8Max then 2 else 1)
  Decoder.ofOption strings[ref]?

/-- Codes outside the two enumerations, which the C code stores unchecked, are `none`. -/
def deserializeIns (strings : List String) : Decoder Instruction := do
  let op ← Decoder.le 1
  let param ← Decoder.le 1
  let op ← Decoder.ofOption (Op.ofCode op)
  match param with
  | 0 => return ⟨op, .noArg⟩
  | 1 =>
    let str ← deserializeRef strings
    return ⟨op, .id str⟩
  | 2 =>
    let str ← deserializeRef strings
    return ⟨op, .str str⟩
  | 3 =>
    let val ← deserializeVal
    return ⟨op, .val val⟩
  | _ => Decoder.fail

def readName (strings : List String) : Decoder String := do
  let index ← Decoder.le 2
  Decoder.ofOption strings[index]?

def readStrings : Decoder (List String) := do
  let n ← Decoder.le 2
  Decoder.iterate n (fun strings => do
    let str ← deserializeString
    return strings ++ [str]) []

def readFunctionRef (strings : List String) (tape : Tape) : Decoder Tape := do
  let name ← readName strings
  let index ← Decoder.le 2
  Decoder.ofOption (tape.startFuncAtIndex name index false)

def readFunctionRefs (strings : List String) (tape : Tape) : Decoder Tape := do
  let n ← Decoder.le 2
  Decoder.iterate n (readFunctionRef strings) tape

def readParent (strings : List String) (tape : Tape) : Decoder Tape := do
  let name ← readName strings
  Decoder.ofOption (tape.addSuper name)

def readClassRef (strings : List String) (tape : Tape) : Decoder Tape := do
  let name ← readName strings
  let start ← Decoder.le 2
  let stop ← Decoder.le 2
  let tape ← Decoder.ofOption (tape.startClassAtIndex name start)
  let numParents ← Decoder.le 2
  let tape ← Decoder.iterate numParents (readParent strings) tape
  let tape ← readFunctionRefs strings tape
  Decoder.ofOption (tape.endClassAtIndex stop)

def readClassRefs (strings : List String) (tape : Tape) : Decoder Tape := do
  let n ← Decoder.le 2
  Decoder.iterate n (readClassRef strings) tape

def readIns (strings : List String) (tape : Tape) : Decoder Tape := do
  let ins ← deserializeIns strings
  return tape.insRaw ins

def readAllIns (strings : List String) (tape : Tape) : Decoder Tape := do
  let n ← Decoder.le 2
  Decoder.iterate n (readIns strings) tape

def readBinary (tape : Tape) : Decoder Tape := do
  let strings ← readStrings
  let name ← Decoder.ofOption strings[0]?
  let tape ← readFunctionRefs strings (tape.module name)
  let tape ← readClassRefs strings tape
  readAllIns strings tape

end JeffVm
