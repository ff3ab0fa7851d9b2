import JeffVm.TapeBinaryCodec

/-!
# Reading any file

`tape_read_binary` on a file that need not come from the writer. The reader does not look at
the counts that `fread` returns, so the bytes that a short file does not fill are those that
stood in the variables before; and it writes a string to its buffer whatever its length.
`alist_get` belongs to a library: `rejects len index` says that it ends the program with an
error when a list of `len` strings is asked for `index`.
-/

set_option autoImplicit false

namespace JeffVm

/-- How a run ends when it does not return: `ERROR`, a string byte behind the end of the buffer,
an index that is not smaller than the number of strings. -/
inductive Fault where
  | exit
  | overflow
  | badIndex
  deriving DecidableEq

/-- What is left of the file, and the bytes that stand in the variables that it does not fill. -/
structure Input where
  file : List UInt8
  garbage : Nat → UInt8

structure RawInstruction where
  op : Nat
  type : Nat

/-- An operand with the position of its string, or with the string. -/
inductive Operand (α : Type) where
  | none
  | val (p : Primitive)
  | text (s : α)

/-- The tape, whose instructions are `ins`. -/
structure Reading where
  tape : Tape
  ins : List (RawInstruction × Operand String)

/-! ## The fields of a file -/

abbrev Scanner (α : Type) := StateM Input α

namespace Scanner

theorem bind_run {α β : Type} (d : Scanner α) (f : α → Scanner β) (s : Input) :
    (d >>= f) s = f (d s).1 (d s).2 := rfl

theorem pure_run {α : Type} (a : α) (s : Input) : (pure a : Scanner α) s = (a, s) := rfl

/-- `fread` -/
def bytes (k : Nat) : Scanner (List UInt8) := fun s =>
  let missing := k - s.file.length
  (s.file.take k ++ (List.range missing).map s.garbage,
    ⟨s.file.drop k, fun i => s.garbage (i + missing)⟩)

def le (k : Nat) : Scanner Nat := do
  let bs ← bytes k
  return leValue bs

def string : Scanner (List UInt8) := fun s =>
  ((takeCString s.file).1, { s with file := (takeCString s.file).2 })

/-- What `n` runs return, one after the other. -/
def collect {α : Type} (d : Scanner (List α)) : Nat → Scanner (List α)
  | 0 => pure []
  | n + 1 => do
    let first ← d
    let rest ← collect d n
    return first ++ rest

end Scanner

def scanVal : Scanner Primitive := do
  let valType ← Scanner.le 1
  match valType with
  | 1 =>
    let n ← Scanner.le 4
    let _ ← Scanner.le 4
    return .int (wrap32 n)
  | 2 =>
    let n ← Scanner.le 4
    let _ ← Scanner.le 4
    return .float (Float32.ofBits (UInt32.ofNat n)).toFloat.toBits
  | _ =>
    let n ← Scanner.le 1
    return .char (wrap8 n)

def scanRef (numStrings : Nat) : Scanner Nat :=
  Scanner.le (if numStrings > uint8Max then 2 else 1)

def decodeChars (chars : List UInt8) : String :=
  String.ofList (chars.map (fun b => Char.ofNat b.toNat))

/-! ## The reader -/

abbrev Reader (α : Type) := StateT Input (Except Fault) α

namespace Reader

def scan {α : Type} (d : Scanner α) : Reader α := fun s => .ok (d s)

/-- `ERROR` where the tape cannot be changed so. -/
def ofOption {α : Type} : Option α → Reader α
  | some a => pure a
  | none => throw .exit

def iterate {σ : Type} (f : σ → Reader σ) : Nat → σ → Reader σ
  | 0, s => pure s
  | n + 1, s => do
    let s' ← f s
    iterate f n s'

section

variable (rejects : Nat → Nat → Bool) (strings : List String)

def alistGet (index : Nat) : Reader String :=
  if rejects strings.length index then throw .exit
  else
    match strings[index]? with
    | some str => pure str
    | none => throw .badIndex

def deserializeString : Reader String := do
  let chars ← scan Scanner.string
  if chars.length < maxStringSz then return decodeChars chars
  else throw .overflow

def addString (strings : List String) : Reader (List String) := do
  let str ← deserializeString
  return strings ++ [str]

def readStrings : Reader (List String) := do
  let numStrings ← scan (Scanner.le 2)
  iterate addString numStrings []

def onTape (r : Reading) (f : Tape → Option Tape) : Reader Reading := do
  let tape ← ofOption (f r.tape)
  return { r with tape := tape }

def readFunctionRef (r : Reading) : Reader Reading := do
  let nameIndex ← scan (Scanner.le 2)
  let index ← scan (Scanner.le 2)
  let name ← alistGet rejects strings nameIndex
  onTape r fun tape => tape.startFuncAtIndex name index false

def readFunctionRefs (r : Reading) : Reader Reading := do
  let numRefs ← scan (Scanner.le 2)
  iterate (readFunctionRef rejects strings) numRefs r

def readParent (r : Reading) : Reader Reading := do
  let nameIndex ← scan (Scanner.le 2)
  let name ← alistGet rejects strings nameIndex
  onTape r fun tape => tape.addSuper name

def readClassRef (r : Reading) : Reader Reading := do
  let nameIndex ← scan (Scanner.le 2)
  let start ← scan (Scanner.le 2)
  let stop ← scan (Scanner.le 2)
  let name ← alistGet rejects strings nameIndex
  let r ← onTape r fun tape => tape.startClassAtIndex name start
  let numParents ← scan (Scanner.le 2)
  let r ← iterate (readParent rejects strings) numParents r
  let r ← readFunctionRefs rejects strings r
  onTape r fun tape => tape.endClassAtIndex stop

def readClassRefs (r : Reading) : Reader Reading := do
  let numClasses ← scan (Scanner.le 2)
  iterate (readClassRef rejects strings) numClasses r

def deserializeIns : Reader (RawInstruction × Operand String) := do
  let op ← scan (Scanner.le 1)
  let param ← scan (Scanner.le 1)
  match param with
  | 1 | 2 =>
    let ref ← scan (scanRef strings.length)
    let str ← alistGet rejects strings ref
    return (⟨op, param⟩, .text str)
  | 3 =>
    let val ← scan scanVal
    return (⟨op, param⟩, .val val)
  | _ => return (⟨op, param⟩, .none)

def readIns (r : Reading) : Reader Reading := do
  let ins ← deserializeIns rejects strings
  return { r with ins := r.ins ++ [ins] }

def readAllIns (r : Reading) : Reader Reading := do
  let numIns ← scan (Scanner.le 2)
  iterate (readIns rejects strings) numIns r

/-- `tape_read_binary` from the module name on. -/
def readItems (r : Reading) : Reader Reading := do
  let name ← alistGet rejects strings 0
  let r ← onTape r fun tape => some (tape.module name)
  let r ← readFunctionRefs rejects strings r
  let r ← readClassRefs rejects strings r
  readAllIns rejects strings r

end

/-- `tape_read_binary` on a new tape. -/
def tapeReadBinary (rejects : Nat → Nat → Bool) : Reader Reading := do
  let strings ← readStrings
  readItems rejects strings ⟨Tape.create, []⟩

/-- The run has ended with a tape or with `ERROR`. -/
def Safe {α : Type} (result : Except Fault α) : Prop :=
  result ≠ .error .overflow ∧ result ≠ .error .badIndex

end Reader

/-! ## The layout of a file -/

/-- What the fields of a file ask of the tape, with the positions of the names. -/
inductive FileItem where
  | module
  | func (name index : Nat)
  | startClass (name start : Nat)
  | parent (name : Nat)
  | endClass (stop : Nat)
  | ins (raw : RawInstruction) (operand : Operand Nat)

namespace FileItem

/-- The position of the name that the item uses. -/
def index? : FileItem → Option Nat
  | module => some 0
  | func name _ => some name
  | startClass name _ => some name
  | parent name => some name
  | endClass _ => none
  | ins _ (.text ref) => some ref
  | ins _ _ => none

/-- What the item makes of the tape when the name is `name`. -/
def enter (r : Reading) (name : String) : FileItem → Option Reading
  | module => some { r with tape := r.tape.module name }
  | func _ index => (r.tape.startFuncAtIndex name index false).map fun t => { r with tape := t }
  | startClass _ start => (r.tape.startClassAtIndex name start).map fun t => { r with tape := t }
  | parent _ => (r.tape.addSuper name).map fun t => { r with tape := t }
  | endClass stop => (r.tape.endClassAtIndex stop).map fun t => { r with tape := t }
  | ins raw (.text _) => some { r with ins := r.ins ++ [(raw, .text name)] }
  | ins raw (.val p) => some { r with ins := r.ins ++ [(raw, .val p)] }
  | ins raw .none => some { r with ins := r.ins ++ [(raw, .none)] }

end FileItem

def scanString : Scanner (List (List UInt8)) := do
  let chars ← Scanner.string
  return [chars]

def scanStrings : Scanner (List (List UInt8)) := do
  let numStrings ← Scanner.le 2
  Scanner.collect scanString numStrings

def scanFunctionRef : Scanner (List FileItem) := do
  let name ← Scanner.le 2
  let index ← Scanner.le 2
  return [.func name index]

def scanFunctionRefs : Scanner (List FileItem) := do
  let n ← Scanner.le 2
  Scanner.collect scanFunctionRef n

def scanParent : Scanner (List FileItem) := do
  let name ← Scanner.le 2
  return [.parent name]

def scanClassRef : Scanner (List FileItem) := do
  let name ← Scanner.le 2
  let start ← Scanner.le 2
  let stop ← Scanner.le 2
  let n ← Scanner.le 2
  let parents ← Scanner.collect scanParent n
  let methods ← scanFunctionRefs
  return .startClass name start :: (parents ++ methods ++ [.endClass stop])

def scanClassRefs : Scanner (List FileItem) := do
  let n ← Scanner.le 2
  Scanner.collect scanClassRef n

def scanIns (numStrings : Nat) : Scanner (List FileItem) := do
  let op ← Scanner.le 1
  let param ← Scanner.le 1
  match param with
  | 1 | 2 =>
    let ref ← scanRef numStrings
    return [.ins ⟨op, param⟩ (.text ref)]
  | 3 =>
    let val ← scanVal
    return [.ins ⟨op, param⟩ (.val val)]
  | _ => return [.ins ⟨op, param⟩ .none]

def scanAllIns (numStrings : Nat) : Scanner (List FileItem) := do
  let n ← Scanner.le 2
  Scanner.collect (scanIns numStrings) n

def scanItems (numStrings : Nat) : Scanner (List FileItem) := do
  let functions ← scanFunctionRefs
  let classes ← scanClassRefs
  let ins ← scanAllIns numStrings
  return .module :: (functions ++ classes ++ ins)

/-- The strings and the fields behind them. -/
structure Layout where
  strings : List (List UInt8)
  items : List FileItem

def scanFile : Scanner Layout := do
  let strings ← scanStrings
  let items ← scanItems strings.length
  return ⟨strings, items⟩

namespace Layout

def names (l : Layout) : List String := l.strings.map decodeChars

end Layout

/-- Up to the first name that is declared twice, or that `alist_get` rejects, every item uses
the position of a string. -/
def InRange (rejects : Nat → Nat → Bool) (strings : List String) : List FileItem → Reading → Prop
  | [], _ => True
  | item :: rest, r =>
    match item.index? with
    | none => ∀ r', item.enter r "" = some r' → InRange rejects strings rest r'
    | some i => rejects strings.length i = true ∨
        ∃ name, strings[i]? = some name ∧
          ∀ r', item.enter r name = some r' → InRange rejects strings rest r'

/-- No string is too long for the buffer, and every position is that of a string. -/
structure Layout.Sound (rejects : Nat → Nat → Bool) (l : Layout) : Prop where
  strings : ∀ chars ∈ l.strings, chars.length < maxStringSz
  items : InRange rejects l.names l.items ⟨Tape.create, []⟩

/-! ## The reader enters the items -/

section Enter

variable (rejects : Nat → Nat → Bool) (strings : List String)

def orExit : Option Reading → Except Fault Reading
  | some r => .ok r
  | none => .error .exit

def enterItem (item : FileItem) (r : Reading) : Except Fault Reading :=
  match item.index? with
  | none => orExit (item.enter r "")
  | some i =>
    if rejects strings.length i then .error .exit
    else
      match strings[i]? with
      | some name => orExit (item.enter r name)
      | none => .error .badIndex

def enterAll : List FileItem → Reading → Except Fault Reading
  | [], r => .ok r
  | item :: rest, r =>
    match enterItem rejects strings item r with
    | .ok r' => enterAll rest r'
    | .error fault => .error fault

variable {rejects strings}

theorem enterAll_append (items items' : List FileItem) (r : Reading) :
    enterAll rejects strings (items ++ items') r =
      match enterAll rejects strings items r with
      | .ok r' => enterAll rejects strings items' r'
      | .error fault => .error fault := by
  induction items generalizing r with
  | nil => rfl
  | cons item items ih =>
    rw [List.cons_append, enterAll, enterAll]
    cases enterItem rejects strings item r with
    | ok r' => exact ih r'
    | error fault => rfl

theorem enterAll_singleton (item : FileItem) (r : Reading) :
    enterAll rejects strings [item] r = enterItem rejects strings item r := by
  rw [enterAll]
  cases enterItem rejects strings item r with
  | ok r' => rfl
  | error fault => rfl

/-- A run is safe as long as the items are in range. -/
theorem safe_enterAll_iff (items : List FileItem) (r : Reading) :
    Reader.Safe (enterAll rejects strings items r) ↔ InRange rejects strings items r := by
  induction items generalizing r with
  | nil => simp [enterAll, Reader.Safe, InRange]
  | cons item items ih =>
    have hrest : ∀ o : Option Reading,
        Reader.Safe (match orExit o with
          | .ok r' => enterAll rejects strings items r'
          | .error fault => .error fault) ↔
        ∀ r', o = some r' → InRange rejects strings items r' := by
      intro o
      cases o with
      | none => simp [orExit, Reader.Safe]
      | some r' => simpa [orExit] using ih r'
    rw [enterAll, enterItem, InRange]
    cases item.index? with
    | none => exact hrest _
    | some i =>
      simp only
      by_cases hrejects : rejects strings.length i = true
      · simp [hrejects, Reader.Safe]
      · cases strings[i]? with
        | none => simp [hrejects, Reader.Safe]
        | some name => simpa [hrejects] using hrest _

def withInput (s : Input) : Except Fault Reading → Except Fault (Reading × Input)
  | .ok r => .ok (r, s)
  | .error fault => .error fault

variable (rejects strings) in
/-- The reader enters what the fields ask for, and leaves what follows them. -/
def Enters (fields : Scanner (List FileItem)) (read : Reading → Reader Reading) : Prop :=
  ∀ r s, read r s = withInput (fields s).2 (enterAll rejects strings (fields s).1 r)

namespace Enters

theorem scan {α : Type} {d : Scanner α} {fields : α → Scanner (List FileItem)}
    {read : α → Reading → Reader Reading} (h : ∀ x, Enters rejects strings (fields x) (read x)) :
    Enters rejects strings (d >>= fields) (fun r => Reader.scan d >>= fun x => read x r) :=
  fun r s => h (d s).1 r (d s).2

theorem seq {fields fields' : Scanner (List FileItem)} {read read' : Reading → Reader Reading}
    (h : Enters rejects strings fields read) (h' : Enters rejects strings fields' read') :
    Enters rejects strings (do
      let items ← fields
      let items' ← fields'
      return items ++ items') (fun r => read r >>= read') := by
  intro r s
  change (read r s >>= fun p => read' p.1 p.2) = withInput (fields' (fields s).2).2
    (enterAll rejects strings ((fields s).1 ++ (fields' (fields s).2).1) r)
  rw [h r s, enterAll_append]
  cases enterAll rejects strings (fields s).1 r with
  | ok r' => exact h' r' (fields s).2
  | error fault => rfl

theorem collect {fields : Scanner (List FileItem)} {read : Reading → Reader Reading}
    (h : Enters rejects strings fields read) (n : Nat) :
    Enters rejects strings (Scanner.collect fields n) (Reader.iterate read n) := by
  induction n with
  | zero => exact fun r s => rfl
  | succ n ih => exact seq h ih

/-- An item whose name is looked up. -/
theorem named {item : FileItem} {i : Nat} {read : Reading → String → Reader Reading}
    (hindex : item.index? = some i)
    (hread : ∀ r name s, read r name s = withInput s (orExit (item.enter r name))) :
    Enters rejects strings (pure [item])
      (fun r => Reader.alistGet rejects strings i >>= read r) := by
  intro r s
  change (Reader.alistGet rejects strings i >>= read r) s =
    withInput s (enterAll rejects strings [item] r)
  rw [enterAll_singleton, enterItem, hindex]
  unfold Reader.alistGet
  by_cases hrejects : rejects strings.length i = true
  · simp only [hrejects, if_true]
    rfl
  · simp only [hrejects]
    cases strings[i]? with
    | none => rfl
    | some name => exact hread r name s

/-- An item without a name. -/
theorem plain {item : FileItem} {read : Reading → Reader Reading} (hindex : item.index? = none)
    (hread : ∀ r s, read r s = withInput s (orExit (item.enter r ""))) :
    Enters rejects strings (pure [item]) read := by
  intro r s
  change read r s = withInput s (enterAll rejects strings [item] r)
  rw [enterAll_singleton, enterItem, hindex, hread]

end Enters

theorem onTape_run (r : Reading) (f : Tape → Option Tape) (s : Input) :
    Reader.onTape r f s = withInput s (orExit ((f r.tape).map fun t => { r with tape := t })) := by
  unfold Reader.onTape
  cases f r.tape with
  | none => rfl
  | some t => rfl

theorem enters_functionRef :
    Enters rejects strings scanFunctionRef (Reader.readFunctionRef rejects strings) := by
  apply Enters.scan
  intro name
  apply Enters.scan
  intro index
  exact Enters.named rfl fun r _ s => onTape_run r _ s

theorem enters_functionRefs :
    Enters rejects strings scanFunctionRefs (Reader.readFunctionRefs rejects strings) :=
  Enters.scan fun n => Enters.collect enters_functionRef n

theorem enters_parent : Enters rejects strings scanParent (Reader.readParent rejects strings) :=
  Enters.scan fun _ => Enters.named rfl fun r _ s => onTape_run r _ s

theorem enters_classRef :
    Enters rejects strings scanClassRef (Reader.readClassRef rejects strings) := by
  apply Enters.scan
  intro name
  apply Enters.scan
  intro start
  apply Enters.scan
  intro stop
  have hstart : Enters rejects strings (pure [.startClass name start])
      (fun r => Reader.alistGet rejects strings name >>= fun name =>
        Reader.onTape r fun tape => tape.startClassAtIndex name start) :=
    Enters.named rfl fun r _ s => onTape_run r _ s
  have hparents : Enters rejects strings (Scanner.le 2 >>= Scanner.collect scanParent)
      (fun r => Reader.scan (Scanner.le 2) >>= fun n =>
        Reader.iterate (Reader.readParent rejects strings) n r) :=
    Enters.scan fun n => Enters.collect enters_parent n
  have hend : Enters rejects strings (pure [.endClass stop])
      (fun r => Reader.onTape r fun tape => tape.endClassAtIndex stop) :=
    Enters.plain rfl fun r s => onTape_run r _ s
  have hall := hstart.seq (hparents.seq (enters_functionRefs.seq hend))
  simpa only [bind_assoc, pure_bind, List.singleton_append, List.append_assoc] using hall

theorem enters_classRefs :
    Enters rejects strings scanClassRefs (Reader.readClassRefs rejects strings) :=
  Enters.scan fun n => Enters.collect enters_classRef n

/-- The operand of `INSTRUCTION_ID` and of `INSTRUCTION_STRING`. -/
theorem enters_text (raw : RawInstruction) :
    Enters rejects strings (do
      let ref ← scanRef strings.length
      return [.ins raw (.text ref)])
      (fun r => Reader.scan (scanRef strings.length) >>= fun ref =>
        Reader.alistGet rejects strings ref >>= fun str =>
          pure { r with ins := r.ins ++ [(raw, .text str)] }) :=
  Enters.scan fun _ => Enters.named rfl fun _ _ _ => rfl

/-- The operand of `INSTRUCTION_PRIMITIVE`. -/
theorem enters_val (raw : RawInstruction) :
    Enters rejects strings (do
      let val ← scanVal
      return [.ins raw (.val val)])
      (fun r => Reader.scan scanVal >>= fun val =>
        pure { r with ins := r.ins ++ [(raw, .val val)] }) :=
  Enters.scan fun _ => Enters.plain rfl fun _ _ => rfl

theorem enters_ins :
    Enters rejects strings (scanIns strings.length) (Reader.readIns rejects strings) := by
  intro r s
  simp only [Reader.readIns, Reader.deserializeIns, bind_assoc]
  revert r s
  apply Enters.scan
  intro op
  apply Enters.scan
  intro param
  split
  · simpa only [bind_assoc, pure_bind] using enters_text ⟨op, 1⟩
  · simpa only [bind_assoc, pure_bind] using enters_text ⟨op, 2⟩
  · simpa only [bind_assoc, pure_bind] using enters_val ⟨op, 3⟩
  · exact Enters.plain rfl fun _ _ => rfl

theorem enters_allIns :
    Enters rejects strings (scanAllIns strings.length) (Reader.readAllIns rejects strings) :=
  Enters.scan fun n => Enters.collect enters_ins n

/-- The fields behind the strings. -/
theorem enters_items :
    Enters rejects strings (scanItems strings.length) (Reader.readItems rejects strings) := by
  have hmodule : Enters rejects strings (pure [.module])
      (fun r => Reader.alistGet rejects strings 0 >>= fun name =>
        Reader.onTape r fun tape => some (tape.module name)) :=
    Enters.named rfl fun r _ s => onTape_run r _ s
  have hall := hmodule.seq (enters_functionRefs.seq (enters_classRefs.seq enters_allIns))
  unfold scanItems
  unfold Reader.readItems
  simpa only [bind_assoc, pure_bind, List.singleton_append, List.append_assoc] using hall

end Enter

/-! ## The strings -/

theorem collect_succ {α : Type} (d : Scanner (List α)) (n : Nat) (s : Input) :
    Scanner.collect d (n + 1) s =
      ((d s).1 ++ (Scanner.collect d n (d s).2).1, (Scanner.collect d n (d s).2).2) := rfl

theorem deserializeString_run (s : Input) :
    Reader.deserializeString s =
      if (Scanner.string s).1.length < maxStringSz then
        .ok (decodeChars (Scanner.string s).1, (Scanner.string s).2)
      else .error .overflow := by
  change (if (Scanner.string s).1.length < maxStringSz then pure (decodeChars _)
    else throw .overflow : Reader String) (Scanner.string s).2 = _
  split <;> rfl

theorem addString_run (acc : List String) (s : Input) :
    Reader.addString acc s =
      if (Scanner.string s).1.length < maxStringSz then
        .ok (acc ++ [decodeChars (Scanner.string s).1], (Scanner.string s).2)
      else .error .overflow := by
  change (Reader.deserializeString s >>= fun p => pure (acc ++ [p.1], p.2)) = _
  rw [deserializeString_run]
  split <;> rfl

/-- Induction on the number of strings; `acc` are those that have been read. -/
theorem iterate_strings (n : Nat) (acc : List String) (s : Input) :
    Reader.iterate Reader.addString n acc s =
    if ∀ chars ∈ (Scanner.collect scanString n s).1, chars.length < maxStringSz then
      .ok (acc ++ (Scanner.collect scanString n s).1.map decodeChars,
        (Scanner.collect scanString n s).2)
    else .error .overflow := by
  induction n generalizing acc s with
  | zero =>
    have hnil : Scanner.collect scanString 0 s = ([], s) := rfl
    rw [hnil, if_pos nofun, List.map_nil, List.append_nil]
    rfl
  | succ n ih =>
    have hfirst : scanString s = ([(Scanner.string s).1], (Scanner.string s).2) := rfl
    rw [collect_succ, hfirst]
    change (Reader.addString acc s >>= fun p => Reader.iterate Reader.addString n p.1 p.2) = _
    rw [addString_run]
    by_cases hshort : (Scanner.string s).1.length < maxStringSz
    · rw [if_pos hshort]
      change Reader.iterate Reader.addString n (acc ++ [decodeChars (Scanner.string s).1])
        (Scanner.string s).2 = _
      rw [ih]
      simp [hshort]
    · rw [if_neg hshort, if_neg fun h => hshort (h _ List.mem_cons_self)]
      rfl

theorem readStrings_run (s : Input) :
    Reader.readStrings s =
      if ∀ chars ∈ (scanStrings s).1, chars.length < maxStringSz then
        .ok ((scanStrings s).1.map decodeChars, (scanStrings s).2)
      else .error .overflow := by
  have hscan : scanStrings s = Scanner.collect scanString (Scanner.le 2 s).1 (Scanner.le 2 s).2 :=
    rfl
  have hread : Reader.readStrings s =
      Reader.iterate Reader.addString (Scanner.le 2 s).1 [] (Scanner.le 2 s).2 := rfl
  rw [hread, iterate_strings, hscan, List.nil_append]

theorem scanFile_run (s : Input) :
    scanFile s = (⟨(scanStrings s).1, (scanItems (scanStrings s).1.length (scanStrings s).2).1⟩,
      (scanItems (scanStrings s).1.length (scanStrings s).2).2) := by
  rw [scanFile, Scanner.bind_run, Scanner.bind_run, Scanner.pure_run]

/-- The reader first fills its buffer with each string, then enters the items. -/
theorem tapeReadBinary_run (rejects : Nat → Nat → Bool) (s : Input) :
    Reader.tapeReadBinary rejects s =
      if ∀ chars ∈ (scanFile s).1.strings, chars.length < maxStringSz then
        withInput (scanFile s).2 (enterAll rejects (scanFile s).1.names (scanFile s).1.items
          ⟨Tape.create, []⟩)
      else .error .overflow := by
  have hread : Reader.tapeReadBinary rejects s = (Reader.readStrings s >>= fun p =>
      Reader.readItems rejects p.1 ⟨Tape.create, []⟩ p.2) := rfl
  rw [hread, readStrings_run, scanFile_run]
  obtain ⟨strings, rest⟩ := scanStrings s
  have hitems := (enters_items : Enters rejects (strings.map decodeChars) _ _)
    ⟨Tape.create, []⟩ rest
  rw [List.length_map] at hitems
  by_cases hshort : ∀ chars ∈ strings, chars.length < maxStringSz
  · rw [if_pos hshort, if_pos hshort, Layout.names]
    simp only [bind, Except.bind]
    exact hitems
  · rw [if_neg hshort, if_neg hshort]
    rfl

theorem safe_withInput_iff (result : Except Fault Reading) (s : Input) :
    Reader.Safe (withInput s result) ↔ Reader.Safe result := by
  cases result with
  | ok r => simp [withInput, Reader.Safe]
  | error fault => simp [withInput, Reader.Safe]

/-! ## Any file -/

/-- Whatever stands in the variables that a short file does not fill, reading a file is safe
exactly when its layout is sound. -/
theorem tape_read_safe_iff (rejects : Nat → Nat → Bool) (file : List UInt8) :
    (∀ garbage, Reader.Safe (Reader.tapeReadBinary rejects ⟨file, garbage⟩)) ↔
      ∀ garbage, (scanFile ⟨file, garbage⟩).1.Sound rejects := by
  refine forall_congr' fun garbage => ?_
  rw [tapeReadBinary_run]
  generalize (scanFile ⟨file, garbage⟩).1 = l
  generalize (scanFile ⟨file, garbage⟩).2 = rest
  by_cases hshort : ∀ chars ∈ l.strings, chars.length < maxStringSz
  · rw [if_pos hshort, safe_withInput_iff, safe_enterAll_iff]
    exact ⟨fun h => ⟨hshort, h⟩, fun h => h.items⟩
  · rw [if_neg hshort]
    constructor
    · intro h
      exact absurd rfl h.1
    · intro h
      exact absurd h.strings hshort

/-- Where `alist_get` rejects every position behind the last string, only the lengths of the
strings matter. -/
theorem inRange_of_rejects {rejects : Nat → Nat → Bool}
    (hrejects : ∀ len i, len ≤ i → rejects len i = true) (strings : List String)
    (items : List FileItem) (r : Reading) : InRange rejects strings items r := by
  induction items generalizing r with
  | nil => trivial
  | cons item items ih =>
    rw [InRange]
    cases item.index? with
    | none => exact fun r' _ => ih r'
    | some i =>
      by_cases hi : i < strings.length
      · exact .inr ⟨strings[i], List.getElem?_eq_getElem hi, fun r' _ => ih r'⟩
      · exact .inl (hrejects _ _ (by omega))

theorem sound_iff_of_rejects {rejects : Nat → Nat → Bool}
    (hrejects : ∀ len i, len ≤ i → rejects len i = true) (l : Layout) :
    l.Sound rejects ↔ ∀ chars ∈ l.strings, chars.length < maxStringSz :=
  ⟨fun h => h.strings, fun h => ⟨h, inRange_of_rejects hrejects ..⟩⟩

/-- A file with one string of 1024 bytes. -/
def longName : List UInt8 := [1, 0] ++ (List.replicate maxStringSz 97 ++ [0])

theorem le_two (a b : UInt8) (rest : List UInt8) (garbage : Nat → UInt8) :
    Scanner.le 2 ⟨a :: b :: rest, garbage⟩ = (leValue [a, b], ⟨rest, garbage⟩) := by
  have hmissing : 2 - (a :: b :: rest).length = 0 := by
    simp only [List.length_cons]
    omega
  rw [Scanner.le, Scanner.bind_run, Scanner.pure_run, Scanner.bytes, hmissing]
  simp

theorem scan_longName (garbage : Nat → UInt8) :
    List.replicate maxStringSz 97 ∈ (scanFile ⟨longName, garbage⟩).1.strings := by
  have hcount : Scanner.le 2 ⟨longName, garbage⟩ =
      (1, ⟨List.replicate maxStringSz 97 ++ [0], garbage⟩) := le_two 1 0 _ garbage
  have hchars : takeCString (List.replicate maxStringSz 97 ++ [0]) =
      (List.replicate maxStringSz 97, []) :=
    takeCString_append (by simp) []
  rw [scanFile_run, scanStrings, Scanner.bind_run, hcount, collect_succ, scanString,
    Scanner.bind_run, Scanner.pure_run, Scanner.string, hchars]
  exact List.mem_cons_self

theorem not_tape_read_safe : ¬ ∀ (rejects : Nat → Nat → Bool) (file : List UInt8)
    (garbage : Nat → UInt8), Reader.Safe (Reader.tapeReadBinary rejects ⟨file, garbage⟩) := by
  intro h
  have hsafe := h (fun len i => decide (len ≤ i)) longName (fun _ => 0)
  rw [tapeReadBinary_run, if_neg] at hsafe
  · exact hsafe.1 rfl
  · intro hshort
    have hlong := hshort _ (scan_longName _)
    rw [List.length_replicate] at hlong
    exact Nat.lt_irrefl _ hlong

end JeffVm
