import JeffVm.Assembly
import JeffVm.PrintedLines

/-!
# The text format

What `tape_write` prints, line by line, and how `tape_read` reads the tokens of such a text. The
printer walks over the instructions with one iterator for the classes, one for the functions of
the module and one for those of the open class.
-/

set_option autoImplicit false

namespace JeffVm

/-! ## Writing -/

/-- What is printed with a newline behind it. -/
inductive TextLine where
  | module (name : String)
  | endclass (name : String)
  | class (name : String)
  | field (name : String)
  | label (name : String)
  | instruction (ins : Instruction) (source : SourceMapping)

/-- `INSTRUCTION_COMMENT_LPAD` -/
def instructionCommentLpad : Nat := 16

/-- The comment with the place in the source, behind `charsWritten` characters. -/
def sourceComment (charsWritten : Nat) (source : SourceMapping) : List Char :=
  if source.col ≥ 0 ∧ source.line ≥ 0 then
    List.replicate (instructionCommentLpad - charsWritten) ' ' ++ "; line=".toList ++
      (toString source.line).toList ++ ", col=".toList ++ (toString source.col).toList
  else []

/-- A line without its newline. -/
def TextLine.print (floatFmt : UInt64 → List Char) : TextLine → Option (List Char)
  | .module name => some ("module ".toList ++ name.toList)
  | .endclass name => some ("endclass  ; ".toList ++ name.toList)
  | .class name => some ("class ".toList ++ name.toList)
  | .field name => some (" field ".toList ++ name.toList)
  | .label name => some ('@' :: name.toList)
  | .instruction ins source =>
    (instructionWrite floatFmt ins).map fun text => text ++ sourceComment text.length source

/-- `cls_iter`, `func_iter`, and `cls_func_iter` while `in_class` is set. -/
structure TextWriter where
  classes : List ClassRef
  funcs : List FunctionRef
  inClass : Option (List FunctionRef)

namespace TextWriter

def writeEnd (i : Nat) (s : TextWriter) : List TextLine × TextWriter :=
  match s.classes with
  | c :: classes =>
    if s.inClass.isSome ∧ c.endIndex = i then
      ([.endclass c.name], { s with classes := classes, inClass := none })
    else ([], s)
  | [] => ([], s)

def writeStart (i : Nat) (s : TextWriter) : List TextLine × TextWriter :=
  match s.classes with
  | c :: _ =>
    if s.inClass.isNone ∧ c.startIndex = i then
      (.class c.name :: c.fieldRefs.entries.map (fun f => .field f.name),
        { s with inClass := some c.funcRefs.entries })
    else ([], s)
  | [] => ([], s)

/-- The functions of the module get their turn when those of the open class are all printed. -/
def writeLabel (i : Nat) (s : TextWriter) : List TextLine × TextWriter :=
  match s.inClass, s.funcs with
  | some (f :: fs), _ =>
    if f.index = i then ([.label f.name], { s with inClass := some fs }) else ([], s)
  | _, f :: fs => if f.index = i then ([.label f.name], { s with funcs := fs }) else ([], s)
  | _, [] => ([], s)

/-- What is printed in front of the instruction at `i`. -/
def writeLabels (i : Nat) (s : TextWriter) : List TextLine × TextWriter :=
  let (ended, s) := s.writeEnd i
  let (started, s) := s.writeStart i
  let (labelled, s) := s.writeLabel i
  (ended ++ started ++ labelled, s)

/-- The loop of `tape_write` from `i` on; it goes round once more behind the last instruction. -/
def writeFrom : Nat → List (Instruction × SourceMapping) → TextWriter → List TextLine
  | i, [], s => (s.writeLabels i).1
  | i, (ins, source) :: rest, s =>
    let (labels, s) := s.writeLabels i
    labels ++ .instruction ins source :: writeFrom (i + 1) rest s

end TextWriter

namespace Tape

/-- The lines that `tape_write` prints. -/
def textLines (tape : Tape) : List TextLine :=
  let header := match tape.moduleName with
    | some name => if name ≠ "$" then [.module name] else []
    | none => []
  header ++ TextWriter.writeFrom 0 (tape.ins.zip tape.sourceMap)
    ⟨tape.classRefs.entries, tape.funcRefs.entries, none⟩

/-- `tape_write`; `none` is the call of `ERROR` on an operand. -/
def write (floatFmt : UInt64 → List Char) (tape : Tape) : Option (List (List Char)) :=
  tape.textLines.mapM fun line => (line.print floatFmt).map (· ++ ['\n'])

/-! ## Reading -/

/-- The loop of `tape_read`, with at most `n` rounds. -/
def readFrom : Nat → Tape → List Token → Option Tape
  | _, tape, [] => some tape
  | 0, _, _ :: _ => none
  | n + 1, tape, tokens =>
    (tapeReadIns tape tokens).bind fun read => readFrom n read.1 read.2

/-- `tape_read`; `none` is an error, or a read behind the end of the queue. -/
def read (tape : Tape) (tokens : List Token) : Option Tape :=
  match tokens with
  | [] => none
  | first :: rest =>
    if first.text = "module" then
      match rest with
      | [] => none
      | name :: rest => readFrom rest.length { tape with moduleName := some name.text } rest
    else readFrom tokens.length { tape with moduleName := some "$" } tokens

end Tape

end JeffVm
