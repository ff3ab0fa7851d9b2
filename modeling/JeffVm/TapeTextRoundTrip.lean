import JeffVm.Relocation
import JeffVm.TapeTextLexing

/-!
# The text format round trip

A tape whose labels lie in order is read back from what `tape_write` prints of it, up to the
places in the source. In front of each instruction the tape that is read holds what the iterators
of the writer have passed.
-/

set_option autoImplicit false

namespace JeffVm

/-! ## Reading a line -/

/-- What a line does to the tape that is read. -/
def TextLine.readInto (source : SourceMapping) (r : Tape) : TextLine → Option Tape
  | .module _ => none
  | .endclass _ => r.endClass
  | .class name => r.startClass name
  | .field name => r.field name
  | .label name => r.startFunc name false
  | .instruction ins _ => some (r.add ins source)

/-- Lines that are printable and can be read one after the other, wherever their tokens stand;
`post` holds of the last tape. -/
def Rereads (floatFmt : UInt64 → List Char) (post : Tape → Prop) : List TextLine → Tape → Prop
  | [], r => post r
  | line :: lines, r => line.Printable floatFmt ∧ ∀ source, ∃ r',
      line.readInto source r = some r' ∧ Rereads floatFmt post lines r'

section

variable {floatFmt : UInt64 → List Char} {post post' : Tape → Prop} {r : Tape}
  {lines lines' : List TextLine}

theorem Rereads.mono (h : Rereads floatFmt post lines r) (hpost : ∀ r, post r → post' r) :
    Rereads floatFmt post' lines r := by
  induction lines generalizing r with
  | nil => exact hpost r h
  | cons line lines ih =>
    refine ⟨h.1, fun source => ?_⟩
    obtain ⟨r', hread, hrest⟩ := h.2 source
    exact ⟨r', hread, ih hrest⟩

theorem Rereads.append (h : Rereads floatFmt (Rereads floatFmt post lines') lines r) :
    Rereads floatFmt post (lines ++ lines') r := by
  induction lines generalizing r with
  | nil => exact h
  | cons line lines ih =>
    refine ⟨h.1, fun source => ?_⟩
    obtain ⟨r', hread, hrest⟩ := h.2 source
    exact ⟨r', hread, ih hrest⟩

theorem Rereads.printable (h : Rereads floatFmt post lines r) :
    ∀ line ∈ lines, line.Printable floatFmt := by
  induction lines generalizing r with
  | nil => exact nofun
  | cons line lines ih =>
    obtain ⟨r', -, hrest⟩ := h.2 ⟨0, 0⟩
    exact List.forall_mem_cons.mpr ⟨h.1, ih hrest⟩

/-- The first word of a line is not the one of the header. -/
theorem TextLine.head {line : TextLine} (h : ∀ name, line ≠ .module name)
    (floatFmt : UInt64 → List Char) :
    ∃ k kinds, line.kinds floatFmt = k :: kinds ∧ k.2 ≠ "module" := by
  cases line with
  | module name => exact absurd rfl (h name)
  | endclass name => exact ⟨_, _, rfl, by decide⟩
  | «class» name => exact ⟨_, _, rfl, by decide⟩
  | field name => exact ⟨_, _, rfl, by decide⟩
  | label name => exact ⟨_, _, rfl, by decide⟩
  | instruction ins source =>
    refine ⟨_, _, rfl, ?_⟩
    cases ins.op <;> decide

/-- A line that can be read is not the header. -/
theorem TextLine.ne_module {line : TextLine} {source : SourceMapping} {r' : Tape}
    (h : line.readInto source r = some r') (name : String) : line ≠ .module name := by
  rintro rfl
  cases h

/-- The fields of a class that was just opened. -/
theorem Rereads.fields {fields : List FieldRef} {r' : Tape}
    (hnames : ∀ f ∈ fields, isName f.name = true)
    (h : fields.foldlM (fun tape f => tape.field f.name) r = some r') (hpost : post r') :
    Rereads floatFmt post (fields.map fun f => .field f.name) r := by
  induction fields generalizing r with
  | nil =>
    cases h
    exact hpost
  | cons f fields ih =>
    obtain ⟨hname, hnames⟩ := List.forall_mem_cons.mp hnames
    obtain ⟨r₁, hfield, hrest⟩ := Option.bind_eq_some_iff.mp h
    exact ⟨hname, fun _ => ⟨r₁, hfield, ih hnames hrest⟩⟩

end

/-! ## Reading the tokens of a line -/

section

variable {floatFmt : UInt64 → List Char}

theorem nameKind_ne (name : String) {type : TokenType} (h : type.isWord = false) :
    (nameKind name).1 ≠ type := by
  intro heq
  rw [← heq] at h
  exact absurd (wordType_isWord name.toList) (Bool.eq_false_iff.mp h)

theorem argOfToken_name {tok : Token} {name : String} (h : tok.kind = nameKind name) :
    Tape.argOfToken tok = .id name := by
  have htext : tok.text = name := congrArg Prod.snd h
  have htype : tok.type = wordType name.toList := congrArg Prod.fst h
  have hinteger : tok.type ≠ .INTEGER := htype ▸ wordType_ne _ (by decide) (by decide)
  have hfloating : tok.type ≠ .FLOATING := htype ▸ wordType_ne _ (by decide) (by decide)
  have hstr : tok.type ≠ .STR := htype ▸ nameKind_ne name rfl
  have hnone : tokenToPrimitive tok = none := by
    unfold tokenToPrimitive
    split
    · exact absurd ‹_› hinteger
    · exact absurd ‹_› hfloating
    · rfl
  rw [Tape.argOfToken, hnone, htext]
  exact if_neg hstr

theorem tokenToPrimitive_integer {tok : Token} {text : String} (h : tok.kind = (.INTEGER, text)) :
    tokenToPrimitive tok = some (.int (wrap32 (strtoll text))) := by
  have htype : tok.type = .INTEGER := congrArg Prod.fst h
  have htext : tok.text = text := congrArg Prod.snd h
  rw [tokenToPrimitive, htype, htext]

/-- The sign and the number behind it give the integer, the least one too. -/
theorem wrap32_neg {n : Nat} (h : -2 ^ 31 ≤ Int.negSucc n) :
    wrap32 (-wrap32 (n + 1 : Nat)) = Int.negSucc n := by
  rcases Nat.lt_or_eq_of_le (show n + 1 ≤ 2 ^ 31 by omega) with hlt | heq
  · have hinner : wrap32 (n + 1 : Nat) = (n + 1 : Nat) := wrap32_of_range (by omega) (by omega)
    rw [hinner, wrap32_of_range (by omega) (by omega)]
    rfl
  · have hn : n = 2 ^ 31 - 1 := by omega
    rw [hn]
    decide

/-- A token that is an operand by itself. -/
theorem readOp_token {next : Token} {k : TokenKind} (h : next.kind = k) (hendline : k.1 ≠ .ENDLINE)
    (hpound : k.1 ≠ .POUND) (hminus : k.1 ≠ .MINUS) (op : Op) (first : Token) (r : Tape)
    (tokens : List Token) : readOp r op first (next :: tokens) = some (r.insToken op next, tokens) := by
  obtain ⟨type, line, col, text⟩ := next
  cases h
  have hne : ¬ (type = .ENDLINE ∨ type = .POUND) := not_or.mpr ⟨hendline, hpound⟩
  exact (if_neg hne).trans (if_neg hminus)

/-- The operand that is read from the tokens of a printed one. -/
theorem readOp_kinds {arg : Arg} (h : arg.Printable floatFmt) (op : Op) (first : Token)
    {tokens rest : List Token} {last : Token} (hkinds : tokens.map Token.kind = arg.kinds floatFmt)
    (hlast : last.type = .ENDLINE) (r : Tape) : ∃ source,
      readOp r op first (tokens ++ last :: rest) = some (r.add ⟨op, arg⟩ source, last :: rest) := by
  cases arg with
  | noArg =>
    cases List.map_eq_nil_iff.mp hkinds
    exact ⟨⟨first.line, first.col⟩, if_pos (.inl hlast)⟩
  | id name =>
    obtain ⟨next, rfl, hnext⟩ := List.map_eq_singleton_iff.mp hkinds
    refine ⟨⟨next.line, next.col⟩, ?_⟩
    rw [List.singleton_append, readOp_token hnext (nameKind_ne name rfl) (nameKind_ne name rfl)
      (nameKind_ne name rfl), Tape.insToken, argOfToken_name hnext]
  | str text =>
    obtain ⟨next, rfl, hnext⟩ := List.map_eq_singleton_iff.mp hkinds
    refine ⟨⟨next.line, next.col⟩, ?_⟩
    rw [List.singleton_append, readOp_token hnext nofun nofun nofun, Tape.insToken]
    obtain ⟨type, line, col, _⟩ := next
    cases hnext
    rfl
  | val val =>
    cases val with
    | int n =>
      obtain ⟨hlow, hhigh⟩ := h
      cases n with
      | ofNat n =>
        obtain ⟨next, rfl, hnext⟩ := List.map_eq_singleton_iff.mp hkinds
        refine ⟨⟨next.line, next.col⟩, ?_⟩
        rw [List.singleton_append, readOp_token hnext nofun nofun nofun, Tape.insToken]
        have hofNat : Int.ofNat n = (n : Int) := rfl
        rw [Tape.argOfToken, tokenToPrimitive_integer hnext, strtoll_toString (by omega),
          wrap32_of_range (by omega) (by omega)]
        rfl
      | negSucc n =>
        obtain ⟨minus, tail, rfl, hminus, htail⟩ := List.map_eq_cons_iff.mp hkinds
        obtain ⟨number, rfl, hnumber⟩ := List.map_eq_singleton_iff.mp htail
        refine ⟨⟨number.line, number.col⟩, ?_⟩
        have hminus' : minus.type = .MINUS := congrArg Prod.fst hminus
        have hinsNeg : r.insNeg op number =
            some (r.add ⟨op, .val (.int (.negSucc n))⟩ ⟨number.line, number.col⟩) := by
          rw [Tape.insNeg, tokenToPrimitive_integer hnumber, strtoll_toString (by omega)]
          dsimp only
          rw [wrap32_neg hlow]
        have hne : ¬ (minus.type = .ENDLINE ∨ minus.type = .POUND) := by
          rw [hminus']
          exact not_or.mpr ⟨nofun, nofun⟩
        have hread : readOp r op first (minus :: number :: last :: rest) =
            (r.insNeg op number).map fun r => (r, last :: rest) :=
          (if_neg hne).trans (if_pos hminus')
        rw [List.cons_append, List.singleton_append, hread, hinsNeg]
        rfl
    | float bits =>
      obtain ⟨next, rfl, hnext⟩ := List.map_eq_singleton_iff.mp hkinds
      obtain ⟨-, -, -, -, -, -, hbits⟩ := h
      have htype : next.type = .FLOATING := congrArg Prod.fst hnext
      have htext : next.text = String.ofList (floatFmt bits) := congrArg Prod.snd hnext
      have hvalue : tokenToPrimitive next = some (.float bits) := by
        rw [tokenToPrimitive, htype, htext, hbits]
      refine ⟨⟨next.line, next.col⟩, ?_⟩
      rw [List.singleton_append, readOp_token hnext nofun nofun nofun, Tape.insToken, Tape.argOfToken,
        hvalue]
    | char c => exact h.elim

theorem tapeReadIns_ends {ends : List Token} (hends : ∀ tok ∈ ends, tok.type = .ENDLINE) (r : Tape)
    (tokens : List Token) : tapeReadIns r (ends ++ tokens) = tapeReadIns r tokens := by
  have hdrop : (ends ++ tokens).dropWhile (fun token => token.type = .ENDLINE) =
      tokens.dropWhile (fun token => token.type = .ENDLINE) :=
    List.dropWhile_append_of_pos (by simpa using hends)
  rw [tapeReadIns, hdrop, ← tapeReadIns]

theorem dropWhile_word {first : Token} (h : first.type ≠ .ENDLINE) (tokens : List Token) :
    (first :: tokens).dropWhile (fun token => token.type = .ENDLINE) = first :: tokens :=
  List.dropWhile_cons_of_neg (by simpa using h)

/-- A line that starts with a word. -/
theorem tapeReadIns_word {first : Token} {keyword : String} (h : first.kind = nameKind keyword)
    (r : Tape) (tokens : List Token) : tapeReadIns r (first :: tokens) =
      if keyword = classKeyword then readClass r tokens
      else if keyword = classendKeyword then r.endClass.map fun r => (r, tokens)
      else if keyword = fieldKeyword then
        match tokens with
        | [] => none
        | field :: tokens => (r.field field.text).map fun r => (r, tokens)
      else (Op.strToOp keyword).bind fun op => readOp r op first tokens := by
  have htext : first.text = keyword := congrArg Prod.snd h
  have htype : first.type = (nameKind keyword).1 := congrArg Prod.fst h
  have hendline : first.type ≠ .ENDLINE := htype ▸ nameKind_ne keyword rfl
  have hat : first.type ≠ .AT := htype ▸ nameKind_ne keyword rfl
  rw [tapeReadIns, dropWhile_word hendline]
  cases tokens with
  | nil => simp only [if_neg hat, htext]
  | cons token tokens => simp only [if_neg hat, htext]

/-- A line is read from its tokens, up to the token of its end. -/
theorem tapeReadIns_kinds {line : TextLine} (h : line.Printable floatFmt)
    (hbody : ∀ name, line ≠ .module name) {tokens rest : List Token} {last : Token}
    (hkinds : tokens.map Token.kind = line.kinds floatFmt) (hlast : last.type = .ENDLINE)
    (r : Tape) : ∃ source, tapeReadIns r (tokens ++ last :: rest) =
      (line.readInto source r).map fun r' => (r', last :: rest) := by
  have hcolon : last.type ≠ .COLON := by
    rw [hlast]
    decide
  cases line with
  | module name => exact absurd rfl (hbody name)
  | endclass name =>
    obtain ⟨first, rfl, hfirst⟩ := List.map_eq_singleton_iff.mp hkinds
    refine ⟨⟨0, 0⟩, ?_⟩
    rw [List.singleton_append, tapeReadIns_word hfirst, if_neg (by decide), if_pos rfl]
    rfl
  | «class» name =>
    obtain ⟨first, tail, rfl, hfirst, htail⟩ := List.map_eq_cons_iff.mp hkinds
    obtain ⟨className, rfl, hname⟩ := List.map_eq_singleton_iff.mp htail
    have htext : className.text = name := congrArg Prod.snd hname
    refine ⟨⟨0, 0⟩, ?_⟩
    rw [List.cons_append, tapeReadIns_word hfirst, if_pos rfl, List.singleton_append, readClass,
      if_pos hlast, htext]
    rfl
  | field name =>
    obtain ⟨first, tail, rfl, hfirst, htail⟩ := List.map_eq_cons_iff.mp hkinds
    obtain ⟨field, rfl, hname⟩ := List.map_eq_singleton_iff.mp htail
    have htext : field.text = name := congrArg Prod.snd hname
    refine ⟨⟨0, 0⟩, ?_⟩
    rw [List.cons_append, tapeReadIns_word hfirst, if_neg (by decide), if_neg (by decide), if_pos rfl,
      List.singleton_append]
    dsimp only
    rw [htext]
    rfl
  | label name =>
    obtain ⟨first, tail, rfl, hfirst, htail⟩ := List.map_eq_cons_iff.mp hkinds
    obtain ⟨fnName, rfl, hname⟩ := List.map_eq_singleton_iff.mp htail
    have htext : fnName.text = name := congrArg Prod.snd hname
    have htype : first.type = .AT := congrArg Prod.fst hfirst
    refine ⟨⟨0, 0⟩, ?_⟩
    have hendline : first.type ≠ .ENDLINE := by
      rw [htype]
      decide
    rw [List.cons_append, tapeReadIns, dropWhile_word hendline]
    have hlabel : readLabel r (fnName :: last :: rest) =
        (r.startFunc fnName.text false).map fun r => (r, last :: rest) :=
      (if_neg hcolon).trans (if_pos hlast)
    dsimp only
    rw [if_pos htype, List.singleton_append, hlabel, htext]
    rfl
  | instruction ins source =>
    obtain ⟨first, tail, rfl, hfirst, htail⟩ := List.map_eq_cons_iff.mp hkinds
    have hop : NamesOp first ins.op := by
      have htype : first.type = (nameKind ins.op.opToStr).1 := congrArg Prod.fst hfirst
      refine ⟨congrArg Prod.snd hfirst, ?_, ?_⟩
      · rw [htype]
        exact nameKind_ne _ rfl
      · rw [htype]
        exact nameKind_ne _ rfl
    obtain ⟨source', hread⟩ := @readOp_kinds floatFmt ins.arg h ins.op first tail rest last htail hlast r
    refine ⟨source', ?_⟩
    rw [List.cons_append, tapeReadIns_op hop, hread]
    rfl

theorem readFrom_cons (n : Nat) (r : Tape) (tok : Token) (tokens : List Token) :
    Tape.readFrom (n + 1) r (tok :: tokens) =
      (tapeReadIns r (tok :: tokens)).bind fun read => Tape.readFrom n read.1 read.2 := rfl

/-- The loop of `tape_read` over the tokens of the lines. -/
theorem readFrom_rereads {post : Tape → Prop} {lines : List TextLine} {r : Tape}
    (h : Rereads floatFmt post lines r) {ends tokens : List Token}
    (hends : ∀ tok ∈ ends, tok.type = .ENDLINE) (hkinds : tokens.map Token.kind =
      lines.flatMap fun line => line.kinds floatFmt ++ [(.ENDLINE, "")]) {n : Nat}
    (hn : (ends ++ tokens).length ≤ n) : ∃ r', Tape.readFrom n r (ends ++ tokens) = some r' ∧ post r' := by
  induction lines generalizing r ends tokens n with
  | nil =>
    cases List.map_eq_nil_iff.mp hkinds
    refine ⟨r, ?_, h⟩
    rw [List.append_nil] at hn ⊢
    cases ends with
    | nil => cases n <;> rfl
    | cons tok ends =>
      cases n with
      | zero => cases hn
      | succ n =>
        have hread : tapeReadIns r (tok :: ends) = some (r, []) := by
          have hnil := tapeReadIns_ends hends r []
          rw [List.append_nil] at hnil
          rw [hnil]
          rfl
        rw [readFrom_cons, hread]
        cases n <;> rfl
  | cons line lines ih =>
    obtain ⟨hline, hreads⟩ := h
    rw [List.flatMap_cons, List.append_assoc] at hkinds
    obtain ⟨own, rest, rfl, hown, hrest⟩ := List.map_eq_append_iff.mp hkinds
    obtain ⟨last, rest, rfl, hlast, hrest⟩ := List.map_eq_cons_iff.mp hrest
    have hlastType : last.type = .ENDLINE := congrArg Prod.fst hlast
    have hbody : ∀ name, line ≠ .module name := by
      obtain ⟨r', hinto, -⟩ := hreads ⟨0, 0⟩
      exact TextLine.ne_module hinto
    obtain ⟨source, hread⟩ :=
      @tapeReadIns_kinds floatFmt line hline hbody own rest last hown hlastType r
    obtain ⟨r', hinto, hreads⟩ := hreads source
    rw [hinto] at hread
    have hne : own ≠ [] := by
      rintro rfl
      cases line <;> cases hown
    have hpos := List.length_pos_iff.mpr hne
    simp only [List.length_append, List.length_cons] at hn
    cases n with
    | zero => omega
    | succ n =>
      obtain ⟨r'', hrun, hpost⟩ := @ih r' hreads [last] rest (List.forall_mem_singleton.mpr hlastType)
        hrest n (by simp; omega)
      refine ⟨r'', ?_, hpost⟩
      obtain ⟨tok, toks, hcons⟩ := List.exists_cons_of_ne_nil
        (List.append_ne_nil_of_right_ne_nil ends (List.append_ne_nil_of_left_ne_nil hne (last :: rest)))
      rw [hcons, readFrom_cons, ← hcons, tapeReadIns_ends hends, hread]
      exact hrun

/-- A text without a header is one of the main module. -/
theorem read_main {post : Tape → Prop} {lines : List TextLine} (hne : lines ≠ []) {r : Tape}
    (h : Rereads floatFmt post lines { r with moduleName := some "$" }) {tokens : List Token}
    (hkinds : tokens.map Token.kind =
      lines.flatMap fun line => line.kinds floatFmt ++ [(.ENDLINE, "")]) :
    ∃ r', r.read tokens = some r' ∧ post r' := by
  obtain ⟨line, lines, rfl⟩ := List.exists_cons_of_ne_nil hne
  obtain ⟨r', hread, hpost⟩ := @readFrom_rereads floatFmt _ _ _ h [] tokens (List.forall_mem_nil _) hkinds _ (Nat.le_refl _)
  obtain ⟨k, kinds, hline, htext⟩ : ∃ k kinds, line.kinds floatFmt = k :: kinds ∧ k.2 ≠ "module" := by
    obtain ⟨r', hinto, -⟩ := h.2 ⟨0, 0⟩
    exact TextLine.head (TextLine.ne_module hinto) floatFmt
  rw [List.flatMap_cons, hline, List.cons_append, List.cons_append] at hkinds
  obtain ⟨first, rest, rfl, hfirst, -⟩ := List.map_eq_cons_iff.mp hkinds
  have hne : first.text ≠ "module" := by
    rw [← congrArg Prod.snd hfirst] at htext
    exact htext
  exact ⟨r', (if_neg hne).trans hread, hpost⟩

theorem read_module {post : Tape → Prop} {lines : List TextLine} {r : Tape} {name : String}
    (h : Rereads floatFmt post lines { r with moduleName := some name }) {tokens : List Token}
    (hkinds : tokens.map Token.kind =
      (.module name :: lines).flatMap fun line => line.kinds floatFmt ++ [(.ENDLINE, "")]) :
    ∃ r', r.read tokens = some r' ∧ post r' := by
  obtain ⟨first, rest, rfl, hfirst, hkinds⟩ := List.map_eq_cons_iff.mp hkinds
  obtain ⟨moduleName, rest, rfl, hname, hkinds⟩ := List.map_eq_cons_iff.mp hkinds
  obtain ⟨last, rest, rfl, hlast, hkinds⟩ := List.map_eq_cons_iff.mp hkinds
  have hends : ∀ tok ∈ [last], tok.type = .ENDLINE :=
    List.forall_mem_singleton.mpr (congrArg Prod.fst hlast)
  obtain ⟨r', hread, hpost⟩ := @readFrom_rereads floatFmt _ _ _ h [last] rest hends hkinds _ (Nat.le_refl _)
  have hfirstText : first.text = "module" := congrArg Prod.snd hfirst
  have hnameText : moduleName.text = name := congrArg Prod.snd hname
  rw [← hnameText] at hread
  exact ⟨r', (if_pos hfirstText).trans hread, hpost⟩

end

/-! ## Tapes in order -/

/-- What the text keeps of a label; it tells nothing of `const` and `async`. -/
def FunctionRef.Printable (f : FunctionRef) : Prop :=
  isName f.name = true ∧ f.isConst = false ∧ f.isAsync = false

theorem FunctionRef.Printable.eq {f : FunctionRef} (h : f.Printable) :
    ⟨f.name, f.index, false, false⟩ = f := by
  obtain ⟨name, index, isConst, isAsync⟩ := f
  obtain ⟨-, hconst, hasync⟩ := h
  cases hconst
  cases hasync
  rfl

/-- A class without parents that has its methods in order. -/
structure ClassRef.Printable (c : ClassRef) : Prop where
  name : isName c.name = true
  fields : ∀ f ∈ c.fieldRefs.entries, isName f.name = true
  supers : c.supers = []
  nonempty : c.startIndex < c.endIndex
  methods : ∀ f ∈ c.funcRefs.entries, f.Printable ∧ c.Spans f.index
  sorted : c.funcRefs.entries.Pairwise fun f g => f.index < g.index

namespace Tape

/-- The iterators of `tape_write` meet every label, and the text says all there is to it. -/
structure Printable (floatFmt : UInt64 → List Char) (t : Tape) : Prop where
  named : ∃ name, t.moduleName = some name ∧ isName name = true
  nonempty : t.moduleName = some "$" → t.ins ≠ []
  args : ∀ ins ∈ t.ins, ins.arg.Printable floatFmt
  sources : t.sourceMap.length = t.ins.length
  current : t.currentClass = none
  funcs : ∀ f ∈ t.funcRefs.entries, f.Printable ∧ f.index ≤ t.size ∧
    ∀ c ∈ t.classRefs.entries, ¬ c.Spans f.index
  sortedFuncs : t.funcRefs.entries.Pairwise fun f g => f.index < g.index
  classes : ∀ c ∈ t.classRefs.entries, c.Printable ∧ c.endIndex ≤ t.size
  sortedClasses : t.classRefs.entries.Pairwise fun c d => c.endIndex ≤ d.startIndex

/-! ## Writer and reader -/

/-- No class is open, and the classes that start from `b` on are to come. -/
structure Between (t : Tape) (b : Nat) (s : TextWriter) (r : Tape) : Prop where
  inClass : s.inClass = none
  current : r.currentClass = none
  classes : r.classRefs.entries ++ s.classes = t.classRefs.entries
  later : ∀ c ∈ s.classes, b ≤ c.startIndex

/-- `c` is open, ends at `e` or later, and its methods `fs` from `l` on are to come. -/
structure Within (t : Tape) (e b l : Nat) (s : TextWriter) (r : Tape) (c : ClassRef)
    (fs : List FunctionRef) : Prop where
  inClass : s.inClass = some fs
  classes : ∃ cs rest passed, s.classes = c :: rest ∧ cs ++ c :: rest = t.classRefs.entries ∧
    r.Opens cs { c with endIndex := 0, funcRefs := passed } ∧
    passed.entries ++ fs = c.funcRefs.entries
  started : c.startIndex < b
  unended : e ≤ c.endIndex
  later : ∀ f ∈ fs, l ≤ f.index

/-- The tape that is read from what was printed of the first `i` instructions, the ends before
`e`, the starts before `b` and the labels before `l`. -/
structure Reread (t : Tape) (i e b l : Nat) (s : TextWriter) (r : Tape) : Prop where
  ins : r.ins = t.ins.take i
  moduleName : r.moduleName = t.moduleName
  funcs : r.funcRefs.entries ++ s.funcs = t.funcRefs.entries
  later : ∀ f ∈ s.funcs, l ≤ f.index
  place : t.Between b s r ∨ ∃ c fs, t.Within e b l s r c fs

variable {floatFmt : UInt64 → List Char} {t r : Tape} {i : Nat} {s : TextWriter}

theorem Reread.size {e b l : Nat} (h : t.Reread i e b l s r) (hi : i ≤ t.size) : r.size = i := by
  rw [Tape.size, h.ins, List.length_take]
  exact Nat.min_eq_left hi

theorem Reread.writeEnd (ht : t.Printable floatFmt) (hi : i ≤ t.size) (h : t.Reread i i i i s r) :
    Rereads floatFmt (t.Reread i (i + 1) i i (s.writeEnd i).2) (s.writeEnd i).1 r := by
  rcases h.place with hplace | ⟨c, fs, hplace⟩
  · have hstay : s.writeEnd i = ([], s) := by
      unfold TextWriter.writeEnd
      rw [hplace.inClass]
      cases s.classes <;> rfl
    rw [hstay]
    exact ⟨h.ins, h.moduleName, h.funcs, h.later, .inl hplace⟩
  · obtain ⟨cs, rest, passed, hclasses, hentries, hopens, hfuncs⟩ := hplace.classes
    have hmem : c ∈ t.classRefs.entries := by
      rw [← hentries]
      simp
    obtain ⟨hc, -⟩ := ht.classes c hmem
    by_cases hend : c.endIndex = i
    · have hprinted : s.writeEnd i = ([.endclass c.name], { s with classes := rest, inClass := none }) := by
        simp [TextWriter.writeEnd, hclasses, hplace.inClass, hend]
      -- all methods of the class are behind
      have hnil : fs = [] := by
        cases fs with
        | nil => rfl
        | cons f fs =>
          have hf : f ∈ c.funcRefs.entries := by
            rw [← hfuncs]
            simp
          have hspan := (hc.methods f hf).2
          have hle := hplace.later f List.mem_cons_self
          exact absurd hspan.2 (by omega)
      rw [hnil, List.append_nil] at hfuncs
      have hpassed : passed = c.funcRefs := KeyedList.ext hfuncs
      rw [hprinted]
      refine ⟨hc.name, fun source => ?_⟩
      have hmodify := hopens.modifyClass (fun c => { c with endIndex := r.size }) (fun _ => rfl)
      refine ⟨_, by simp [TextLine.readInto, endClass, endClassAtIndex, hopens.current]; rfl, ?_⟩
      refine ⟨h.ins, h.moduleName, h.funcs, h.later, .inl ⟨rfl, rfl, ?_, ?_⟩⟩
      · have hself : { c with endIndex := r.size, funcRefs := passed } = c := by
          rw [h.size hi, ← hend, hpassed]
        have hlast := hmodify.entries
        rw [hself] at hlast
        have hall : cs ++ [c] ++ rest = t.classRefs.entries := by
          rw [List.append_assoc]
          exact hentries
        exact (congrArg (· ++ rest) hlast).trans hall
      · have hsorted := ht.sortedClasses
        rw [← hentries] at hsorted
        intro d hd
        rw [← hend]
        exact List.rel_of_pairwise_cons (List.pairwise_append.mp hsorted).2.1 hd
    · have hstay : s.writeEnd i = ([], s) := by
        simp [TextWriter.writeEnd, hclasses, hend]
      have hlt : i + 1 ≤ c.endIndex := Nat.lt_of_le_of_ne hplace.unended (Ne.symm hend)
      rw [hstay]
      exact ⟨h.ins, h.moduleName, h.funcs, h.later, .inr ⟨c, fs, { hplace with unended := hlt }⟩⟩

theorem Reread.writeStart (ht : t.Printable floatFmt) (hi : i ≤ t.size)
    (h : t.Reread i (i + 1) i i s r) :
    Rereads floatFmt (t.Reread i (i + 1) (i + 1) i (s.writeStart i).2) (s.writeStart i).1 r := by
  rcases h.place with hplace | ⟨c, fs, hplace⟩
  · cases hclasses : s.classes with
    | nil =>
      have hstay : s.writeStart i = ([], s) := by rw [TextWriter.writeStart, hclasses]
      rw [hstay]
      refine ⟨h.ins, h.moduleName, h.funcs, h.later, .inl { hplace with later := ?_ }⟩
      rw [hclasses]
      exact nofun
    | cons c rest =>
      have hentries := hplace.classes
      rw [hclasses] at hentries
      have hmem : c ∈ t.classRefs.entries := by
        rw [← hentries]
        simp
      obtain ⟨hc, -⟩ := ht.classes c hmem
      by_cases hstart : c.startIndex = i
      · have hprinted : s.writeStart i =
            (.class c.name :: c.fieldRefs.entries.map (fun f => .field f.name),
              { s with inClass := some c.funcRefs.entries }) := by
          simp [TextWriter.writeStart, hclasses, hplace.inClass, hstart]
        have hnew : c.name ∉ r.classRefs.keys := by
          have hnodup := t.classRefs.nodup
          rw [← hentries, List.map_append, List.map_cons] at hnodup
          intro hmem
          exact (List.nodup_append.mp hnodup).2.2 _ hmem _ List.mem_cons_self rfl
        obtain ⟨r', hopen, hcore, hopens⟩ := openClass_spec hnew
        have hfields : (r.startClass c.name).bind (fun r =>
            c.fieldRefs.entries.foldlM (fun tape f => tape.field f.name) r) = some r' := by
          unfold Tape.openClass at hopen
          rw [hc.supers] at hopen
          cases hclass : r.startClass c.name with
          | none =>
            rw [hclass] at hopen
            cases hopen
          | some r₁ =>
            rw [hclass] at hopen
            exact hopen
        obtain ⟨r₁, hclass, hfields⟩ := Option.bind_eq_some_iff.mp hfields
        rw [hprinted]
        refine ⟨hc.name, fun source => ⟨r₁, hclass, Rereads.fields hc.fields hfields ?_⟩⟩
        rw [hc.supers, h.size hi, ← hstart] at hopens
        refine ⟨hcore.ins.trans h.ins, hcore.moduleName.trans h.moduleName, ?_, h.later, .inr ?_⟩
        · rw [hcore.funcRefs]
          exact h.funcs
        · refine ⟨c, c.funcRefs.entries, rfl, ?_, by omega, ?_, ?_⟩
          · refine ⟨r.classRefs.entries, rest, .empty, hclasses, hentries, ?_, List.nil_append _⟩
            have hself : ({ c with endIndex := 0, funcRefs := .empty } : ClassRef) =
                ⟨c.name, c.startIndex, 0, .empty, c.fieldRefs, []⟩ := by rw [← hc.supers]
            rw [hself]
            exact hopens
          · have hlt := hc.nonempty
            omega
          · intro f hf
            rw [← hstart]
            exact (hc.methods f hf).2.1
      · have hstay : s.writeStart i = ([], s) := by
          simp [TextWriter.writeStart, hclasses, hstart]
        rw [hstay]
        refine ⟨h.ins, h.moduleName, h.funcs, h.later, .inl { hplace with later := ?_ }⟩
        have hlater := hplace.later
        rw [hclasses] at hlater ⊢
        have hlt : i + 1 ≤ c.startIndex := by
          have hle := hlater c List.mem_cons_self
          omega
        refine List.forall_mem_cons.mpr ⟨hlt, fun d hd => ?_⟩
        have hsorted := ht.sortedClasses
        rw [← hentries] at hsorted
        have hle := List.rel_of_pairwise_cons (List.pairwise_append.mp hsorted).2.1 hd
        have hspan := hc.nonempty
        omega
  · have hstay : s.writeStart i = ([], s) := by
      unfold TextWriter.writeStart
      rw [hplace.inClass]
      cases s.classes <;> rfl
    rw [hstay]
    exact ⟨h.ins, h.moduleName, h.funcs, h.later,
      .inr ⟨c, fs, { hplace with started := Nat.lt_succ_of_lt hplace.started }⟩⟩

/-- The labels behind the first one of a list in order. -/
theorem later_succ {f : FunctionRef} {fs : List FunctionRef}
    (hsorted : (f :: fs).Pairwise fun f g => f.index < g.index) (hf : i ≤ f.index) :
    ∀ g ∈ fs, i + 1 ≤ g.index := by
  intro g hg
  have hlt : f.index < g.index := List.rel_of_pairwise_cons hsorted hg
  omega

/-- In a class there is no label of the module. -/
theorem Printable.later_within (ht : t.Printable floatFmt) {c : ClassRef}
    (hc : c ∈ t.classRefs.entries) (hspan : c.Spans i) {fs : List FunctionRef}
    (hfs : ∀ f ∈ fs, f ∈ t.funcRefs.entries) (hlater : ∀ f ∈ fs, i ≤ f.index) :
    ∀ f ∈ fs, i + 1 ≤ f.index := by
  intro f hf
  have hne : f.index ≠ i := by
    intro heq
    exact (ht.funcs f (hfs f hf)).2.2 c hc (heq ▸ hspan)
  have hle := hlater f hf
  omega

/-- A label of the module. -/
theorem Reread.writeModuleLabel (ht : t.Printable floatFmt) (hi : i ≤ t.size)
    (h : t.Reread i (i + 1) (i + 1) i s r) (hplace : t.Between (i + 1) s r) :
    Rereads floatFmt (t.Reread i (i + 1) (i + 1) (i + 1) (s.writeLabel i).2) (s.writeLabel i).1 r := by
  cases hfuncs : s.funcs with
  | nil =>
    have hstay : s.writeLabel i = ([], s) := by
      simp [TextWriter.writeLabel, hplace.inClass, hfuncs]
    rw [hstay]
    refine ⟨h.ins, h.moduleName, h.funcs, ?_, .inl hplace⟩
    rw [hfuncs]
    exact nofun
  | cons f fs =>
    have hentries := h.funcs
    rw [hfuncs] at hentries
    have hmem : f ∈ t.funcRefs.entries := by
      rw [← hentries]
      simp
    obtain ⟨hprintable, -, -⟩ := ht.funcs f hmem
    have hsorted := ht.sortedFuncs
    rw [← hentries] at hsorted
    have hsorted := (List.pairwise_append.mp hsorted).2.1
    have hlater := h.later
    rw [hfuncs] at hlater
    have hle := hlater f List.mem_cons_self
    by_cases hindex : f.index = i
    · have hprinted : s.writeLabel i = ([.label f.name], { s with funcs := fs }) := by
        simp [TextWriter.writeLabel, hplace.inClass, hfuncs, hindex]
      have hnew : f.name ∉ r.funcRefs.keys := by
        have hnodup := t.funcRefs.nodup
        rw [← hentries, List.map_append, List.map_cons] at hnodup
        intro hmem
        exact (List.nodup_append.mp hnodup).2.2 _ hmem _ List.mem_cons_self rfl
      have hself : (⟨f.name, r.size, false, false⟩ : FunctionRef) = f := by
        rw [h.size hi, ← hindex, hprintable.eq]
      have hstart : r.startFunc f.name false = some { r with funcRefs := r.funcRefs.insert f } := by
        simp [startFunc, startFuncAtIndex, hplace.current, hnew, hself]
      rw [hprinted]
      refine ⟨hprintable.1, fun source => ⟨_, hstart, ?_⟩⟩
      refine ⟨h.ins, h.moduleName, ?_, later_succ hsorted hle, .inl ?_⟩
      · have hinsert := KeyedList.entries_insert_of_notMem hnew
        have hall : r.funcRefs.entries ++ [f] ++ fs = t.funcRefs.entries := by
          rw [List.append_assoc]
          exact hentries
        exact (congrArg (· ++ fs) hinsert).trans hall
      · exact ⟨hplace.inClass, hplace.current, hplace.classes, hplace.later⟩
    · have hstay : s.writeLabel i = ([], s) := by
        simp [TextWriter.writeLabel, hplace.inClass, hfuncs, hindex]
      rw [hstay]
      refine ⟨h.ins, h.moduleName, h.funcs, ?_, .inl hplace⟩
      rw [hfuncs]
      exact List.forall_mem_cons.mpr ⟨by omega, later_succ hsorted hle⟩

/-- A label of the open class. -/
theorem Reread.writeMethodLabel (ht : t.Printable floatFmt) (hi : i ≤ t.size)
    (h : t.Reread i (i + 1) (i + 1) i s r) {c : ClassRef} {fs : List FunctionRef}
    (hplace : t.Within (i + 1) (i + 1) i s r c fs) :
    Rereads floatFmt (t.Reread i (i + 1) (i + 1) (i + 1) (s.writeLabel i).2) (s.writeLabel i).1 r := by
  obtain ⟨cs, rest, passed, hclasses, hentries, hopens, hfuncs⟩ := hplace.classes
  have hmem : c ∈ t.classRefs.entries := by
    rw [← hentries]
    simp
  obtain ⟨hc, -⟩ := ht.classes c hmem
  have hspan : c.Spans i := ⟨Nat.le_of_lt_succ hplace.started, hplace.unended⟩
  have hmodule : ∀ f ∈ s.funcs, i + 1 ≤ f.index := by
    apply ht.later_within hmem hspan _ h.later
    intro f hf
    rw [← h.funcs]
    exact List.mem_append_right _ hf
  cases fs with
  | nil =>
    have hstay : s.writeLabel i = ([], s) := by
      unfold TextWriter.writeLabel
      rw [hplace.inClass]
      cases hs : s.funcs with
      | nil => rfl
      | cons f fs =>
        have hle := hmodule f (by rw [hs]; exact List.mem_cons_self)
        have hne : f.index ≠ i := by omega
        simp [hne]
    rw [hstay]
    exact ⟨h.ins, h.moduleName, h.funcs, hmodule, .inr ⟨c, [], { hplace with later := nofun }⟩⟩
  | cons f fs =>
    have hf : f ∈ c.funcRefs.entries := by
      rw [← hfuncs]
      simp
    obtain ⟨hprintable, -⟩ := hc.methods f hf
    have hsorted := hc.sorted
    rw [← hfuncs] at hsorted
    have hsorted := (List.pairwise_append.mp hsorted).2.1
    have hle := hplace.later f List.mem_cons_self
    by_cases hindex : f.index = i
    · have hprinted : s.writeLabel i = ([.label f.name], { s with inClass := some fs }) := by
        simp [TextWriter.writeLabel, hplace.inClass, hindex]
      have hnew : f.name ∉ passed.keys := by
        have hnodup := c.funcRefs.nodup
        rw [← hfuncs, List.map_append, List.map_cons] at hnodup
        intro hmem
        exact (List.nodup_append.mp hnodup).2.2 _ hmem _ List.mem_cons_self rfl
      have hself : (⟨f.name, r.size, false, false⟩ : FunctionRef) = f := by
        rw [h.size hi, ← hindex, hprintable.eq]
      have hopens' := hopens.modifyClass (fun c => { c with funcRefs := c.funcRefs.insert f })
        (fun _ => rfl)
      have hlookup := hopens.lookup
      have hcurrent := hopens.current
      dsimp only at hlookup hcurrent hopens'
      rw [hprinted]
      have hstart : r.startFunc f.name false = some (r.modifyClass c.name
          (fun c => { c with funcRefs := c.funcRefs.insert f }) (fun _ => rfl)) := by
        simp only [startFunc, startFuncAtIndex, hcurrent, hlookup, if_neg hnew, hself]
      refine ⟨hprintable.1, fun source => ⟨_, hstart, ?_⟩⟩
      refine ⟨h.ins, h.moduleName, h.funcs, hmodule, .inr ⟨c, fs, rfl, ?_, hplace.started,
        hplace.unended, later_succ hsorted hle⟩⟩
      refine ⟨cs, rest, passed.insert f, hclasses, hentries, hopens', ?_⟩
      rw [KeyedList.entries_insert_of_notMem hnew, List.append_assoc]
      exact hfuncs
    · have hstay : s.writeLabel i = ([], s) := by
        simp [TextWriter.writeLabel, hplace.inClass, hindex]
      have hlater : ∀ g ∈ f :: fs, i + 1 ≤ g.index :=
        List.forall_mem_cons.mpr ⟨by omega, later_succ hsorted hle⟩
      rw [hstay]
      exact ⟨h.ins, h.moduleName, h.funcs, hmodule, .inr ⟨c, f :: fs, { hplace with later := hlater }⟩⟩

/-- What is printed in front of the instruction at `i`. -/
theorem Reread.writeLabels (ht : t.Printable floatFmt) (hi : i ≤ t.size)
    (h : t.Reread i i i i s r) :
    Rereads floatFmt (t.Reread i (i + 1) (i + 1) (i + 1) (s.writeLabels i).2) (s.writeLabels i).1 r := by
  have hlines : (s.writeLabels i).1 = (s.writeEnd i).1 ++ ((s.writeEnd i).2.writeStart i).1 ++
      (((s.writeEnd i).2.writeStart i).2.writeLabel i).1 := rfl
  rw [hlines, List.append_assoc]
  apply Rereads.append
  refine (h.writeEnd ht hi).mono fun r₁ h₁ => ?_
  apply Rereads.append
  refine (h₁.writeStart ht hi).mono fun r₂ h₂ => ?_
  rcases h₂.place with hplace | ⟨c, fs, hplace⟩
  · exact h₂.writeModuleLabel ht hi hplace
  · exact h₂.writeMethodLabel ht hi hplace

/-- Behind the last instruction everything has been passed. -/
theorem Reread.eq (ht : t.Printable floatFmt) {n : Nat} (hn : n = t.size)
    (h : t.Reread n (n + 1) (n + 1) (n + 1) s r) : r = { t with sourceMap := r.sourceMap } := by
  subst hn
  have hfuncs : s.funcs = [] := by
    cases hs : s.funcs with
    | nil => rfl
    | cons f fs =>
      have hentries := h.funcs
      have hlater := h.later
      rw [hs] at hentries hlater
      have hle := (ht.funcs f (by rw [← hentries]; simp)).2.1
      have hlt := hlater f List.mem_cons_self
      omega
  have hplace : t.Between (t.size + 1) s r := by
    rcases h.place with hplace | ⟨c, fs, hplace⟩
    · exact hplace
    · obtain ⟨cs, rest, passed, -, hentries, -⟩ := hplace.classes
      have hle := (ht.classes c (by rw [← hentries]; simp)).2
      have hlt := hplace.unended
      omega
  have hclasses : s.classes = [] := by
    cases hs : s.classes with
    | nil => rfl
    | cons c rest =>
      have hentries := hplace.classes
      have hlater := hplace.later
      rw [hs] at hentries hlater
      obtain ⟨hc, hle⟩ := ht.classes c (by rw [← hentries]; simp)
      have hspan := hc.nonempty
      have hlt := hlater c List.mem_cons_self
      omega
  have hins : r.ins = t.ins := by
    rw [h.ins]
    exact List.take_length
  have hfuncRefs : r.funcRefs = t.funcRefs := by
    apply KeyedList.ext
    rw [← h.funcs, hfuncs, List.append_nil]
  have hclassRefs : r.classRefs = t.classRefs := by
    apply KeyedList.ext
    rw [← hplace.classes, hclasses, List.append_nil]
  have hcurrent : r.currentClass = t.currentClass := hplace.current.trans ht.current.symm
  cases r
  cases t
  cases h.moduleName
  cases hins
  cases hfuncRefs
  cases hclassRefs
  cases hcurrent
  rfl

/-- The loop of `tape_write` from an instruction on. -/
theorem Reread.writeFrom (ht : t.Printable floatFmt) {pairs : List (Instruction × SourceMapping)}
    (hpairs : (t.ins.zip t.sourceMap).drop i = pairs) (hi : i ≤ t.size) (h : t.Reread i i i i s r) :
    Rereads floatFmt (fun r' => r' = { t with sourceMap := r'.sourceMap })
      (TextWriter.writeFrom i pairs s) r := by
  have hzip : (t.ins.zip t.sourceMap).length = t.size := by
    rw [List.length_zip, ht.sources, Nat.min_self]
    rfl
  induction pairs generalizing i s r with
  | nil =>
    have hsize : i = t.size := by
      have hle := List.drop_eq_nil_iff.mp hpairs
      omega
    exact (h.writeLabels ht hi).mono fun r' h' => h'.eq ht hsize
  | cons pair pairs ih =>
    obtain ⟨ins, source⟩ := pair
    have hlt : i < t.size := by
      rw [← hzip]
      by_contra hge
      rw [List.drop_eq_nil_of_le (by omega)] at hpairs
      cases hpairs
    have hget : (t.ins.zip t.sourceMap)[i]? = some (ins, source) := by
      rw [← List.head?_drop, hpairs]
      rfl
    have hins : t.ins[i]? = some ins := by
      have hzipped := List.getElem?_zip_eq_some.mp hget
      exact hzipped.1
    have hlines : TextWriter.writeFrom i ((ins, source) :: pairs) s = (s.writeLabels i).1 ++
        .instruction ins source :: TextWriter.writeFrom (i + 1) pairs (s.writeLabels i).2 := rfl
    rw [hlines]
    apply Rereads.append
    refine (h.writeLabels ht hi).mono fun r' h' => ?_
    refine ⟨ht.args ins (List.mem_of_getElem? hins), fun source' => ⟨_, rfl, ?_⟩⟩
    apply ih _ hlt
    · refine ⟨?_, h'.moduleName, h'.funcs, h'.later, ?_⟩
      · rw [add_ins, h'.ins, List.take_add_one, hins]
        rfl
      · rcases h'.place with hplace | ⟨c, fs, hplace⟩
        · exact .inl ⟨hplace.inClass, hplace.current, hplace.classes, hplace.later⟩
        · obtain ⟨cs, rest, passed, hclasses, hentries, hopens, hfuncs⟩ := hplace.classes
          refine .inr ⟨c, fs, hplace.inClass, ?_, hplace.started, hplace.unended, hplace.later⟩
          exact ⟨cs, rest, passed, hclasses, hentries, ⟨hopens.entries, hopens.current⟩, hfuncs⟩
    · rw [← List.tail_drop, hpairs]
      rfl

/-- The lines behind the header. -/
def textBody (t : Tape) : List TextLine :=
  TextWriter.writeFrom 0 (t.ins.zip t.sourceMap) ⟨t.classRefs.entries, t.funcRefs.entries, none⟩

theorem Printable.rereads (ht : t.Printable floatFmt) {name : String}
    (hmodule : t.moduleName = some name) :
    Rereads floatFmt (fun r => r = { t with sourceMap := r.sourceMap }) t.textBody
      { create with moduleName := some name } := by
  have hstart : t.Reread 0 0 0 0 ⟨t.classRefs.entries, t.funcRefs.entries, none⟩
      { create with moduleName := some name } :=
    ⟨rfl, hmodule.symm, rfl, fun f _ => Nat.zero_le _, .inl ⟨rfl, rfl, rfl, fun c _ => Nat.zero_le _⟩⟩
  exact hstart.writeFrom ht List.drop_zero (Nat.zero_le _)

/-- The tape is read from the tokens of its lines. -/
theorem Printable.read (ht : t.Printable floatFmt) {tokens : List Token}
    (hkinds : tokens.map Token.kind =
      t.textLines.flatMap fun line => line.kinds floatFmt ++ [(.ENDLINE, "")]) :
    ∃ t', create.read tokens = some t' ∧ t' = { t with sourceMap := t'.sourceMap } := by
  obtain ⟨name, hmodule, -⟩ := ht.named
  have hreads := ht.rereads hmodule
  by_cases hmain : name = "$"
  · subst hmain
    have hlines : t.textLines = t.textBody := by simp [textLines, textBody, hmodule]
    have hne : t.textBody ≠ [] := by
      intro hnil
      rw [hnil] at hreads
      have hins : ([] : List Instruction) = t.ins := congrArg Tape.ins hreads
      exact ht.nonempty hmodule hins.symm
    rw [hlines] at hkinds
    exact read_main hne hreads hkinds
  · have hlines : t.textLines = .module name :: t.textBody := by
      simp [textLines, textBody, hmodule, hmain]
    rw [hlines] at hkinds
    exact read_module hreads hkinds

theorem Printable.lines (ht : t.Printable floatFmt) :
    ∀ line ∈ t.textLines, line.Printable floatFmt := by
  obtain ⟨name, hmodule, hname⟩ := ht.named
  have hbody := (ht.rereads hmodule).printable
  intro line hline
  rcases List.mem_append.mp hline with hheader | hline
  · rw [hmodule] at hheader
    dsimp only at hheader
    split at hheader
    · obtain rfl := List.mem_singleton.mp hheader
      exact hname
    · cases hheader
  · exact hbody line hline

/-- Lexing what `tape_write` prints of a tape with its labels in order and reading it with
`tape_read` gives the tape, up to the places in the source. -/
theorem text_round_trip (dequeue : List Token → List Token) (floatFmt : UInt64 → List Char)
    (t : Tape) (ht : t.Printable floatFmt) :
    ∃ texts, t.write floatFmt = some texts ∧
      (∀ text ∈ texts, '\x00' ∉ text ∧ '\n' ∉ text.dropLast) ∧
      ∀ fi : List LineInfo, fi.map LineInfo.lineText = texts → ∃ tokens t',
        Lexer.lex dequeue (fi.length + 1) ⟨fi, true, [], []⟩ = some tokens ∧
        create.read tokens = some t' ∧ t' = { t with sourceMap := t'.sourceMap } := by
  obtain ⟨texts, hwrite, hclean, hlex⟩ := @lex_print floatFmt dequeue _ ht.lines
  refine ⟨texts, hwrite, hclean, fun fi hfi => ?_⟩
  obtain ⟨tokens, hlexed, hkinds⟩ := hlex fi hfi
  obtain ⟨t', hread, heq⟩ := ht.read hkinds
  exact ⟨tokens, t', hlexed, hread, heq⟩

/-- A class with a field and a method, a function, a negative jump and a string. -/
def pointTape : Tape where
  moduleName := some "points"
  ins := [⟨.RES, .id "self"⟩, ⟨.RET, .noArg⟩, ⟨.RES, .str (quoted ['\'', '\n'])⟩,
    ⟨.JMP, .val (.int (-2))⟩]
  sourceMap := [⟨1, 4⟩, ⟨1, 4⟩, ⟨2, 8⟩, ⟨-1, -1⟩]
  classRefs := KeyedList.empty.insert
    ⟨"Point", 0, 2, KeyedList.empty.insert ⟨"new", 0, false, false⟩, KeyedList.empty.insert ⟨"x"⟩, []⟩
  funcRefs := KeyedList.empty.insert ⟨"main", 2, false, false⟩
  currentClass := none

theorem pointTape_printable (floatFmt : UInt64 → List Char) : pointTape.Printable floatFmt := by
  refine ⟨⟨"points", rfl, by decide⟩, nofun, ?_, rfl, rfl, ?_, by decide, ?_, by decide⟩
  · have hescapable : Escapable ['\'', '\n'] := by
      refine (escapable_cons (by decide)).mpr ⟨by decide, ?_⟩
      exact (escapable_cons (by decide)).mpr ⟨by decide, escapable_nil⟩
    intro ins hins
    simp only [pointTape, List.mem_cons, List.not_mem_nil, or_false] at hins
    rcases hins with rfl | rfl | rfl | rfl
    · exact show isName "self" = true by decide
    · exact trivial
    · exact ⟨_, rfl, by decide, hescapable⟩
    · exact show (-2 ^ 31 : Int) ≤ -2 ∧ (-2 : Int) < 2 ^ 31 by decide
  · exact List.forall_mem_singleton.mpr ⟨⟨by decide, rfl, rfl⟩, by decide, by decide⟩
  · refine List.forall_mem_singleton.mpr ⟨⟨by decide, by decide, rfl, by decide, ?_, by decide⟩, by decide⟩
    exact List.forall_mem_singleton.mpr ⟨⟨by decide, rfl, rfl⟩, by decide⟩

theorem text_round_trip_point : pointTape.Printable (fun _ => []) ∧
    ∃ texts, pointTape.write (fun _ => []) = some texts ∧
      (∀ text ∈ texts, '\x00' ∉ text ∧ '\n' ∉ text.dropLast) ∧
      ∀ fi : List LineInfo, fi.map LineInfo.lineText = texts → ∃ tokens t',
        Lexer.lex List.tail (fi.length + 1) ⟨fi, true, [], []⟩ = some tokens ∧
        create.read tokens = some t' ∧ t' = { pointTape with sourceMap := t'.sourceMap } :=
  ⟨pointTape_printable _, text_round_trip List.tail (fun _ => []) pointTape (pointTape_printable _)⟩

end Tape

end JeffVm
