import JeffVm.Files
import JeffVm.TapeTextRoundTrip

/-!
# The tapes that the text format keeps

Whatever tape has been printed, the tape that is read from the text has its labels in the order of
the lines, one at most in front of an instruction, and no `async` function. So the tapes that are
read back are those in order.
-/

set_option autoImplicit false

namespace JeffVm

/-! ## Order -/

/-- The class has code, and its methods lie in it one behind the other. -/
structure ClassRef.InOrder (c : ClassRef) : Prop where
  nonempty : c.startIndex < c.endIndex
  methods : ∀ f ∈ c.funcRefs.entries, f.isAsync = false ∧ c.Spans f.index
  sorted : c.funcRefs.entries.Pairwise fun f g => f.index < g.index

/-- What a text needs of a label, but for its place. -/
def FunctionRef.Writable (f : FunctionRef) : Prop := isName f.name = true ∧ f.isConst = false

instance (f : FunctionRef) : Decidable f.Writable :=
  inferInstanceAs (Decidable (isName f.name = true ∧ f.isConst = false))

structure ClassRef.Writable (c : ClassRef) : Prop where
  name : isName c.name = true
  fields : ∀ f ∈ c.fieldRefs.entries, isName f.name = true
  supers : c.supers = []
  methods : ∀ f ∈ c.funcRefs.entries, f.Writable

namespace Tape

/-- The module has a name, no function is `async`, functions and classes lie one behind the
other, and the functions of the module outside the classes. -/
structure InOrder (t : Tape) : Prop where
  named : t.moduleName.isSome = true
  funcs : ∀ f ∈ t.funcRefs.entries, f.isAsync = false ∧ f.index ≤ t.size ∧
    ∀ c ∈ t.classRefs.entries, ¬ c.Spans f.index
  sortedFuncs : t.funcRefs.entries.Pairwise fun f g => f.index < g.index
  classes : ∀ c ∈ t.classRefs.entries, c.InOrder ∧ c.endIndex ≤ t.size
  sortedClasses : t.classRefs.entries.Pairwise fun c d => c.endIndex ≤ d.startIndex

/-- A tape with instructions whose names and operands have a text, as the compiler makes them:
without `const` functions and parents of classes, and with all classes closed. -/
structure Writable (floatFmt : UInt64 → List Char) (t : Tape) : Prop where
  named : ∀ name, t.moduleName = some name → isName name = true
  nonempty : t.ins ≠ []
  args : ∀ ins ∈ t.ins, ins.arg.Printable floatFmt
  sources : t.sourceMap.length = t.ins.length
  current : t.currentClass = none
  funcs : ∀ f ∈ t.funcRefs.entries, f.Writable
  classes : ∀ c ∈ t.classRefs.entries, c.Writable

/-- Lexing what `tape_write` prints and reading it with `tape_read` gives the tape, up to the
places in the source. -/
def ReadsBack (dequeue : List Token → List Token) (floatFmt : UInt64 → List Char) (t : Tape) :
    Prop :=
  ∃ texts, t.write floatFmt = some texts ∧
    (∀ text ∈ texts, '\x00' ∉ text ∧ '\n' ∉ text.dropLast) ∧
    ∀ fi : List LineInfo, fi.map LineInfo.lineText = texts → ∃ tokens t',
      Lexer.lex dequeue (fi.length + 1) ⟨fi, true, [], []⟩ = some tokens ∧
      create.read tokens = some t' ∧ t' = { t with sourceMap := t'.sourceMap }

variable {floatFmt : UInt64 → List Char} {t : Tape}

theorem Writable.printable (ht : t.Writable floatFmt) (horder : t.InOrder) :
    t.Printable floatFmt where
  named := by
    obtain ⟨name, hname⟩ := Option.isSome_iff_exists.mp horder.named
    exact ⟨name, hname, ht.named name hname⟩
  nonempty := fun _ => ht.nonempty
  args := ht.args
  sources := ht.sources
  current := ht.current
  funcs := by
    intro f hf
    obtain ⟨hasync, hle, hspans⟩ := horder.funcs f hf
    exact ⟨⟨(ht.funcs f hf).1, (ht.funcs f hf).2, hasync⟩, hle, hspans⟩
  sortedFuncs := horder.sortedFuncs
  classes := by
    intro c hc
    obtain ⟨hin, hle⟩ := horder.classes c hc
    have hwritable := ht.classes c hc
    refine ⟨⟨hwritable.name, hwritable.fields, hwritable.supers, hin.nonempty, ?_, hin.sorted⟩, hle⟩
    intro f hf
    obtain ⟨hasync, hspans⟩ := hin.methods f hf
    exact ⟨⟨(hwritable.methods f hf).1, (hwritable.methods f hf).2, hasync⟩, hspans⟩
  sortedClasses := horder.sortedClasses

end Tape

/-! ## The lines of a tape -/

/-- A line behind the header. -/
def TextLine.InBody (floatFmt : UInt64 → List Char) (line : TextLine) : Prop :=
  line.Printable floatFmt ∧ ∀ name, line ≠ .module name

namespace TextWriter

/-- The classes and labels that are still to be printed have a text. -/
structure Writable (s : TextWriter) : Prop where
  classes : ∀ c ∈ s.classes, c.Writable
  funcs : ∀ f ∈ s.funcs, f.Writable
  inClass : ∀ fs, s.inClass = some fs → ∀ f ∈ fs, f.Writable

variable {floatFmt : UInt64 → List Char} {s : TextWriter}

theorem Writable.writeEnd (h : s.Writable) (floatFmt : UInt64 → List Char) (i : Nat) :
    (∀ line ∈ (s.writeEnd i).1, line.InBody floatFmt) ∧ (s.writeEnd i).2.Writable := by
  unfold TextWriter.writeEnd
  cases hclasses : s.classes with
  | nil => exact ⟨List.forall_mem_nil _, h⟩
  | cons c classes =>
    have hall := h.classes
    rw [hclasses] at hall
    obtain ⟨hc, hrest⟩ := List.forall_mem_cons.mp hall
    dsimp only
    split
    · refine ⟨List.forall_mem_singleton.mpr ⟨hc.name, fun _ heq => by cases heq⟩, hrest, h.funcs, ?_⟩
      intro fs hfs
      cases hfs
    · exact ⟨List.forall_mem_nil _, h⟩

theorem Writable.writeStart (h : s.Writable) (floatFmt : UInt64 → List Char) (i : Nat) :
    (∀ line ∈ (s.writeStart i).1, line.InBody floatFmt) ∧ (s.writeStart i).2.Writable := by
  unfold TextWriter.writeStart
  cases hclasses : s.classes with
  | nil => exact ⟨List.forall_mem_nil _, h⟩
  | cons c classes =>
    have hc := h.classes c (by rw [hclasses]; exact List.mem_cons_self)
    dsimp only
    split
    · have hall := h.classes
      rw [hclasses] at hall
      refine ⟨List.forall_mem_cons.mpr ⟨⟨hc.name, fun _ heq => by cases heq⟩, ?_⟩, hall, h.funcs, ?_⟩
      · intro line hline
        obtain ⟨f, hf, rfl⟩ := List.mem_map.mp hline
        exact ⟨hc.fields f hf, fun _ heq => by cases heq⟩
      · intro fs hfs
        cases hfs
        exact hc.methods
    · exact ⟨List.forall_mem_nil _, h⟩

/-- At most one label is printed in front of an instruction, and no class is opened or closed. -/
theorem writeLabel_cases (s : TextWriter) (i : Nat) :
    (s.writeLabel i = ([], s)) ∨ ∃ f fs, f.index = i ∧
      ((s.inClass = some (f :: fs) ∧
        s.writeLabel i = ([.label f.name], { s with inClass := some fs })) ∨
      (s.funcs = f :: fs ∧ s.writeLabel i = ([.label f.name], { s with funcs := fs }))) := by
  obtain ⟨classes, funcs, inClass⟩ := s
  rcases inClass with _ | _ | ⟨f, fs⟩
  · rcases funcs with _ | ⟨g, gs⟩
    · exact .inl rfl
    · by_cases hindex : g.index = i
      · exact .inr ⟨g, gs, hindex, .inr ⟨rfl, by simp [writeLabel, hindex]⟩⟩
      · exact .inl (by simp [writeLabel, hindex])
  · rcases funcs with _ | ⟨g, gs⟩
    · exact .inl rfl
    · by_cases hindex : g.index = i
      · exact .inr ⟨g, gs, hindex, .inr ⟨rfl, by simp [writeLabel, hindex]⟩⟩
      · exact .inl (by simp [writeLabel, hindex])
  · by_cases hindex : f.index = i
    · exact .inr ⟨f, fs, hindex, .inl ⟨rfl, by simp [writeLabel, hindex]⟩⟩
    · exact .inl (by simp [writeLabel, hindex])

theorem Writable.writeLabel (h : s.Writable) (floatFmt : UInt64 → List Char) (i : Nat) :
    (∀ line ∈ (s.writeLabel i).1, line.InBody floatFmt) ∧ (s.writeLabel i).2.Writable := by
  rcases s.writeLabel_cases i with heq | ⟨f, fs, -, ⟨hlist, heq⟩ | ⟨hlist, heq⟩⟩
  · rw [heq]
    exact ⟨List.forall_mem_nil _, h⟩
  · obtain ⟨hf, hfs⟩ := List.forall_mem_cons.mp (h.inClass _ hlist)
    rw [heq]
    refine ⟨List.forall_mem_singleton.mpr ⟨hf.1, fun _ heq => by cases heq⟩, h.classes, h.funcs, ?_⟩
    intro gs hgs
    cases hgs
    exact hfs
  · have hall := h.funcs
    rw [hlist] at hall
    obtain ⟨hf, hfs⟩ := List.forall_mem_cons.mp hall
    rw [heq]
    exact ⟨List.forall_mem_singleton.mpr ⟨hf.1, fun _ heq => by cases heq⟩, h.classes, hfs, h.inClass⟩

theorem Writable.writeLabels (h : s.Writable) (floatFmt : UInt64 → List Char) (i : Nat) :
    (∀ line ∈ (s.writeLabels i).1, line.InBody floatFmt) ∧ (s.writeLabels i).2.Writable := by
  obtain ⟨hended, h₁⟩ := h.writeEnd floatFmt i
  obtain ⟨hstarted, h₂⟩ := h₁.writeStart floatFmt i
  obtain ⟨hlabelled, h₃⟩ := h₂.writeLabel floatFmt i
  refine ⟨?_, h₃⟩
  intro line hline
  rcases List.mem_append.mp hline with hfirst | hlabel
  · rcases List.mem_append.mp hfirst with hend | hstart
    · exact hended line hend
    · exact hstarted line hstart
  · exact hlabelled line hlabel

theorem Writable.writeFrom {pairs : List (Instruction × SourceMapping)}
    (hargs : ∀ pair ∈ pairs, pair.1.arg.Printable floatFmt) {i : Nat} (h : s.Writable) :
    ∀ line ∈ writeFrom i pairs s, line.InBody floatFmt := by
  induction pairs generalizing i s with
  | nil => exact (h.writeLabels floatFmt i).1
  | cons pair pairs ih =>
    obtain ⟨ins, source⟩ := pair
    obtain ⟨hins, hrest⟩ := List.forall_mem_cons.mp hargs
    obtain ⟨hlabels, hnext⟩ := h.writeLabels floatFmt i
    intro line hline
    rcases List.mem_append.mp hline with hlabel | hmem
    · exact hlabels line hlabel
    · rcases List.mem_cons.mp hmem with rfl | hlater
      · exact ⟨hins, fun _ heq => by cases heq⟩
      · exact ih hrest hnext line hlater

end TextWriter

namespace Tape

variable {floatFmt : UInt64 → List Char} {t : Tape}

theorem Writable.textBody (ht : t.Writable floatFmt) :
    ∀ line ∈ t.textBody, line.InBody floatFmt := by
  have hargs : ∀ pair ∈ t.ins.zip t.sourceMap, pair.1.arg.Printable floatFmt :=
    fun pair hpair => ht.args pair.1 (List.of_mem_zip hpair).1
  have hstart : TextWriter.Writable ⟨t.classRefs.entries, t.funcRefs.entries, none⟩ :=
    ⟨ht.classes, ht.funcs, fun _ hfs => by cases hfs⟩
  exact hstart.writeFrom hargs

theorem Writable.lines (ht : t.Writable floatFmt) :
    ∀ line ∈ t.textLines, line.Printable floatFmt := by
  intro line hline
  rcases List.mem_append.mp hline with hheader | hline
  · cases hmodule : t.moduleName with
    | none =>
      rw [hmodule] at hheader
      cases hheader
    | some name =>
      rw [hmodule] at hheader
      dsimp only at hheader
      split at hheader
      · obtain rfl := List.mem_singleton.mp hheader
        exact ht.named name hmodule
      · cases hheader
  · exact (ht.textBody line hline).1

/-- There are lines, for there are instructions. -/
theorem Writable.textBody_ne (ht : t.Writable floatFmt) : t.textBody ≠ [] := by
  obtain ⟨ins, rest, hins⟩ := List.exists_cons_of_ne_nil ht.nonempty
  have hsources := ht.sources
  rw [hins] at hsources
  obtain ⟨source, sources, hsource⟩ : ∃ source sources, t.sourceMap = source :: sources := by
    cases hmap : t.sourceMap with
    | nil => simp [hmap] at hsources
    | cons source sources => exact ⟨source, sources, rfl⟩
  unfold Tape.textBody
  rw [hins, hsource, List.zip_cons_cons, TextWriter.writeFrom]
  exact List.append_ne_nil_of_right_ne_nil _ (List.cons_ne_nil _ _)

end Tape

/-! ## What is read from them -/

/-- The lines take the one tape to the other. -/
def ReadsLines : List TextLine → Tape → Tape → Prop
  | [], r, r' => r' = r
  | line :: lines, r, r' =>
    ∃ source r₁, line.readInto source r = some r₁ ∧ ReadsLines lines r₁ r'

section

variable {floatFmt : UInt64 → List Char} {lines lines' : List TextLine} {r r' : Tape}

theorem ReadsLines.append (h : ReadsLines (lines ++ lines') r r') :
    ∃ r₁, ReadsLines lines r r₁ ∧ ReadsLines lines' r₁ r' := by
  induction lines generalizing r with
  | nil => exact ⟨r, rfl, h⟩
  | cons line lines ih =>
    obtain ⟨source, r₁, hread, hrest⟩ := h
    obtain ⟨r₂, hlines, hlines'⟩ := ih hrest
    exact ⟨r₂, ⟨source, r₁, hread, hlines⟩, hlines'⟩

/-- Only the lines tell what `tape_read` reads from their tokens. -/
theorem ReadsLines.of_readFrom (hbody : ∀ line ∈ lines, line.InBody floatFmt)
    {ends tokens : List Token} (hends : ∀ tok ∈ ends, tok.type = .ENDLINE)
    (hkinds : tokens.map Token.kind =
      lines.flatMap fun line => line.kinds floatFmt ++ [(.ENDLINE, "")]) {n : Nat}
    (h : Tape.readFrom n r (ends ++ tokens) = some r') : ReadsLines lines r r' := by
  induction lines generalizing r ends tokens n with
  | nil =>
    cases List.map_eq_nil_iff.mp hkinds
    rw [List.append_nil] at h
    cases ends with
    | nil => cases n <;> cases h <;> rfl
    | cons tok ends =>
      cases n with
      | zero => cases h
      | succ n =>
        have hread : tapeReadIns r (tok :: ends) = some (r, []) := by
          have hnil := tapeReadIns_ends hends r []
          rw [List.append_nil] at hnil
          rw [hnil]
          rfl
        rw [readFrom_cons, hread] at h
        cases n <;> cases h <;> rfl
  | cons line lines ih =>
    obtain ⟨⟨hline, hmodule⟩, hrest⟩ := List.forall_mem_cons.mp hbody
    rw [List.flatMap_cons, List.append_assoc] at hkinds
    obtain ⟨own, rest, rfl, hown, hkinds⟩ := List.map_eq_append_iff.mp hkinds
    obtain ⟨last, rest, rfl, hlast, hkinds⟩ := List.map_eq_cons_iff.mp hkinds
    have hlastType : last.type = .ENDLINE := congrArg Prod.fst hlast
    obtain ⟨source, hread⟩ :=
      @tapeReadIns_kinds floatFmt line hline hmodule own rest last hown hlastType r
    have hne : own ≠ [] := by
      rintro rfl
      cases line <;> cases hown
    obtain ⟨tok, toks, hcons⟩ := List.exists_cons_of_ne_nil
      (List.append_ne_nil_of_right_ne_nil ends
        (List.append_ne_nil_of_left_ne_nil hne (last :: rest)))
    rw [hcons] at h
    cases n with
    | zero => cases h
    | succ n =>
      rw [readFrom_cons, ← hcons, tapeReadIns_ends hends, hread] at h
      obtain ⟨⟨r₁, tokens'⟩, hmap, h⟩ := Option.bind_eq_some_iff.mp h
      obtain ⟨r₂, hinto, heq⟩ := Option.map_eq_some_iff.mp hmap
      cases heq
      have hlasts : ∀ tok ∈ [last], tok.type = .ENDLINE := List.forall_mem_singleton.mpr hlastType
      exact ⟨source, r₁, hinto, @ih r₁ hrest [last] rest hlasts hkinds n h⟩

/-- What is read from the tokens of the lines of a tape, which gets a module name. -/
theorem ReadsLines.of_read {t : Tape} (ht : t.Writable floatFmt) {tokens : List Token}
    (hkinds : tokens.map Token.kind =
      t.textLines.flatMap fun line => line.kinds floatFmt ++ [(.ENDLINE, "")])
    (h : Tape.create.read tokens = some r') :
    ∃ name, ReadsLines t.textBody { Tape.create with moduleName := some name } r' := by
  have hheader : t.textLines = t.textBody ∨ ∃ name, t.textLines = .module name :: t.textBody := by
    unfold Tape.textLines Tape.textBody
    cases t.moduleName with
    | none => exact .inl rfl
    | some name =>
      by_cases hmain : name = "$"
      · exact .inl (by simp [hmain])
      · exact .inr ⟨name, by simp [hmain]⟩
  rcases hheader with hlines | ⟨name, hlines⟩
  · rw [hlines] at hkinds
    obtain ⟨line, lines, hbody⟩ := List.exists_cons_of_ne_nil ht.textBody_ne
    have hline := ht.textBody line (by rw [hbody]; exact List.mem_cons_self)
    obtain ⟨k, kinds, hline, htext⟩ := TextLine.head hline.2 floatFmt
    have hfirst := hkinds
    rw [hbody, List.flatMap_cons, hline, List.cons_append, List.cons_append] at hfirst
    obtain ⟨first, rest, rfl, hfirst, -⟩ := List.map_eq_cons_iff.mp hfirst
    have hne : first.text ≠ "module" := by
      rw [← congrArg Prod.snd hfirst] at htext
      exact htext
    unfold Tape.read at h
    dsimp only at h
    rw [if_neg hne] at h
    exact ⟨"$", ReadsLines.of_readFrom ht.textBody (List.forall_mem_nil _) hkinds h⟩
  · rw [hlines] at hkinds
    obtain ⟨first, rest, rfl, hfirst, hkinds⟩ := List.map_eq_cons_iff.mp hkinds
    obtain ⟨moduleName, rest, rfl, -, hkinds⟩ := List.map_eq_cons_iff.mp hkinds
    obtain ⟨last, rest, rfl, hlast, hkinds⟩ := List.map_eq_cons_iff.mp hkinds
    have hends : ∀ tok ∈ [last], tok.type = .ENDLINE :=
      List.forall_mem_singleton.mpr (congrArg Prod.fst hlast)
    have hfirstText : first.text = "module" := congrArg Prod.snd hfirst
    unfold Tape.read at h
    dsimp only at h
    rw [if_pos hfirstText] at h
    exact ⟨moduleName.text, ReadsLines.of_readFrom ht.textBody hends hkinds h⟩

end

namespace Tape

variable {r r' : Tape} {cs : List ClassRef} {c : ClassRef} {name : String}

theorem startClass_some (h : r.startClass name = some r') :
    r'.Opens r.classRefs.entries (.init name r.size) ∧ SameCore r r' := by
  unfold startClass startClassAtIndex at h
  split at h
  · cases h
  · next hnew =>
    cases h
    exact ⟨⟨KeyedList.entries_insert_of_notMem hnew, rfl⟩, rfl, rfl, rfl, rfl⟩

theorem Opens.field_some (hopens : r.Opens cs c) (h : r.field name = some r') :
    ∃ fields, r'.Opens cs { c with fieldRefs := fields } ∧ SameCore r r' := by
  unfold field at h
  rw [hopens.current] at h
  simp only [hopens.lookup] at h
  split at h
  · cases h
  · cases h
    refine ⟨c.fieldRefs.insert ⟨name⟩, ?_, SameCore.modifyClass r _ _ _⟩
    exact hopens.modifyClass (fun c => { c with fieldRefs := c.fieldRefs.insert ⟨name⟩ })
      (fun _ => rfl)

theorem Opens.startFunc_some (hopens : r.Opens cs c) (h : r.startFunc name false = some r') :
    ∃ methods : KeyedList FunctionRef.name,
      methods.entries = c.funcRefs.entries ++ [⟨name, r.size, false, false⟩] ∧
      r'.Opens cs { c with funcRefs := methods } ∧ SameCore r r' := by
  unfold startFunc startFuncAtIndex at h
  rw [hopens.current] at h
  simp only [hopens.lookup] at h
  split at h
  · cases h
  · next hnew =>
    cases h
    refine ⟨c.funcRefs.insert ⟨name, r.size, false, false⟩,
      KeyedList.entries_insert_of_notMem hnew, ?_, SameCore.modifyClass r _ _ _⟩
    exact hopens.modifyClass
      (fun c => { c with funcRefs := c.funcRefs.insert ⟨name, r.size, false, false⟩ })
      (fun _ => rfl)

theorem startFunc_some (hcurrent : r.currentClass = none)
    (h : r.startFunc name false = some r') :
    ∃ funcs : KeyedList FunctionRef.name,
      funcs.entries = r.funcRefs.entries ++ [⟨name, r.size, false, false⟩] ∧
      r' = { r with funcRefs := funcs } := by
  unfold startFunc startFuncAtIndex at h
  rw [hcurrent] at h
  simp only at h
  split at h
  · cases h
  · next hnew =>
    cases h
    exact ⟨_, KeyedList.entries_insert_of_notMem hnew, by rw [hcurrent]⟩

theorem Opens.endClass_some (hopens : r.Opens cs c) (h : r.endClass = some r') :
    r'.classRefs.entries = cs ++ [{ c with endIndex := r.size }] ∧ r'.currentClass = none ∧
      SameCore r r' := by
  unfold endClass endClassAtIndex at h
  rw [hopens.current] at h
  cases h
  have hmodify := hopens.modifyClass (fun c => { c with endIndex := r.size }) (fun _ => rfl)
  exact ⟨hmodify.entries, rfl, rfl, rfl, rfl, rfl⟩

end Tape

/-! ## What is read is in order -/

/-- The class is open since before `b`, with methods in front of `l` so far, and behind
everything else. -/
structure ClassRef.OpenOrder (c : ClassRef) (r : Tape) (cs : List ClassRef) (b l : Nat) : Prop where
  started : c.startIndex < b
  reached : c.startIndex ≤ r.size
  classes : ∀ d ∈ cs, d.endIndex ≤ c.startIndex
  funcs : ∀ f ∈ r.funcRefs.entries, f.index < c.startIndex
  methods : ∀ f ∈ c.funcRefs.entries, f.isAsync = false ∧ c.startIndex ≤ f.index ∧ f.index < l
  sorted : c.funcRefs.entries.Pairwise fun f g => f.index < g.index

/-- The tape that has been read of what the writer has printed, with classes that start before
`b` and labels in front of `l`: the closed classes `cs` and the functions are in order. -/
structure ReadOrder (s : TextWriter) (b l : Nat) (r : Tape) (cs : List ClassRef) : Prop where
  named : r.moduleName.isSome = true
  funcs : ∀ f ∈ r.funcRefs.entries, f.isAsync = false ∧ f.index < l ∧ ∀ c ∈ cs, ¬ c.Spans f.index
  sortedFuncs : r.funcRefs.entries.Pairwise fun f g => f.index < g.index
  classes : ∀ c ∈ cs, c.InOrder ∧ c.endIndex ≤ r.size
  sortedClasses : cs.Pairwise fun c d => c.endIndex ≤ d.startIndex
  place : (s.inClass = none ∧ r.currentClass = none ∧ r.classRefs.entries = cs) ∨
    (s.inClass.isSome = true ∧ ∃ c : ClassRef, r.Opens cs c ∧ c.OpenOrder r cs b l)

namespace ReadOrder

variable {s : TextWriter} {b l i : Nat} {r r' : Tape} {cs : List ClassRef}

theorem writeEnd (h : ReadOrder s i i r cs) (hi : r.size = i)
    (hreads : ReadsLines (s.writeEnd i).1 r r') :
    r'.size = i ∧ ∃ cs', ReadOrder (s.writeEnd i).2 i i r' cs' := by
  have hstay : s.writeEnd i = ([], s) → r'.size = i ∧
      ∃ cs', ReadOrder (s.writeEnd i).2 i i r' cs' := by
    intro heq
    rw [heq] at hreads ⊢
    obtain rfl : r' = r := hreads
    exact ⟨hi, cs, h⟩
  cases hclasses : s.classes with
  | nil => exact hstay (by rw [TextWriter.writeEnd, hclasses])
  | cons d classes =>
    by_cases hend : s.inClass.isSome ∧ d.endIndex = i
    · have hprinted : s.writeEnd i =
          ([.endclass d.name], { s with classes := classes, inClass := none }) := by
        rw [TextWriter.writeEnd, hclasses]
        exact if_pos hend
      rw [hprinted] at hreads ⊢
      obtain ⟨source, r₁, hread, heq⟩ := hreads
      obtain rfl : r' = r₁ := heq
      rcases h.place with ⟨hnone, -⟩ | ⟨-, c, hopens, horder⟩
      · rw [hnone] at hend
        cases hend.1
      · obtain ⟨hentries, hcurrent, hcore⟩ := hopens.endClass_some hread
        have hsize : r'.size = i := by
          rw [Tape.size, hcore.ins]
          exact hi
        refine ⟨hsize, cs ++ [{ c with endIndex := r.size }], ?_⟩
        refine ⟨?_, ?_, ?_, ?_, ?_, .inl ⟨rfl, hcurrent, hentries⟩⟩
        · rw [hcore.moduleName]
          exact h.named
        · rw [hcore.funcRefs]
          intro f hf
          obtain ⟨hasync, hlt, hspans⟩ := h.funcs f hf
          refine ⟨hasync, hlt, ?_⟩
          intro e he
          rcases List.mem_append.mp he with hold | hnew
          · exact hspans e hold
          · obtain rfl := List.mem_singleton.mp hnew
            have hbefore := horder.funcs f hf
            exact fun hspan => absurd hspan.1 (Nat.not_le_of_lt hbefore)
        · rw [hcore.funcRefs]
          exact h.sortedFuncs
        · intro e he
          rw [hsize]
          rcases List.mem_append.mp he with hold | hnew
          · have hle := (h.classes e hold).2
            rw [hi] at hle
            exact ⟨(h.classes e hold).1, hle⟩
          · obtain rfl := List.mem_singleton.mp hnew
            refine ⟨⟨?_, ?_, horder.sorted⟩, Nat.le_of_eq hi⟩
            · exact Nat.lt_of_lt_of_eq horder.started hi.symm
            · intro f hf
              obtain ⟨hasync, hle, hlt⟩ := horder.methods f hf
              exact ⟨hasync, hle, Nat.lt_of_lt_of_eq hlt hi.symm⟩
        · refine List.pairwise_append.mpr ⟨h.sortedClasses, List.pairwise_singleton _ _, ?_⟩
          intro d hd e he
          obtain rfl := List.mem_singleton.mp he
          exact horder.classes d hd
    · exact hstay (by
        rw [TextWriter.writeEnd, hclasses]
        exact if_neg hend)

/-- The fields of the open class. -/
theorem fields {fields : List FieldRef} {c : ClassRef} (hopens : r.Opens cs c)
    (hreads : ReadsLines (fields.map fun f => .field f.name) r r') :
    ∃ refs, r'.Opens cs { c with fieldRefs := refs } ∧ r.SameCore r' := by
  induction fields generalizing r c with
  | nil =>
    obtain rfl : r' = r := hreads
    exact ⟨c.fieldRefs, hopens, .refl r'⟩
  | cons f fields ih =>
    obtain ⟨source, r₁, hread, hrest⟩ := hreads
    obtain ⟨refs, hopens₁, hcore₁⟩ := hopens.field_some hread
    obtain ⟨refs', hopens', hcore'⟩ := ih hopens₁ hrest
    exact ⟨refs', hopens', hcore₁.trans hcore'⟩

theorem writeStart (h : ReadOrder s i i r cs) (hi : r.size = i)
    (hreads : ReadsLines (s.writeStart i).1 r r') :
    r'.size = i ∧ ReadOrder (s.writeStart i).2 (i + 1) i r' cs := by
  have hstay : s.writeStart i = ([], s) → r'.size = i ∧
      ReadOrder (s.writeStart i).2 (i + 1) i r' cs := by
    intro heq
    rw [heq] at hreads ⊢
    obtain rfl : r' = r := hreads
    refine ⟨hi, h.named, h.funcs, h.sortedFuncs, h.classes, h.sortedClasses, ?_⟩
    rcases h.place with hbetween | ⟨hsome, c, hopens, horder⟩
    · exact .inl hbetween
    · exact .inr ⟨hsome, c, hopens, { horder with started := Nat.lt_succ_of_lt horder.started }⟩
  cases hclasses : s.classes with
  | nil => exact hstay (by rw [TextWriter.writeStart, hclasses])
  | cons d classes =>
    by_cases hstart : s.inClass.isNone ∧ d.startIndex = i
    · have hprinted : s.writeStart i =
          (.class d.name :: d.fieldRefs.entries.map (fun f => .field f.name),
            { s with inClass := some d.funcRefs.entries }) := by
        rw [TextWriter.writeStart, hclasses]
        exact if_pos hstart
      rw [hprinted] at hreads ⊢
      obtain ⟨source, r₁, hread, hrest⟩ := hreads
      obtain ⟨hopens, hcore⟩ := Tape.startClass_some hread
      obtain ⟨refs, hopens', hcore'⟩ := fields hopens hrest
      have hall := hcore.trans hcore'
      have hsize : r'.size = i := by
        rw [Tape.size, hall.ins]
        exact hi
      rcases h.place with ⟨-, -, hentries⟩ | ⟨hsome, -⟩
      · rw [hentries] at hopens'
        refine ⟨hsize, ?_, ?_, ?_, ?_, h.sortedClasses, .inr ⟨rfl, _, hopens', ?_⟩⟩
        · rw [hall.moduleName]
          exact h.named
        · rw [hall.funcRefs]
          exact h.funcs
        · rw [hall.funcRefs]
          exact h.sortedFuncs
        · intro e he
          have hle := (h.classes e he).2
          rw [hi] at hle
          rw [hsize]
          exact ⟨(h.classes e he).1, hle⟩
        · refine ⟨?_, ?_, fun e he => (h.classes e he).2, ?_, List.forall_mem_nil _, List.Pairwise.nil⟩
          · exact Nat.lt_succ_of_le (Nat.le_of_eq hi)
          · exact Nat.le_of_eq (hi.trans hsize.symm)
          · rw [hall.funcRefs]
            intro f hf
            exact Nat.lt_of_lt_of_eq (h.funcs f hf).2.1 hi.symm
      · rw [Option.isNone_iff_eq_none.mp hstart.1] at hsome
        cases hsome
    · exact hstay (by
        rw [TextWriter.writeStart, hclasses]
        exact if_neg hstart)

/-- A label in front of the instruction that comes next. -/
theorem label {name : String} {source : SourceMapping} (h : ReadOrder s (i + 1) i r cs)
    (hi : r.size = i) (hread : TextLine.readInto source r (.label name) = some r')
    {s' : TextWriter} (hs' : s'.inClass.isSome = s.inClass.isSome) :
    r'.size = i ∧ ReadOrder s' (i + 1) (i + 1) r' cs := by
  rcases h.place with ⟨hnone, hcurrent, hentries⟩ | ⟨hsome, c, hopens, horder⟩
  · obtain ⟨funcs, hfuncs, rfl⟩ := Tape.startFunc_some hcurrent hread
    refine ⟨hi, h.named, ?_, ?_, h.classes, h.sortedClasses, .inl ⟨?_, hcurrent, hentries⟩⟩
    · rw [hfuncs]
      intro f hf
      rcases List.mem_append.mp hf with hold | hnew
      · obtain ⟨hasync, hlt, hspans⟩ := h.funcs f hold
        exact ⟨hasync, Nat.lt_succ_of_lt hlt, hspans⟩
      · obtain rfl := List.mem_singleton.mp hnew
        refine ⟨rfl, Nat.lt_succ_of_le (Nat.le_of_eq hi), ?_⟩
        intro e he hspan
        exact absurd hspan.2 (Nat.not_lt_of_le (h.classes e he).2)
    · rw [hfuncs]
      refine List.pairwise_append.mpr ⟨h.sortedFuncs, List.pairwise_singleton _ _, ?_⟩
      intro f hf g hg
      obtain rfl := List.mem_singleton.mp hg
      exact Nat.lt_of_lt_of_eq (h.funcs f hf).2.1 hi.symm
    · rw [hnone] at hs'
      exact Option.not_isSome_iff_eq_none.mp (by rw [hs']; exact Bool.false_ne_true)
  · obtain ⟨methods, hmethods, hopens', hcore⟩ := hopens.startFunc_some hread
    have hsize : r'.size = r.size := by rw [Tape.size, hcore.ins, ← Tape.size]
    refine ⟨hsize.trans hi, ?_, ?_, ?_, ?_, h.sortedClasses, .inr ⟨?_, _, hopens', ?_⟩⟩
    · rw [hcore.moduleName]
      exact h.named
    · rw [hcore.funcRefs]
      intro f hf
      obtain ⟨hasync, hlt, hspans⟩ := h.funcs f hf
      exact ⟨hasync, Nat.lt_succ_of_lt hlt, hspans⟩
    · rw [hcore.funcRefs]
      exact h.sortedFuncs
    · rw [hsize]
      exact h.classes
    · rw [hs']
      exact hsome
    · refine ⟨horder.started, ?_, horder.classes, ?_, ?_, ?_⟩
      · rw [hsize]
        exact horder.reached
      · rw [hcore.funcRefs]
        exact horder.funcs
      · intro f hf
        dsimp only at hf
        rw [hmethods] at hf
        rcases List.mem_append.mp hf with hold | hnew
        · obtain ⟨hasync, hle, hlt⟩ := horder.methods f hold
          exact ⟨hasync, hle, Nat.lt_succ_of_lt hlt⟩
        · obtain rfl := List.mem_singleton.mp hnew
          exact ⟨rfl, horder.reached, Nat.lt_succ_of_le (Nat.le_of_eq hi)⟩
      · dsimp only
        rw [hmethods]
        refine List.pairwise_append.mpr ⟨horder.sorted, List.pairwise_singleton _ _, ?_⟩
        intro f hf g hg
        obtain rfl := List.mem_singleton.mp hg
        exact Nat.lt_of_lt_of_eq (horder.methods f hf).2.2 hi.symm

theorem writeLabel (h : ReadOrder s (i + 1) i r cs) (hi : r.size = i)
    (hreads : ReadsLines (s.writeLabel i).1 r r') :
    r'.size = i ∧ ReadOrder (s.writeLabel i).2 (i + 1) (i + 1) r' cs := by
  rcases s.writeLabel_cases i with heq | ⟨f, fs, -, ⟨hlist, heq⟩ | ⟨hlist, heq⟩⟩
  · rw [heq] at hreads ⊢
    obtain rfl : r' = r := hreads
    refine ⟨hi, h.named, ?_, h.sortedFuncs, h.classes, h.sortedClasses, ?_⟩
    · intro f hf
      obtain ⟨hasync, hlt, hspans⟩ := h.funcs f hf
      exact ⟨hasync, Nat.lt_succ_of_lt hlt, hspans⟩
    · rcases h.place with hbetween | ⟨hsome, c, hopens, horder⟩
      · exact .inl hbetween
      · refine .inr ⟨hsome, c, hopens, { horder with methods := ?_ }⟩
        intro f hf
        obtain ⟨hasync, hle, hlt⟩ := horder.methods f hf
        exact ⟨hasync, hle, Nat.lt_succ_of_lt hlt⟩
  · rw [heq] at hreads ⊢
    obtain ⟨source, r₁, hread, hrest⟩ := hreads
    obtain rfl : r' = r₁ := hrest
    exact h.label hi hread (by rw [hlist]; rfl)
  · rw [heq] at hreads ⊢
    obtain ⟨source, r₁, hread, hrest⟩ := hreads
    obtain rfl : r' = r₁ := hrest
    exact h.label hi hread rfl

theorem writeLabels (h : ReadOrder s i i r cs) (hi : r.size = i)
    (hreads : ReadsLines (s.writeLabels i).1 r r') :
    r'.size = i ∧ ∃ cs', ReadOrder (s.writeLabels i).2 (i + 1) (i + 1) r' cs' := by
  have hlines : (s.writeLabels i).1 = (s.writeEnd i).1 ++ ((s.writeEnd i).2.writeStart i).1 ++
      (((s.writeEnd i).2.writeStart i).2.writeLabel i).1 := rfl
  rw [hlines] at hreads
  obtain ⟨r₂, hfirst, hlabel⟩ := hreads.append
  obtain ⟨r₁, hend, hstart⟩ := hfirst.append
  obtain ⟨hi₁, cs', h₁⟩ := h.writeEnd hi hend
  obtain ⟨hi₂, h₂⟩ := h₁.writeStart hi₁ hstart
  obtain ⟨hi₃, h₃⟩ := h₂.writeLabel hi₂ hlabel
  exact ⟨hi₃, cs', h₃⟩

theorem writeFrom {pairs : List (Instruction × SourceMapping)} (h : ReadOrder s i i r cs)
    (hi : r.size = i) (hreads : ReadsLines (TextWriter.writeFrom i pairs s) r r') :
    ∃ s' cs', ReadOrder s' (r'.size + 1) (r'.size + 1) r' cs' := by
  induction pairs generalizing i s r cs with
  | nil =>
    obtain ⟨rfl, cs', h'⟩ := h.writeLabels hi hreads
    exact ⟨_, cs', h'⟩
  | cons pair pairs ih =>
    obtain ⟨ins, source⟩ := pair
    have hlines : TextWriter.writeFrom i ((ins, source) :: pairs) s = (s.writeLabels i).1 ++
        .instruction ins source :: TextWriter.writeFrom (i + 1) pairs (s.writeLabels i).2 := rfl
    rw [hlines] at hreads
    obtain ⟨r₁, hlabels, source', r₂, hread, hrest⟩ := hreads.append
    obtain ⟨hi₁, cs₁, h₁⟩ := h.writeLabels hi hlabels
    obtain rfl : r₁.add ins source' = r₂ := Option.some.inj hread
    have hsize : (r₁.add ins source').size = i + 1 := by
      rw [Tape.size, Tape.add_ins, List.length_append, ← Tape.size, hi₁]
      rfl
    have hnext : ReadOrder (s.writeLabels i).2 (i + 1) (i + 1) (r₁.add ins source') cs₁ := by
      refine ⟨h₁.named, h₁.funcs, h₁.sortedFuncs, ?_, h₁.sortedClasses, ?_⟩
      · intro c hc
        obtain ⟨horder, hle⟩ := h₁.classes c hc
        exact ⟨horder, by omega⟩
      · rcases h₁.place with hbetween | ⟨hsome, c, hopens, horder⟩
        · exact .inl hbetween
        · have hreached := horder.reached
          exact .inr ⟨hsome, c, ⟨hopens.entries, hopens.current⟩, ⟨horder.started, by omega,
            horder.classes, horder.funcs, horder.methods, horder.sorted⟩⟩
    exact ih hnext hsize hrest

/-- With no class open the whole tape is in order. -/
theorem inOrder (h : ReadOrder s b (r.size + 1) r cs) (hcurrent : r.currentClass = none) :
    r.InOrder := by
  rcases h.place with ⟨-, -, hentries⟩ | ⟨-, c, hopens, -⟩
  · refine ⟨h.named, ?_, h.sortedFuncs, ?_, ?_⟩
    · rw [hentries]
      intro f hf
      obtain ⟨hasync, hlt, hspans⟩ := h.funcs f hf
      exact ⟨hasync, Nat.le_of_lt_succ hlt, hspans⟩
    · rw [hentries]
      exact h.classes
    · rw [hentries]
      exact h.sortedClasses
  · rw [hopens.current] at hcurrent
    cases hcurrent

end ReadOrder

/-! ## The tapes that are read back -/

theorem exists_lines {texts : List (List Char)}
    (h : ∀ text ∈ texts, '\x00' ∉ text ∧ '\n' ∉ text.dropLast) :
    ∃ fi : List LineInfo, fi.map LineInfo.lineText = texts := by
  induction texts with
  | nil => exact ⟨[], rfl⟩
  | cons text texts ih =>
    obtain ⟨hterminated, hline⟩ := h text List.mem_cons_self
    obtain ⟨fi, rfl⟩ := ih fun other hother => h other (List.mem_cons_of_mem text hother)
    exact ⟨⟨text, 0, hterminated, hline⟩ :: fi, rfl⟩

/-- Names and numbers. -/
def Arg.isPlain : Arg → Bool
  | .noArg => true
  | .id name => isName name
  | .val (.int n) => decide (-2 ^ 31 ≤ n ∧ n < 2 ^ 31)
  | _ => false

theorem Arg.printable_of_isPlain {floatFmt : UInt64 → List Char} {arg : Arg}
    (h : arg.isPlain = true) : arg.Printable floatFmt := by
  cases arg with
  | noArg => exact trivial
  | id name => exact h
  | str text => cases h
  | val val =>
    cases val with
    | char c => cases h
    | int n =>
      have hrange : -2 ^ 31 ≤ n ∧ n < 2 ^ 31 := of_decide_eq_true h
      exact hrange
    | float bits => cases h

namespace Tape

variable {dequeue : List Token → List Token} {floatFmt : UInt64 → List Char} {t : Tape}

theorem ReadsBack.inOrder (ht : t.Writable floatFmt) (h : t.ReadsBack dequeue floatFmt) :
    t.InOrder := by
  obtain ⟨texts, hwrite, hclean, hread⟩ := h
  obtain ⟨texts', hwrite', -, hlex⟩ := @lex_print floatFmt dequeue _ ht.lines
  obtain rfl : texts' = texts := Option.some.inj (hwrite'.symm.trans hwrite)
  obtain ⟨fi, hfi⟩ := exists_lines hclean
  obtain ⟨tokens, t', hlexed, hread, heq⟩ := hread fi hfi
  obtain ⟨tokens', hlexed', hkinds⟩ := hlex fi hfi
  obtain rfl : tokens = tokens' := Option.some.inj (hlexed.symm.trans hlexed')
  obtain ⟨name, hreads⟩ := ReadsLines.of_read ht hkinds hread
  have hstart : ReadOrder ⟨t.classRefs.entries, t.funcRefs.entries, none⟩ 0 0
      { create with moduleName := some name } [] :=
    ⟨rfl, List.forall_mem_nil _, .nil, List.forall_mem_nil _, .nil, .inl ⟨rfl, rfl, rfl⟩⟩
  obtain ⟨s, cs, horder⟩ := hstart.writeFrom rfl hreads
  have hcurrent : t'.currentClass = none := by
    rw [heq]
    exact ht.current
  have hin := horder.inOrder hcurrent
  rw [heq] at hin
  exact ⟨hin.named, hin.funcs, hin.sortedFuncs, hin.classes, hin.sortedClasses⟩

/-- A tape is read back from its text if and only if its module has a name, none of its functions
is `async`, and its labels and classes lie in order. -/
theorem reads_back_iff (dequeue : List Token → List Token) (floatFmt : UInt64 → List Char)
    (t : Tape) (ht : t.Writable floatFmt) : t.ReadsBack dequeue floatFmt ↔ t.InOrder := by
  constructor
  · intro h
    exact h.inOrder ht
  · intro horder
    have hprintable := ht.printable horder
    obtain ⟨texts, hwrite, hclean, hlex⟩ := @lex_print floatFmt dequeue _ ht.lines
    refine ⟨texts, hwrite, hclean, fun fi hfi => ?_⟩
    obtain ⟨tokens, hlexed, hkinds⟩ := hlex fi hfi
    obtain ⟨t', hread, heq⟩ := hprintable.read hkinds
    exact ⟨tokens, t', hlexed, hread, heq⟩

/-- A class with a field and a method, and a function with a loop. -/
def loopFile (isAsync : Bool) : ModuleDef where
  name := some ⟨.word "module" 1, .word "m" 1⟩
  imports := []
  classes := [⟨.word "P" 2, [], none, [.word "x" 2], none, [⟨.word "method" 3, some (.word "get" 3),
    .NONE, false, none, .identifier (.word "x" 3)⟩]⟩]
  functions := [⟨.word "def" 4, some (.word "f" 4), .NONE, isAsync, none,
    .whileStatement (.word "while" 5) (.identifier (.word "y" 5)) (.identifier (.word "y" 6))⟩]
  statements := []

def loopTape (isAsync : Bool) : Tape :=
  ((produceModuleDef (loopFile isAsync) create).elim create Prod.snd)

theorem loopTape_writable (isAsync : Bool) : (loopTape isAsync).Writable floatFmt := by
  have hplain : ∀ ins ∈ (loopTape isAsync).ins, ins.arg.isPlain = true := by
    cases isAsync <;> decide
  refine ⟨?_, ?_, fun ins hins => Arg.printable_of_isPlain (hplain ins hins), ?_, ?_, ?_, ?_⟩
  · rintro name ⟨⟩
    decide
  · cases isAsync <;> decide
  · cases isAsync <;> rfl
  · cases isAsync <;> rfl
  · cases isAsync <;> decide
  · have hclass : (loopTape isAsync).classRefs.entries = [⟨"P", 1, 10,
        (KeyedList.empty.insert ⟨"new", 1, false, false⟩).insert ⟨"get", 8, false, false⟩,
        KeyedList.empty.insert ⟨"x"⟩, []⟩] := by cases isAsync <;> rfl
    rw [hclass]
    exact List.forall_mem_singleton.mpr ⟨by decide, by decide, rfl, by decide⟩

theorem loopTape_inOrder : (loopTape false).InOrder := by
  refine ⟨rfl, by decide, by decide, ?_, by decide⟩
  exact List.forall_mem_singleton.mpr ⟨⟨by decide, by decide, by decide⟩, by decide⟩

theorem reads_back_iff_loop :
    (∃ n, produceModuleDef (loopFile false) create = some (n, loopTape false)) ∧
      ((loopTape false).ReadsBack List.tail (fun _ => []) ↔ (loopTape false).InOrder) ∧
      (loopTape false).InOrder :=
  ⟨⟨_, rfl⟩, reads_back_iff List.tail (fun _ => []) (loopTape false) (loopTape_writable false),
    loopTape_inOrder⟩

/-- The function is read as one that is not `async`. -/
theorem not_reads_back :
    (∃ n, produceModuleDef (loopFile true) create = some (n, loopTape true)) ∧
      (loopTape true).Writable (fun _ => []) ∧
      ¬ (loopTape true).ReadsBack List.tail (fun _ => []) := by
  refine ⟨⟨_, rfl⟩, loopTape_writable true, ?_⟩
  intro h
  have horder := h.inOrder (loopTape_writable true)
  have hasync := (horder.funcs ⟨"f", 10, false, true⟩ (by decide)).1
  cases hasync

end Tape

end JeffVm
