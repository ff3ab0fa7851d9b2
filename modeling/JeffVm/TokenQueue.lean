import JeffVm.LineBounds
import JeffVm.Lib.Transition
import Mathlib

/-!
# The queue of tokens

The parser calls `lex_line` for one line after the other and takes tokens from the queue. The
columns of a line grow, so that a label made of the line and the column of a token is its own; a
continued line takes the wrong token from the queue.
-/

set_option autoImplicit false

namespace JeffVm

/-! ## Columns -/

section

variable {escape comment : Bool} {col : Int} {text : List Char} {ws : List LineWord × Ending}

/-- Literals are left out: the count of characters passes over them. -/
def LineWord.Before (a b : LineWord) : Prop :=
  a.type ≠ .STR → b.type ≠ .STR → a.type ≠ .ENDLINE → a.col < b.col

theorem length_wordText_le (c : Char) (tail : List Char) :
    (wordText c tail).length ≤ tail.length + 1 := by
  rw [wordText, String.length_ofList]
  exact (List.takeWhile_sublist _).length_le

theorem length_wordText_pos {c : Char} {tail : List Char} (hc : c ≠ '\x00') :
    1 ≤ (wordText c tail).length := by
  have hhead : (c != '\x00') = true := by simpa using hc
  rw [wordText, String.length_ofList, List.takeWhile_cons, if_pos hhead, List.length_cons]
  exact Nat.le_add_left 1 _

theorem Scans.columns (h : Scans escape comment col text ws) (hnul : '\x00' ∉ text) :
    ws.1.Pairwise LineWord.Before ∧ ∀ w ∈ ws.1, w.type ≠ .STR → col ≤ w.col := by
  induction h with
  | nul => exact ⟨List.pairwise_singleton _ _, by simp⟩
  | @blanks comment col blanks _ _ =>
    cases comment with
    | true => exact ⟨.nil, List.forall_mem_nil _⟩
    | false =>
      refine ⟨List.pairwise_singleton _ _, List.forall_mem_singleton.mpr fun _ => ?_⟩
      dsimp only
      omega
  | newline => exact ⟨List.pairwise_singleton _ _, by simp⟩
  | @blankLine comment col blanks rest _ _ =>
    refine ⟨List.pairwise_pair.mpr fun _ _ hend => absurd rfl hend, ?_⟩
    intro w hw _
    have hcol : w.col = col + blanks.length := by
      rcases List.mem_cons.mp hw with rfl | hw
      · rfl
      · rw [List.mem_singleton.mp hw]
    omega
  | @skip comment col blanks tail rest c ws hblanks hspells hskip hrest ih =>
    obtain ⟨hpairs, hcols⟩ := ih fun hmem => hnul (by simp [hmem])
    refine ⟨hpairs, fun w hw hstr => ?_⟩
    have hcol := hcols w hw hstr
    omega
  | @literal col blanks rest index str ws hblanks hread hrest ih =>
    obtain ⟨word, rfl⟩ := readString_suffix hread
    obtain ⟨hpairs, hcols⟩ := ih fun hmem => hnul (by simp [hmem])
    refine ⟨List.pairwise_cons.mpr ⟨fun w hw hstr => absurd rfl hstr, hpairs⟩, ?_⟩
    intro w hw hstr
    rcases List.mem_cons.mp hw with rfl | hw
    · exact absurd rfl hstr
    · have hcol := hcols w hw hstr
      omega
  | openLiteral => exact ⟨.nil, List.forall_mem_nil _⟩
  | @word col blanks tail rest c ws hblanks hspells hcomment hquote hrest ih =>
    obtain ⟨hpairs, hcols⟩ := ih fun hmem => hnul (by simp [hmem])
    have hle := length_wordText_le c tail
    have hc : c ≠ '\x00' := fun heq => hnul (by simp [heq])
    have hpos : 1 ≤ (wordText c tail).length := length_wordText_pos hc
    refine ⟨List.pairwise_cons.mpr ⟨fun w hw _ hstr _ => ?_, hpairs⟩, ?_⟩
    · have hcol := hcols w hw hstr
      dsimp only
      omega
    · intro w hw hstr
      rcases List.mem_cons.mp hw with rfl | hw
      · dsimp only
        omega
      · have hcol := hcols w hw hstr
        omega

end

namespace Lexer

section

variable {dequeue : List Token → List Token} {lexNext : Lexer → Lexed} {lineNum : Int}

/-- The columns of the tokens that are no literals grow along a line. -/
theorem lexLine_columns_increase (dequeue : List Token → List Token) (lexer : Lexer) :
    (((lexLine dequeue lexer).own.filter fun tok => tok.type != .STR).map Token.col).Pairwise
      (· < ·) := by
  cases hfi : lexer.fi with
  | nil =>
    rw [lexLine, lexLines_nil hfi]
    exact .nil
  | cons li fi =>
    obtain ⟨words, ends, own, hws, hwords, hends, hown, hlength, hownEnds⟩ :=
      @lexLines_own dequeue fi.length lexer li fi hfi
    obtain ⟨hpairs, -⟩ := (li.scans_words lexer.escapeCharacters).columns li.terminated
    rw [hws, List.pairwise_append] at hpairs
    have hown : (lexLine dequeue lexer).own = words.map (LineWord.token li.lineNum) ++ own := by
      rw [lexLine, hfi]
      exact hown
    rw [hown, List.pairwise_map, List.pairwise_filter, List.pairwise_append, List.pairwise_map]
    refine ⟨hpairs.1.imp_of_mem ?_, ?_, ?_⟩
    · intro a b ha hb hbefore hstr hstr'
      exact hbefore (by simpa [LineWord.token] using hstr) (by simpa [LineWord.token] using hstr')
        (hwords a ha)
    · cases own with
      | nil => exact .nil
      | cons tok own =>
        obtain rfl := List.length_eq_zero_iff.mp (Nat.le_zero.mp (Nat.le_of_succ_le_succ hlength))
        exact List.pairwise_singleton _ _
    · intro tok htok tok' htok' hstr hstr'
      obtain ⟨w, hw, rfl⟩ := List.mem_map.mp htok
      obtain ⟨w', hw', rfl⟩ := hownEnds tok' htok'
      exact hpairs.2.2 w hw w' hw' (by simpa [LineWord.token] using hstr)
        (by simpa [LineWord.token] using hstr') (hwords w hw)

/-! ## Lines and columns over a whole file -/

/-- No token has the line and the column of another. -/
def Distinct (toks : List Token) : Prop :=
  toks.Pairwise fun a b => a.type ≠ .STR → b.type ≠ .STR → ¬ (a.line = b.line ∧ a.col = b.col)

/-- The lines that are left have numbers of their own, which no token has. -/
structure Fresh (lexer : Lexer) : Prop where
  lines : (lexer.fi.map LineInfo.lineNum).Nodup
  unread : ∀ tok ∈ lexer.created, ∀ li ∈ lexer.fi, tok.line ≠ li.lineNum
  distinct : Distinct lexer.created

theorem Distinct.append {toks toks' : List Token} (h : Distinct toks) (h' : Distinct toks')
    (hne : ∀ a ∈ toks, ∀ b ∈ toks', a.type ≠ .STR → b.type ≠ .STR →
      ¬ (a.line = b.line ∧ a.col = b.col)) : Distinct (toks ++ toks') :=
  List.pairwise_append.mpr ⟨h, h', hne⟩

/-- What the ends of line `lineNum` need: no token of the line has their columns, or the last token
of the queue is an end already. -/
structure AtEnds (lineNum : Int) (ends : List LineWord) (lexer : Lexer) : Prop where
  fresh : lexer.Fresh
  read : ∀ li ∈ lexer.fi, lineNum ≠ li.lineNum
  columns : lexer.lastIs .ENDLINE = true ∨ ∀ tok ∈ lexer.created, tok.type ≠ .STR →
    tok.line = lineNum → ∀ w ∈ ends, tok.col ≠ w.col

/-- A call keeps the tokens distinct, and its tokens are of the lines it reads. -/
def KeepsFresh (lexNext : Lexer → Lexed) : Prop :=
  ∀ lexer : Lexer, lexer.Fresh → (lexNext lexer).lexer.Fresh ∧
    (lexNext lexer).lexer.fi ⊆ lexer.fi ∧
    ∀ tok ∈ (lexNext lexer).lexer.created, tok ∈ lexer.created ∨ ∃ li ∈ lexer.fi, tok.line = li.lineNum

theorem Fresh.enqueue {lexer : Lexer} (h : lexer.Fresh) {tok : Token}
    (hread : ∀ li ∈ lexer.fi, tok.line ≠ li.lineNum)
    (hcolumns : ∀ tok' ∈ lexer.created, tok'.type ≠ .STR → tok.type ≠ .STR →
      ¬ (tok'.line = tok.line ∧ tok'.col = tok.col)) : (lexer.enqueue tok).Fresh where
  lines := h.lines
  unread := by
    intro tok' htok'
    rcases List.mem_append.mp htok' with htok' | htok'
    · exact h.unread tok' htok'
    · rw [List.mem_singleton.mp htok']
      exact hread
  distinct := h.distinct.append (List.pairwise_singleton _ _) fun a ha b hb => by
    rw [List.mem_singleton.mp hb]
    exact hcolumns a ha

theorem addWords_ends_fresh (hnext : KeepsFresh lexNext) {ends : List LineWord}
    (hends : ∀ w ∈ ends, w.type = .ENDLINE) {lexer : Lexer} (hlexer : lexer.AtEnds lineNum ends) :
    let lexed := addWords dequeue lexNext lineNum ends lexer
    lexed.lexer.Fresh ∧ lexed.lexer.fi ⊆ lexer.fi ∧
      ∀ tok ∈ lexed.lexer.created, tok ∈ lexer.created ∨ tok.line = lineNum ∨
        ∃ li ∈ lexer.fi, tok.line = li.lineNum := by
  induction ends generalizing lexer with
  | nil => exact ⟨hlexer.fresh, List.Subset.refl _, fun tok htok => .inl htok⟩
  | cons w ends ih =>
    obtain ⟨htype, hends⟩ := List.forall_mem_cons.mp hends
    obtain ⟨hfresh, hread, hcolumns⟩ := hlexer
    have hrest : lexer.lastIs .ENDLINE = true ∨ ∀ tok ∈ lexer.created, tok.type ≠ .STR →
        tok.line = lineNum → ∀ w ∈ ends, tok.col ≠ w.col :=
      hcolumns.imp_right fun h tok htok hstr hline w' hw' =>
        h tok htok hstr hline w' (List.mem_cons_of_mem w hw')
    rw [addWords]
    split
    · rename_i hbslash
      have hlast : lexer.lastIs .ENDLINE ≠ true := by
        have hbslash := (Bool.and_eq_true_iff.mp hbslash).2
        unfold lastIs at hbslash ⊢
        rw [eq_of_beq hbslash]
        exact Bool.false_ne_true
      have hrest := hrest.resolve_left hlast
      obtain ⟨hfresh', hfi, hcreated⟩ := hnext { lexer with q := dequeue lexer.q }
        ⟨hfresh.lines, hfresh.unread, hfresh.distinct⟩
      dsimp only at hfi hcreated ⊢
      split
      · have hends' : (lexNext { lexer with q := dequeue lexer.q }).lexer.AtEnds lineNum ends := by
          refine ⟨hfresh', fun li hli => hread li (hfi hli), .inr ?_⟩
          intro tok htok hstr hline
          rcases hcreated tok htok with htok | ⟨li, hli, hnum⟩
          · exact hrest tok htok hstr hline
          · exact absurd (hline.symm.trans hnum) (hread li hli)
        obtain ⟨hfresh'', hfi', hcreated'⟩ := ih hends hends'
        refine ⟨hfresh'', fun li hli => hfi (hfi' hli), fun tok htok => ?_⟩
        rcases hcreated' tok htok with htok | hline | ⟨li, hli, hnum⟩
        · exact (hcreated tok htok).imp_right .inr
        · exact .inr (.inl hline)
        · exact .inr (.inr ⟨li, hfi hli, hnum⟩)
      · exact ⟨hfresh', hfi, fun tok htok => (hcreated tok htok).imp_right .inr⟩
    split
    · rename_i henqueue
      have hnot : ¬lexer.q = [] ∧ lexer.lastIs .ENDLINE = false := by
        simpa [htype] using henqueue
      have hcolumns := hcolumns.resolve_left (by simp [hnot.2])
      have hfresh' : (lexer.enqueue (w.token lineNum)).Fresh :=
        hfresh.enqueue hread fun tok' htok' hstr _ heq =>
          hcolumns tok' htok' hstr heq.1 w List.mem_cons_self heq.2
      have hlast : (lexer.enqueue (w.token lineNum)).lastIs .ENDLINE = true := by
        simp [lastIs, enqueue, LineWord.token, htype]
      obtain ⟨hfresh'', hfi, hcreated⟩ := ih hends ⟨hfresh', hread, .inl hlast⟩
      refine ⟨hfresh'', hfi, fun tok htok => ?_⟩
      rcases hcreated tok htok with htok | hline
      · rcases List.mem_append.mp htok with htok | htok
        · exact .inl htok
        · rw [List.mem_singleton.mp htok]
          exact .inr (.inl rfl)
      · exact .inr hline
    · exact ih hends ⟨hfresh, hread, hrest⟩

theorem keepsFresh_lexLines (n : Nat) : KeepsFresh (lexLines dequeue n) := by
  induction n with
  | zero =>
    intro lexer hfresh
    exact ⟨hfresh, List.Subset.refl _, fun tok htok => .inl htok⟩
  | succ n ih =>
    intro lexer hfresh
    cases hfi : lexer.fi with
    | nil =>
      rw [lexLines_nil hfi]
      exact ⟨hfresh, by rw [hfi]; exact List.Subset.refl _, fun tok htok => .inl htok⟩
    | cons li fi =>
      obtain ⟨words, ends, hws, hwords, hends⟩ := (li.scans_words lexer.escapeCharacters).parts
      obtain ⟨hpairs, -⟩ := (li.scans_words lexer.escapeCharacters).columns li.terminated
      rw [hws, List.pairwise_append] at hpairs
      obtain ⟨hlines, hunread, hdistinct⟩ := hfresh
      rw [hfi, List.map_cons, List.nodup_cons] at hlines
      rw [hfi] at hunread
      have hread : ∀ l ∈ fi, li.lineNum ≠ l.lineNum := fun l hl heq =>
        hlines.1 (heq ▸ List.mem_map_of_mem hl)
      have hold : ∀ tok ∈ lexer.created, tok.line ≠ li.lineNum :=
        fun tok htok => hunread tok htok li List.mem_cons_self
      have hends' : (({ lexer with fi := fi } : Lexer).enqueueAll
          (words.map (LineWord.token li.lineNum))).AtEnds li.lineNum ends := by
        refine ⟨⟨hlines.2, ?_, ?_⟩, hread, .inr ?_⟩
        · intro tok htok l hl
          rcases List.mem_append.mp htok with htok | htok
          · exact hunread tok htok l (List.mem_cons_of_mem li hl)
          · obtain ⟨w, -, rfl⟩ := List.mem_map.mp htok
            exact hread l hl
        · refine hdistinct.append (List.pairwise_map.mpr (hpairs.1.imp_of_mem ?_)) ?_
          · intro a b ha _ hbefore hstr hstr' heq
            exact absurd heq.2 (Int.ne_of_lt (hbefore hstr hstr' (hwords a ha)))
          · intro a ha b hb _ _ heq
            obtain ⟨w, -, rfl⟩ := List.mem_map.mp hb
            exact hold a ha heq.1
        · intro tok htok hstr hline w hw
          rcases List.mem_append.mp htok with htok | htok
          · exact absurd hline (hold tok htok)
          · obtain ⟨w', hw', rfl⟩ := List.mem_map.mp htok
            have hend : w.type ≠ .STR := by
              rw [(hends w hw).1]
              exact TokenType.noConfusion
            exact Int.ne_of_lt (hpairs.2.2 w' hw' w hw hstr hend (hwords w' hw'))
      have hafter := @addWords_ends_fresh dequeue _ li.lineNum ih ends (fun w hw => (hends w hw).1) _ hends'
      obtain ⟨hfresh, hsub, hcreated⟩ := hafter
      rw [(lexLines_cons hfi).1, hws, addWords_append hwords]
      refine ⟨hfresh, fun l hl => List.mem_cons_of_mem li (hsub hl), fun tok htok => ?_⟩
      rcases hcreated tok htok with htok | hline | ⟨l, hl, hnum⟩
      · rcases List.mem_append.mp htok with htok | htok
        · exact .inl htok
        · obtain ⟨w, -, rfl⟩ := List.mem_map.mp htok
          exact .inr ⟨li, List.mem_cons_self, rfl⟩
      · exact .inr ⟨li, List.mem_cons_self, hline⟩
      · exact .inr ⟨l, List.mem_cons_of_mem li hl, hnum⟩

end

/-! ## Runs of the parser -/

/-- The parser has a line read, or takes tokens from the queue and puts tokens back. -/
inductive Act where
  | lexLine
  | edit (q : List Token)

def step (dequeue : List Token → List Token) (lexer : Lexer) : Act → Option Lexer
  | .lexLine => some (lexLine dequeue lexer).lexer
  | .edit q => if ∀ tok ∈ q, tok ∈ lexer.created then some { lexer with q := q } else none

/-- The lexer of a file before its first line is read. -/
def start (fi : List LineInfo) (escapeCharacters : Bool) : Lexer := ⟨fi, escapeCharacters, [], []⟩

theorem fresh_step {dequeue : List Token → List Token} {lexer lexer' : Lexer} {act : Act}
    (h : lexer.Fresh) (hstep : step dequeue lexer act = some lexer') : lexer'.Fresh := by
  cases act with
  | lexLine =>
    cases hstep
    exact (keepsFresh_lexLines _ lexer h).1
  | edit q =>
    rw [step] at hstep
    split at hstep
    · cases hstep
      exact ⟨h.lines, h.unread, h.distinct⟩
    · cases hstep

theorem fresh_runs {dequeue : List Token → List Token} {fi : List LineInfo} {escape : Bool}
    {lexer : Lexer} (hlines : (fi.map LineInfo.lineNum).Nodup)
    (hrun : Runs (step dequeue) (start fi escape) lexer) : lexer.Fresh :=
  hrun.invariant (fun _ _ _ h _ hstep => fresh_step h hstep) ⟨hlines, List.forall_mem_nil _, .nil⟩

end Lexer

/-! ## Labels -/

theorem underscore_not_mem_repr (n : Int) : '_' ∉ n.repr.toList := by
  cases n with
  | ofNat n => simp [Int.repr, Nat.repr]
  | negSucc n => simp [Int.repr, Nat.repr]

theorem Tape.anonFnForToken_inj {a b : Token} :
    Tape.anonFnForToken a = Tape.anonFnForToken b ↔ a.line = b.line ∧ a.col = b.col := by
  constructor
  · intro h
    have htexts : a.line.repr.toList ++ '_' :: a.col.repr.toList =
        b.line.repr.toList ++ '_' :: b.col.repr.toList := by
      have hlists := congrArg String.toList h
      simpa [Tape.anonFnForToken, toString] using hlists
    rw [List.append_cons_inj_of_notMem (underscore_not_mem_repr _) (underscore_not_mem_repr _),
      String.toList_inj, String.toList_inj, Int.repr_inj, Int.repr_inj] at htexts
    exact ⟨htexts.1, htexts.2.2⟩
  · rintro ⟨hline, hcol⟩
    rw [Tape.anonFnForToken, Tape.anonFnForToken, hline, hcol]

namespace Lexer

end Lexer

/-! ## Continued lines -/

/-- The tokens of a line without its ends. -/
def LineInfo.tokens (li : LineInfo) (escapeCharacters : Bool) : List Token :=
  ((li.words escapeCharacters).1.filter fun w => w.type != .ENDLINE).map
    (LineWord.token li.lineNum)

/-- A backslash is the last token of the line. -/
def LineInfo.continued (li : LineInfo) (escapeCharacters : Bool) : Prop :=
  (li.tokens escapeCharacters).getLast?.map Token.type = some .BSLASH

namespace Lexer

/-- What continued lines are for: the call stays on the lines, and puts their tokens without the
backslashes behind the queue, with one end at most. -/
def Joins (lexer : Lexer) (conts : List LineInfo) (last : LineInfo) (lexed : Lexed) : Prop :=
  lexed.ending.isDone = true ∧ ∃ ends : List Token, ends.length ≤ 1 ∧ (∀ tok ∈ ends, tok.type = .ENDLINE) ∧
    lexed.lexer.q = lexer.q ++ conts.flatMap (fun li => (li.tokens lexer.escapeCharacters).dropLast) ++
      last.tokens lexer.escapeCharacters ++ ends

section

variable {p : Token → Bool}

theorem countP_addWords {lexNext : Lexer → Lexed} {lineNum : Int}
    (hnext : ∀ lexer : Lexer,
      (∀ li ∈ lexer.fi, ∀ tok : Token, tok.line = li.lineNum → p tok = false) →
      (lexNext lexer).lexer.q.countP p ≤ lexer.q.countP p ∧ (lexNext lexer).lexer.fi ⊆ lexer.fi)
    (hline : ∀ tok : Token, tok.line = lineNum → p tok = false) (ws : List LineWord) (lexer : Lexer)
    (hp : ∀ li ∈ lexer.fi, ∀ tok : Token, tok.line = li.lineNum → p tok = false) :
    (addWords List.tail lexNext lineNum ws lexer).lexer.q.countP p ≤ lexer.q.countP p := by
  have hkeeps := @addWords_keeps List.tail lexNext lineNum
    (fun l => l.q.countP p ≤ lexer.q.countP p ∧ l.fi ⊆ lexer.fi) (fun _ => True) trivial
    (fun l w hl => by
      have hnew : p (w.token lineNum) = false := hline _ rfl
      refine ⟨?_, hl.2⟩
      rw [enqueue, List.countP_append, List.countP_singleton, hnew]
      exact hl.1)
    (fun l hl => ⟨(List.tail_sublist l.q).countP_le.trans hl.1, hl.2⟩)
    (fun l hl => by
      obtain ⟨hcount, hfi⟩ := hnext l fun li hli => hp li (hl.2 hli)
      exact ⟨trivial, hcount.trans hl.1, List.Subset.trans hfi hl.2⟩)
    ws lexer ⟨Nat.le_refl _, List.Subset.refl _⟩
  exact hkeeps.2.1

/-- Calls for lines whose tokens do not count never make the count of the queue larger. -/
theorem countP_lexLines {n : Nat} {lexer : Lexer}
    (hp : ∀ li ∈ lexer.fi, ∀ tok : Token, tok.line = li.lineNum → p tok = false) :
    (lexLines List.tail n lexer).lexer.q.countP p ≤ lexer.q.countP p := by
  induction n generalizing lexer with
  | zero => exact Nat.le_refl _
  | succ n ih =>
    cases hfi : lexer.fi with
    | nil =>
      rw [lexLines_nil hfi]
    | cons li fi =>
      rw [hfi] at hp
      rw [(lexLines_cons hfi).1]
      exact countP_addWords (fun l hl => ⟨ih hl, (lexLines_fi n l).1.subset⟩)
        (hp li List.mem_cons_self) _ { lexer with fi := fi }
        fun l hl => hp l (List.mem_cons_of_mem li hl)

/-- At the end of a continued line the oldest token goes. -/
theorem countP_lexLine_continued {lexer : Lexer} {li : LineInfo} {fi : List LineInfo}
    (hfi : lexer.fi = li :: fi) (hcont : li.continued lexer.escapeCharacters)
    (hp : ∀ li ∈ lexer.fi, ∀ tok : Token, tok.line = li.lineNum → p tok = false)
    (hq : lexer.q ≠ []) (hdone : (lexLine List.tail lexer).ending.isDone = true) :
    (lexLine List.tail lexer).lexer.q.countP p < lexer.q.length := by
  have hscans := li.scans_words lexer.escapeCharacters
  obtain ⟨words, ends, hws, hwords, hends⟩ := hscans.parts
  rw [lexLine, hfi] at hdone ⊢
  have hclosed := closed_of_lexLines_done hfi hdone
  have hends_ne : ends ≠ [] := by
    obtain ⟨w, hw, hend⟩ := hscans.ends_of_done ((li.words_done_iff _).mpr hclosed)
    intro hnil
    rw [hws, hnil, List.append_nil] at hw
    exact hwords w hw hend
  obtain ⟨w, ends, rfl⟩ := List.exists_cons_of_ne_nil hends_ne
  have hfilter : (words ++ w :: ends).filter (fun w => w.type != .ENDLINE) = words := by
    rw [List.filter_append, List.filter_eq_self.mpr fun w hw => by simpa using hwords w hw,
      List.filter_eq_nil_iff.mpr fun w hw => by simp [(hends w hw).1], List.append_nil]
  rw [LineInfo.continued, LineInfo.tokens, hws, hfilter] at hcont
  rw [List.length_cons, (lexLines_cons hfi).1, hws, addWords_append hwords]
  generalize htoks : words.map (LineWord.token li.lineNum) = toks at hcont
  have htoks_ne : toks ≠ [] := by
    rintro rfl
    cases hcont
  have hnew : toks.countP p = 0 := by
    rw [List.countP_eq_zero, ← htoks]
    intro tok htok
    obtain ⟨w, -, rfl⟩ := List.mem_map.mp htok
    rw [hp li (hfi ▸ List.mem_cons_self) _ rfl]
    exact Bool.false_ne_true
  have hbslash : (w.type == .ENDLINE &&
      (({ lexer with fi := fi } : Lexer).enqueueAll toks).lastIs .BSLASH) = true := by
    rw [(hends w List.mem_cons_self).1, lastIs, enqueueAll, List.getLast?_append_of_ne_nil _ htoks_ne,
      hcont]
    rfl
  have hcount : ((lexer.q ++ toks).tail).countP p < lexer.q.length := by
    rw [List.tail_append_of_ne_nil hq, List.countP_append, hnew, Nat.add_zero]
    have hle : lexer.q.tail.countP p ≤ lexer.q.tail.length := List.countP_le_length
    have hpos : 0 < lexer.q.length := List.length_pos_iff.mpr hq
    rw [List.length_tail] at hle
    omega
  have hp_rest : ∀ l ∈ fi, ∀ tok : Token, tok.line = l.lineNum → p tok = false :=
    fun l hl => hp l (hfi ▸ List.mem_cons_of_mem li hl)
  rw [addWords, if_pos hbslash]
  dsimp only
  generalize hlexed : lexLines List.tail fi.length _ = lexed
  have hnested : lexed.lexer.q.countP p ≤ ((lexer.q ++ toks).tail).countP p := by
    rw [← hlexed]
    exact countP_lexLines hp_rest
  have hsub : lexed.lexer.fi ⊆ fi := by
    rw [← hlexed]
    exact (lexLines_fi _ _).1.subset
  split
  · have hafter := countP_addWords (fun l hl => ⟨countP_lexLines hl, (lexLines_fi fi.length l).1.subset⟩)
      (hp li (hfi ▸ List.mem_cons_self)) ends lexed.lexer fun l hl => hp_rest l (hsub hl)
    exact (hafter.trans hnested).trans_lt hcount
  · exact hnested.trans_lt hcount

/-- The queue only holds tokens that were created. -/
theorem queue_created {fi : List LineInfo} {escapeCharacters : Bool} {lexer : Lexer}
    (hrun : Runs (step List.tail) (start fi escapeCharacters) lexer) : lexer.q ⊆ lexer.created := by
  have hcall : ∀ n (lexer : Lexer), lexer.q ⊆ lexer.created →
      (lexLines List.tail n lexer).lexer.q ⊆ (lexLines List.tail n lexer).lexer.created := by
    intro n
    induction n with
    | zero => exact fun lexer h => h
    | succ n ih =>
      intro lexer h
      cases hfi : lexer.fi with
      | nil =>
        rw [lexLines_nil hfi]
        exact h
      | cons li fi =>
        have hkeeps := @addWords_keeps List.tail (lexLines List.tail n) li.lineNum
          (fun l => l.q ⊆ l.created) (fun _ => True) trivial
          (fun l w hl => List.append_subset.mpr ⟨List.subset_append_of_subset_left _ hl,
            List.subset_append_right _ _⟩)
          (fun l hl => List.Subset.trans (List.tail_subset l.q) hl) (fun l hl => ⟨trivial, ih l hl⟩)
          (li.words lexer.escapeCharacters).1 { lexer with fi := fi } h
        rw [(lexLines_cons hfi).1]
        exact hkeeps.2
  apply hrun.invariant ?_ (List.Subset.refl [])
  intro lexer act lexer' h _ hstep
  cases act with
  | lexLine =>
    cases hstep
    exact hcall _ lexer h
  | edit q =>
    rw [step] at hstep
    split at hstep
    · rename_i hq
      cases hstep
      exact hq
    · cases hstep

/-- A queue that holds a token loses one of its own to a continued line: in every state the parser
can reach, whatever the lines are, they are not joined. -/
theorem not_joins {fi : List LineInfo} {escapeCharacters : Bool} {lexer : Lexer}
    (hlines : (fi.map LineInfo.lineNum).Nodup)
    (hrun : Runs (step List.tail) (start fi escapeCharacters) lexer) (hq : lexer.q ≠ [])
    {conts rest : List LineInfo} {last : LineInfo} (hfi : lexer.fi = conts ++ last :: rest)
    (hconts : conts ≠ []) (hcont : ∀ li ∈ conts, li.continued lexer.escapeCharacters) :
    ¬ lexer.Joins conts last (lexLine List.tail lexer) := by
  obtain ⟨li, conts, rfl⟩ := List.exists_cons_of_ne_nil hconts
  have hfresh := fresh_runs hlines hrun
  let p : Token → Bool := fun tok => decide (∀ li ∈ lexer.fi, tok.line ≠ li.lineNum)
  have hp : ∀ li ∈ lexer.fi, ∀ tok : Token, tok.line = li.lineNum → p tok = false :=
    fun li hli tok hline => decide_eq_false fun hall => hall li hli hline
  have hold : ∀ tok ∈ lexer.q, p tok = true := fun tok htok =>
    decide_eq_true (hfresh.unread tok (queue_created hrun htok))
  rintro ⟨hdone, ends, -, -, hjoined⟩
  have hlost := countP_lexLine_continued hfi (hcont li List.mem_cons_self) hp hq hdone
  rw [hjoined, List.append_assoc, List.append_assoc, List.countP_append,
    List.countP_eq_length.mpr hold] at hlost
  omega

/-- `x`, a backslash and `y` on lines of their own, the first line read. -/
def backslashLine (x backslash y : LineInfo) : Lexer :=
  (lexLine List.tail (start [x, backslash, y] true)).lexer

theorem not_joins_backslash : ∃ x backslash y,
    ¬ (backslashLine x backslash y).Joins [backslash] y
      (lexLine List.tail (backslashLine x backslash y)) := by
  refine ⟨⟨['x', '\n'], 1, by decide, by decide⟩, ⟨['\\', '\n'], 2, by decide, by decide⟩,
    ⟨['y', '\n'], 3, by decide, by decide⟩, ?_⟩
  have hcont : ∀ li ∈ ([⟨['\\', '\n'], 2, by decide, by decide⟩] : List LineInfo),
      li.continued true := by
    intro li hli
    rw [List.mem_singleton.mp hli]
    rfl
  exact @not_joins _ true _ (by decide) (.single (l := .lexLine) trivial rfl) (by decide) _ [] _ rfl
    (List.cons_ne_nil _ _) hcont

/-- The backslash stays in the queue and `x` is lost. -/
theorem not_all_joins : ¬ ∀ (fi : List LineInfo) (escapeCharacters : Bool) (lexer : Lexer)
    (conts rest : List LineInfo) (last : LineInfo), (fi.map LineInfo.lineNum).Nodup →
    Runs (step List.tail) (start fi escapeCharacters) lexer → lexer.q ≠ [] →
    lexer.fi = conts ++ last :: rest → conts ≠ [] →
    (∀ li ∈ conts, li.continued lexer.escapeCharacters) →
    lexer.Joins conts last (lexLine List.tail lexer) := by
  intro hall
  have hcont : ∀ li ∈ ([⟨['\\', '\n'], 2, by decide, by decide⟩] : List LineInfo),
      li.continued true := by
    intro li hli
    rw [List.mem_singleton.mp hli]
    rfl
  obtain ⟨-, ends, -, -, hjoined⟩ := hall [⟨['x', '\n'], 1, by decide, by decide⟩,
    ⟨['\\', '\n'], 2, by decide, by decide⟩, ⟨['y', '\n'], 3, by decide, by decide⟩] true _
    [⟨['\\', '\n'], 2, by decide, by decide⟩] [] ⟨['y', '\n'], 3, by decide, by decide⟩ (by decide)
    (.single (l := .lexLine) trivial rfl) (by decide) rfl (List.cons_ne_nil _ _) hcont
  have hheads := congrArg (fun q : List Token => q.head?.map Token.type) hjoined
  rw [List.append_assoc, List.append_assoc, List.head?_append_of_ne_nil _ (by decide)] at hheads
  cases hheads

end

end Lexer

end JeffVm
