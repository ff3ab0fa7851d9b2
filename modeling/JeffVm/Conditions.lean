import JeffVm.Chains
import JeffVm.Termination

/-!
# A block behind a condition

The rule for a condition stops in front of the block that is its body, unless it asks for a block
itself: for the one of a function without a name, or for a map. Two runs are compared, one with a
newline behind the condition and one with the block.
-/

set_option autoImplicit false

namespace JeffVm

open Backtracking

/-! ## Empty queues -/

theorem results_epsilon : Results parserRules syntaxBuilder fun _ t =>
    t.isEpsilon = true ∨ t.leaves ≠ [] where
  token t := .inr (List.cons_ne_nil t [])
  epsilon := .inl rfl
  rule r t h := by
    rw [syntaxBuilder, leaves_setExpression]
    refine h.imp_left fun ht => ?_
    cases t <;> exact ht
  left e1 e2 t h := h
  right e1 e2 t h := h
  opt e t h := h
  missing e := .inl rfl
  merge e1 e2 a c q m q' h1 h2 hm := by
    have hmerge : matchMerge a (some c) q = (some m, q') := hm
    obtain ⟨heq, -⟩ | ⟨heq, -⟩ | ⟨heq, ⟨ha, -⟩, -⟩ := matchMerge_cases a c q
    · rw [heq] at hmerge
      cases hmerge
      exact h1
    · rw [heq] at hmerge
      cases hmerge
      exact h2
    · rw [heq] at hmerge
      cases hmerge
      have hleaves : a.leaves ≠ [] := h1.resolve_left (by rw [ha]; exact Bool.false_ne_true)
      exact .inr (List.append_ne_nil_of_left_ne_nil hleaves _)
  rollback a q m q' h := by cases h

/-- On an empty queue nothing but an epsilon is found. -/
theorem parse_nil {n : Nat} {e : Exp TokenType Rule} {m : Option SyntaxTree} {q : List Token}
    (h : parse parserRules syntaxBuilder n e [] = some (m, q)) :
    q = [] ∧ ∀ t, m = some t → t.isEpsilon = true := by
  have hle := syntaxBuilder_measured.held_le h
  cases m with
  | none => exact ⟨List.length_eq_zero_iff.mp (Nat.le_zero.mp hle), by rintro t ⟨⟩⟩
  | some t =>
    have hzero : t.leaves.length + q.length = 0 := Nat.le_zero.mp hle
    obtain ⟨ht, hq⟩ := Nat.add_eq_zero_iff.mp hzero
    refine ⟨List.length_eq_zero_iff.mp hq, ?_⟩
    rintro t' ⟨⟩
    exact (results_epsilon.parse h).resolve_right (not_not.mpr (List.length_eq_zero_iff.mp ht))

/-! ## Two runs -/

/-- Nothing is left but the newline `line`. -/
def AtEnd (line : Token) (q : List Token) : Bool := q = [] || q = [line]

/-- Calls that are answered alike whatever stands behind the condition: an optional newline, and
a map at its end. -/
def stopsAt (line : Token) : Exp TokenType Rule → List Token → Bool
  | .opt (.type .ENDLINE), _ => true
  | .rule .mapDeclaration, q => AtEnd line q
  | _, _ => false

/-- The queue `q1` ends where `q2` goes on with one of the blocks `V`. -/
def Beside (line : Token) (V : Set (List Token)) (q1 q2 : List Token) : Prop :=
  ∃ u, ∃ v ∈ V, q2 = u ++ v ∧ (q1 = u ++ [line] ∨ q1 = u)

/-- The runs have the same result, or one has read the newline that the other has not seen. -/
inductive Alike (line : Token) (V : Set (List Token)) :
    Option SyntaxTree → List Token → Option SyntaxTree → List Token → Prop
  | same {m : Option SyntaxTree} {q1 q2 : List Token} (h : Beside line V q1 q2) : Alike line V m q1 m q2
  | newline {name name' : Option Rule} {v : List Token} (h : v ∈ V) :
      Alike line V (some (.leaf line name)) [] (some (.epsilon name')) v

/-- What the run of `e` on `q` asks at the end of the queue has the same answer for the blocks. -/
structure Quiet (line : Token) (V : Set (List Token)) (s : Exp TokenType Rule × List Token) : Prop where
  type : ∀ k q, AtEnd line q = true →
    Reaches parserRules syntaxBuilder (stopsAt line) s (.type k, q) → k ≠ .LBRCE ∧ k ≠ .ENDLINE
  map : ∀ q, AtEnd line q = true →
    Reaches parserRules syntaxBuilder (stopsAt line) s (.rule .mapDeclaration, q) →
      ∀ v ∈ V, ∃ v' ∈ V, Rule.mapDeclaration.Parses v none v'

section

variable {line : Token} {V : Set (List Token)} {e e1 e2 : Exp TokenType Rule}
  {q q1 q2 q1' q2' : List Token} {m m2 : Option SyntaxTree} {t : SyntaxTree}

theorem Quiet.call {s s' : Exp TokenType Rule × List Token} (h : Quiet line V s)
    (hstop : stopsAt line s.1 s.2 = false) (hcall : Calls parserRules syntaxBuilder (fun _ => True) s s') :
    Quiet line V s' where
  type k q hq hreach := h.type k q hq (.head ⟨hstop, hcall⟩ hreach)
  map q hq hreach := h.map q hq (.head ⟨hstop, hcall⟩ hreach)

theorem Beside.append (h : Beside line V q1 q2) (w : List Token) :
    Beside line V (w ++ q1) (w ++ q2) := by
  obtain ⟨u, v, hv, rfl, hq1⟩ := h
  refine ⟨w ++ u, v, hv, (List.append_assoc ..).symm, ?_⟩
  rcases hq1 with rfl | rfl
  · exact .inl (List.append_assoc ..).symm
  · exact .inr rfl

theorem Beside.here {v : List Token} (hv : v ∈ V) (hq : AtEnd line q = true) :
    Beside line V q v := by
  refine ⟨[], v, hv, rfl, ?_⟩
  rw [AtEnd, Bool.or_eq_true, decide_eq_true_eq, decide_eq_true_eq] at hq
  exact hq.symm

/-- Either there is a token in front of both queues, or one has ended and the other begins with
a block. -/
theorem Beside.cases_front (h : Beside line V q1 q2) :
    (∃ token q1' q2', q1 = token :: q1' ∧ q2 = token :: q2' ∧ Beside line V q1' q2') ∨
      (AtEnd line q1 = true ∧ q2 ∈ V) := by
  obtain ⟨u, v, hv, rfl, hq1⟩ := h
  cases u with
  | nil =>
    refine .inr ⟨?_, hv⟩
    rcases hq1 with rfl | rfl <;> simp [AtEnd]
  | cons token u =>
    refine .inl ⟨token, ?_⟩
    rcases hq1 with rfl | rfl
    · exact ⟨u ++ [line], u ++ v, rfl, rfl, u, v, hv, rfl, .inl rfl⟩
    · exact ⟨u, u ++ v, rfl, rfl, u, v, hv, rfl, .inr rfl⟩

theorem Beside.of_nil (h : Beside line V [] q2) : q2 ∈ V := by
  obtain ⟨u, v, hv, rfl, hq1⟩ := h
  rcases hq1 with hq1 | rfl
  · cases u <;> cases hq1
  · exact hv

theorem Beside.rollback (h : Beside line V q1 q2) (t : SyntaxTree) :
    Beside line V (matchRollback t q1) (matchRollback t q2) := by
  rw [matchRollback_eq, matchRollback_eq]
  exact h.append t.leaves

theorem Alike.name (h : Alike line V m q1 m2 q2) (r : Rule) :
    Alike line V (m.map (SyntaxTree.setExpression r)) q1 (m2.map (SyntaxTree.setExpression r)) q2 := by
  cases h with
  | same h => exact .same h
  | newline h => exact .newline h

theorem alike_optional_newline (hline : line.type = .ENDLINE)
    (hV : ∀ v ∈ V, ∀ token ∈ v.head?, token.type = .LBRCE) (hq : Beside line V q1 q2) {n : Nat}
    (h : parse parserRules syntaxBuilder n (.opt (.type .ENDLINE)) q1 = some (m, q1')) :
    ∃ m2 q2', Matches parserRules syntaxBuilder (.opt (.type .ENDLINE)) q2 m2 q2' ∧
      Alike line V m q1' m2 q2' := by
  have hm : Matches parserRules syntaxBuilder (.opt (.type .ENDLINE)) q1 m q1' := ⟨n, h⟩
  obtain ⟨token, p1, p2, rfl, rfl, hp⟩ | ⟨hend, hv⟩ := hq.cases_front
  · by_cases htype : token.type = .ENDLINE
    · have hread : ∀ p, Matches parserRules syntaxBuilder (.opt (.type .ENDLINE)) (token :: p)
          (some (.leaf token none)) p :=
        fun p => matches_opt.mpr (.inl ⟨_, .type htype, rfl⟩)
      obtain ⟨rfl, rfl⟩ := hm.unique (hread p1)
      exact ⟨_, p2, hread p2, .same hp⟩
    · have hnone : ∀ p, Matches parserRules syntaxBuilder (.opt (.type .ENDLINE)) (token :: p)
          (some (.epsilon none)) (token :: p) := by
        intro p
        refine matches_opt.mpr (.inr ⟨.type_fail ?_, rfl⟩)
        rintro t ⟨⟩
        exact htype
      obtain ⟨rfl, rfl⟩ := hm.unique (hnone p1)
      exact ⟨_, _, hnone p2, .same hq⟩
  · have hblock : Matches parserRules syntaxBuilder (.opt (.type .ENDLINE)) q2
        (some (.epsilon none)) q2 := by
      refine matches_opt.mpr (.inr ⟨.type_fail fun t ht => ?_, rfl⟩)
      have htype : t.type = .LBRCE := hV q2 hv t ht
      simp [parserRules, htype]
    rw [AtEnd, Bool.or_eq_true, decide_eq_true_eq, decide_eq_true_eq] at hend
    rcases hend with rfl | rfl
    · have hnone : Matches parserRules syntaxBuilder (.opt (.type .ENDLINE)) []
          (some (.epsilon none)) [] := by
        refine matches_opt.mpr (.inr ⟨.type_fail ?_, rfl⟩)
        rintro t ⟨⟩
      obtain ⟨rfl, rfl⟩ := hm.unique hnone
      exact ⟨_, q2, hblock, .same hq⟩
    · have hread : Matches parserRules syntaxBuilder (.opt (.type .ENDLINE)) [line]
          (some (.leaf line none)) [] := matches_opt.mpr (.inl ⟨_, .type hline, rfl⟩)
      obtain ⟨rfl, rfl⟩ := hm.unique hread
      exact ⟨_, q2, hblock, .newline hv⟩

theorem merge_some (a c : SyntaxTree) : ∃ t, ∀ q, matchMerge a (some c) q = (some t, q) := by
  simp only [matchMerge]
  split_ifs
  · exact ⟨a, fun q => rfl⟩
  · exact ⟨c, fun q => rfl⟩
  · exact ⟨a, fun q => rfl⟩
  · exact ⟨c, fun q => rfl⟩
  · exact ⟨_, fun q => rfl⟩

theorem alike_merge_same (hline : line.type = .ENDLINE) (a : SyntaxTree)
    (h : Alike line V m q1 m2 q2) : ∃ r r2 p1 p2, matchMerge a m q1 = (r, p1) ∧
      matchMerge a m2 q2 = (r2, p2) ∧ Alike line V r p1 r2 p2 := by
  cases h with
  | same h =>
    cases m with
    | none => exact ⟨none, none, _, _, rfl, rfl, .same (h.rollback a)⟩
    | some c =>
      obtain ⟨t, ht⟩ := merge_some a c
      exact ⟨some t, some t, q1, q2, ht q1, ht q2, .same h⟩
  | newline hv =>
    cases ha : a.isEpsilon with
    | true =>
      cases a with
      | leaf token name => cases ha
      | node first second name => cases ha
      | epsilon name'' => exact ⟨_, _, [], q2, rfl, rfl, .newline hv⟩
    | false =>
      refine ⟨some a, some a, [], q2, ?_, rfl, .same (.here hv rfl)⟩
      have hnewline : ∀ name, (SyntaxTree.leaf line name).isNewline = true :=
        fun name => decide_eq_true hline
      rw [matchMerge, ha, hnewline]
      rfl

/-- The first part of one pair is the newline that the other run has not seen. -/
theorem alike_merge_newline {name name' : Option Rule} (hm : ∀ t, m = some t → t.isEpsilon = true)
    (h : Alike line V m [] m2 q2) :
    ∃ r r2 p1 p2, matchMerge (.leaf line name) m [] = (r, p1) ∧
      matchMerge (.epsilon name') m2 q2 = (r2, p2) ∧ Alike line V r p1 r2 p2 := by
  cases h with
  | same h =>
    have hv : q2 ∈ V := h.of_nil
    cases m with
    | none =>
      refine ⟨none, none, [line], q2, rfl, rfl, .same (.here hv ?_)⟩
      simp [AtEnd]
    | some c =>
      have hc : c.isEpsilon = true := hm c rfl
      refine ⟨some (.leaf line name), some (.epsilon name'), [], q2, ?_, ?_, .newline hv⟩
      · rw [matchMerge, if_pos hc]
      · rw [matchMerge, if_pos hc]
  | newline hv => exact absurd (hm _ rfl) Bool.false_ne_true

theorem map_atEnd (hline : line.type = .ENDLINE) (hq : AtEnd line q = true) :
    Rule.mapDeclaration.Parses q none q := by
  rw [AtEnd, Bool.or_eq_true, decide_eq_true_eq, decide_eq_true_eq] at hq
  rcases hq with rfl | rfl
  · exact Matches.reject_nil (k := .ENDLINE) 120 (by decide)
  · refine Matches.reject 120 ?_
    have hkind : parserRules.kind line = .ENDLINE := hline
    rw [hkind]
    decide

/-- Where a newline ends one queue and a block begins on the other, a map is found on neither. -/
theorem alike_map (hline : line.type = .ENDLINE) (hq : Beside line V q1 q2)
    (hend : AtEnd line q1 = true)
    (hmap : ∀ v ∈ V, ∃ v' ∈ V, Rule.mapDeclaration.Parses v none v') :
    ∃ q2', Rule.mapDeclaration.Parses q2 none q2' ∧ Beside line V q1 q2' := by
  obtain ⟨token, p1, p2, rfl, rfl, hp⟩ | ⟨-, hv⟩ := hq.cases_front
  · refine ⟨token :: p2, ?_, hq⟩
    have htoken : token = line := by
      rw [AtEnd, Bool.or_eq_true, decide_eq_true_eq, decide_eq_true_eq] at hend
      rcases hend with hend | hend
      · cases hend
      · cases hend
        rfl
    refine Matches.reject 120 ?_
    have hkind : parserRules.kind token = .ENDLINE := htoken ▸ hline
    rw [hkind]
    decide
  · obtain ⟨v', hv', hfail⟩ := hmap q2 hv
    exact ⟨v', hfail, .here hv' hend⟩

/-- The two runs go the same way. The induction is on the fuel; only at the end of the queue do the
runs see different tokens, and there `Quiet` says what is asked. -/
theorem runs_alike (hline : line.type = .ENDLINE)
    (hV : ∀ v ∈ V, ∀ token ∈ v.head?, token.type = .LBRCE) {n : Nat} :
    ∀ {e : Exp TokenType Rule} {q1 q2 q1' : List Token} {m : Option SyntaxTree},
      parse parserRules syntaxBuilder n e q1 = some (m, q1') → Beside line V q1 q2 →
        Quiet line V (e, q1) → ∃ m2 q2', Matches parserRules syntaxBuilder e q2 m2 q2' ∧
          Alike line V m q1' m2 q2' := by
  induction n with
  | zero => intro e q1 q2 q1' m h; cases h
  | succ n ih =>
    intro e q1 q2 q1' m h hq hquiet
    by_cases hstop : stopsAt line e q1 = true
    · unfold stopsAt at hstop
      split at hstop
      · exact alike_optional_newline hline hV hq h
      · obtain ⟨q2', hfail, hq'⟩ := alike_map hline hq hstop (hquiet.map _ hstop .refl)
        obtain ⟨rfl, rfl⟩ := Matches.unique ⟨_, h⟩ (map_atEnd hline hstop)
        exact ⟨none, q2', hfail, .same hq'⟩
      · cases hstop
    · rw [Bool.not_eq_true] at hstop
      cases e with
      | type k =>
        obtain ⟨token, p1, p2, rfl, rfl, hp⟩ | ⟨hend, hv⟩ := hq.cases_front
        · obtain ⟨rfl, rfl, hne⟩ | ⟨token', heq, hk, rfl⟩ := type_cases h
          · exact ⟨none, token :: p2, .type_fail hne, .same hq⟩
          · cases heq
            exact ⟨_, p2, .type hk, .same hp⟩
        · obtain ⟨hbrace, hendline⟩ := hquiet.type k q1 hend .refl
          have hfail1 : Matches parserRules syntaxBuilder (.type k) q1 none q1 := by
            refine .type_fail fun token htoken => ?_
            rw [AtEnd, Bool.or_eq_true, decide_eq_true_eq, decide_eq_true_eq] at hend
            rcases hend with rfl | rfl
            · cases htoken
            · cases htoken
              exact fun hk => hendline (hk.symm.trans hline)
          obtain ⟨rfl, rfl⟩ := Matches.unique ⟨_, h⟩ hfail1
          refine ⟨none, q2, .type_fail fun token htoken => ?_, .same hq⟩
          exact fun hk => hbrace (hk.symm.trans (hV q2 hv token htoken))
      | rule r =>
        obtain ⟨m', hbody, rfl⟩ := rule_cases h
        obtain ⟨m2, q2', h2, halike⟩ := ih hbody hq (hquiet.call hstop (.body r q1))
        exact ⟨_, q2', h2.rule, halike.name r⟩
      | or2 e1 e2 =>
        obtain ⟨a, h1, rfl⟩ | ⟨p1, h1, h2⟩ := or2_cases h
        · obtain ⟨m2, q2', h2, halike⟩ := ih h1 hq (hquiet.call hstop (.or2First e1 e2 q1))
          cases halike with
          | same hq' => exact ⟨_, q2', h2.or2_left, .same hq'⟩
          | newline hv => exact ⟨_, q2', h2.or2_left, .newline hv⟩
        · obtain ⟨m2, p2, hfail, halike⟩ := ih h1 hq (hquiet.call hstop (.or2First e1 e2 q1))
          cases halike with
          | same hp =>
            obtain ⟨m2, q2', hsecond, halike⟩ :=
              ih h2 hp (hquiet.call hstop (.or2Second e1 e2 q1 p1 ⟨n, h1⟩))
            exact ⟨m2, q2', .or2_right hfail hsecond, halike⟩
      | and2 e1 e2 =>
        obtain ⟨h1, rfl⟩ | ⟨a, p1, c, p3, h1, h2, hm⟩ := and2_cases h
        · obtain ⟨m2, p2, hfail, halike⟩ := ih h1 hq (hquiet.call hstop (.and2First e1 e2 q1))
          cases halike with
          | same hp => exact ⟨none, p2, .and2_fail hfail, .same hp⟩
        · obtain ⟨m2, p2, hfirst, halike⟩ := ih h1 hq (hquiet.call hstop (.and2First e1 e2 q1))
          have hquiet2 := hquiet.call hstop (.and2Second e1 e2 q1 p1 a ⟨n, h1⟩ trivial)
          cases halike with
          | same hp =>
            obtain ⟨c2, p4, hsecond, halike⟩ := ih h2 hp hquiet2
            obtain ⟨r, r2, w1, w2, hm1, hm2, hr⟩ := alike_merge_same hline a halike
            obtain ⟨rfl, rfl⟩ := Prod.mk.inj (hm1.symm.trans hm)
            exact ⟨r2, w2, .and2 hfirst hsecond hm2, hr⟩
          | newline hv =>
            obtain ⟨rfl, hepsilon⟩ := parse_nil h2
            obtain ⟨c2, p4, hsecond, halike⟩ := ih h2 (.here hv rfl) hquiet2
            obtain ⟨r, r2, w1, w2, hm1, hm2, hr⟩ := alike_merge_newline hepsilon halike
            obtain ⟨rfl, rfl⟩ := Prod.mk.inj (hm1.symm.trans hm)
            exact ⟨r2, w2, .and2 hfirst hsecond hm2, hr⟩
      | opt e =>
        obtain ⟨a, h1, rfl⟩ | ⟨h1, rfl⟩ := opt_cases h
        · obtain ⟨m2, q2', h2, halike⟩ := ih h1 hq (hquiet.call hstop (.opt e q1))
          cases halike with
          | same hq' => exact ⟨_, q2', matches_opt.mpr (.inl ⟨a, h2, rfl⟩), .same hq'⟩
          | newline hv => exact ⟨_, q2', matches_opt.mpr (.inl ⟨_, h2, rfl⟩), .newline hv⟩
        · obtain ⟨m2, q2', h2, halike⟩ := ih h1 hq (hquiet.call hstop (.opt e q1))
          cases halike with
          | same hq' => exact ⟨_, q2', matches_opt.mpr (.inr ⟨h2, rfl⟩), .same hq'⟩
      | epsilon =>
        obtain ⟨rfl, rfl⟩ := epsilon_cases h
        exact ⟨_, q2, .epsilon, .same hq⟩

end

/-! ## Conditions -/

def Rule.AsksBehind (p : Rule) (line : Token) (e : List Token) (k : TokenType) : Prop :=
  ∃ q, AtEnd line q = true ∧
    Reaches parserRules syntaxBuilder (stopsAt line) (.rule p, e ++ [line]) (.type k, q)

def Rule.TriesMapBehind (p : Rule) (line : Token) (e : List Token) : Prop :=
  ∃ q, AtEnd line q = true ∧
    Reaches parserRules syntaxBuilder (stopsAt line) (.rule p, e ++ [line]) (.rule .mapDeclaration, q)

/-- What is left of the queue `b` when it has been tried as a map some times. -/
inductive AfterMaps (b : List Token) : List Token → Prop
  | here : AfterMaps b b
  | again {v v' : List Token} (h : AfterMaps b v) (hfail : Rule.mapDeclaration.Parses v none v') :
      AfterMaps b v'

/-- Reading `e`, the rule `p` asks for no block behind it. Where it asks for a map, the block `b`
is none, and is still there after that. -/
structure LeavesBlock (p : Rule) (line : Token) (e b : List Token) (body : SyntaxTree)
    (rest : List Token) : Prop where
  block : ¬ p.AsksBehind line e .LBRCE
  newline : ¬ p.AsksBehind line e .ENDLINE
  map : p.TriesMapBehind line e → ∀ v, AfterMaps b v →
    (∃ v', Rule.mapDeclaration.Parses v none v') ∧
      Rule.compoundStatement.Parses v (some body) rest

def withElse (body : SyntaxTree) : Option SyntaxTree → SyntaxTree
  | none => body
  | some elses => .node body elses none

def ifTree (word : Token) (condition body : SyntaxTree) (elses : Option SyntaxTree) : SyntaxTree :=
  .node (.leaf word none) (.node condition (withElse body elses) none) (some .selectionStatement)

def whileTree (word : Token) (condition body : SyntaxTree) : SyntaxTree :=
  .node (.node (.leaf word none) condition none) body (some .whileStatement)

/-- `selection_statement` reads the condition and the block `b` as the body. -/
def IfTakes (word : Token) (e b : List Token) (condition body : SyntaxTree) : Prop :=
  ∃ elses rest, Rule.selectionStatement.Parses (word :: (e ++ b))
    (some (ifTree word condition body elses)) rest

/-- `while_statement` reads all of `e` as its condition and the block `b` as its body. -/
def WhileTakes (word : Token) (e b : List Token) (body : SyntaxTree) : Prop :=
  ∃ condition rest, Rule.whileStatement.Parses (word :: (e ++ b))
    (some (whileTree word condition body)) rest ∧ significant condition.leaves = significant e

section

variable {p : Rule} {line word : Token} {e b q rest v : List Token} {t body : SyntaxTree}
  {m : Option SyntaxTree}

def blocksBehind (p : Rule) (line : Token) (e b : List Token) : Set (List Token) :=
  {v | v = b ∨ p.TriesMapBehind line e ∧ AfterMaps b v}

theorem compound_head (h : Rule.compoundStatement.Parses v (some body) rest) :
    ∃ lbrce r, v = lbrce :: r ∧ lbrce.type = .LBRCE := by
  cases v with
  | nil =>
    have hfail : Rule.compoundStatement.Parses [] none [] :=
      Matches.reject_nil (k := .ENDLINE) 120 (by decide)
    obtain ⟨hm, -⟩ := parses_unique h hfail
    cases hm
  | cons lbrce r =>
    refine ⟨lbrce, r, rfl, ?_⟩
    by_contra hne
    have hfail : Rule.compoundStatement.Parses (lbrce :: r) none (lbrce :: r) := by
      refine Matches.reject 6 ?_
      have haccepts : (Exp.rule Rule.compoundStatement).accepts Rule.body lbrce.type 6 =
          (decide (TokenType.LBRCE = lbrce.type) || decide (TokenType.LBRCE = lbrce.type)) := rfl
      exact haccepts.trans (by simp [Ne.symm hne])
    obtain ⟨hm, -⟩ := parses_unique h hfail
    cases hm

theorem LeavesBlock.body_of_mem (h : LeavesBlock p line e b body rest)
    (hb : Rule.compoundStatement.Parses b (some body) rest) (hv : v ∈ blocksBehind p line e b) :
    Rule.compoundStatement.Parses v (some body) rest := by
  rcases hv with rfl | ⟨hmap, hv⟩
  · exact hb
  · exact (h.map hmap v hv).2

theorem LeavesBlock.quiet (h : LeavesBlock p line e b body rest) :
    Quiet line (blocksBehind p line e b) (.rule p, e ++ [line]) where
  type k q hq hreach :=
    ⟨fun hk => h.block ⟨q, hq, hk ▸ hreach⟩, fun hk => h.newline ⟨q, hq, hk ▸ hreach⟩⟩
  map q hq hreach v hv := by
    have hmap : p.TriesMapBehind line e := ⟨q, hq, hreach⟩
    have hafter : AfterMaps b v := by
      rcases hv with rfl | ⟨-, hv⟩
      · exact .here
      · exact hv
    obtain ⟨v', hfail⟩ := (h.map hmap v hafter).1
    exact ⟨v', .inr ⟨hmap, hafter.again hfail⟩, hfail⟩

theorem LeavesBlock.runs_alike (h : LeavesBlock p line e b body rest) (hline : line.type = .ENDLINE)
    (hb : Rule.compoundStatement.Parses b (some body) rest)
    (hread : p.Parses (e ++ [line]) m q) :
    ∃ m2 q2, p.Parses (e ++ b) m2 q2 ∧ Alike line (blocksBehind p line e b) m q m2 q2 := by
  obtain ⟨n, hread⟩ := hread
  refine JeffVm.runs_alike hline ?_ hread ?_ h.quiet
  · intro v hv token htoken
    obtain ⟨lbrce, r, rfl, hlbrce⟩ := compound_head (h.body_of_mem hb hv)
    cases htoken
    exact hlbrce
  · exact ⟨e, b, .inl rfl, rfl, .inl rfl⟩

theorem Alike.of_solid {V : Set (List Token)} {q2 : List Token} {m2 : Option SyntaxTree}
    (hline : line.type = .ENDLINE) (h : Alike line V (some t) q m2 q2) (ht : ¬ t.Blank) :
    m2 = some t ∧ Beside line V q q2 := by
  cases h with
  | same h => exact ⟨rfl, h⟩
  | newline h => exact absurd (.inr (decide_eq_true hline)) ht

/-- The queue behind an optional newline. -/
def dropLine : List Token → List Token
  | [] => []
  | token :: q => if token.type = .ENDLINE then q else token :: q

theorem matches_ln {e : Exp TokenType Rule} {q q1 : List Token}
    (h : Matches parserRules syntaxBuilder e q (some t) q1) (ht : ¬ t.Blank) :
    Matches parserRules syntaxBuilder (ln e) q (some t) (dropLine q1) := by
  have hplain : ∀ r, (∀ token ∈ r.head?, token.type ≠ .ENDLINE) →
      Matches parserRules syntaxBuilder e q (some t) r →
        Matches parserRules syntaxBuilder (ln e) q (some t) r :=
    fun r hr h => .and2 h (matches_opt.mpr (.inr ⟨.type_fail hr, rfl⟩)) rfl
  cases q1 with
  | nil => exact hplain [] (by rintro token ⟨⟩) h
  | cons token q1 =>
    by_cases htype : token.type = .ENDLINE
    · rw [dropLine, if_pos htype]
      refine .and2 h (matches_opt.mpr (.inl ⟨_, .type htype, rfl⟩)) ?_
      have hnewline : (SyntaxTree.leaf token none).isNewline = true := decide_eq_true htype
      have hepsilon : t.isEpsilon = false := Bool.eq_false_iff.mpr fun h => ht (.inl h)
      change matchMerge t (some (.leaf token none)) q1 = (some t, q1)
      rw [matchMerge, hepsilon, hnewline]
      rfl
    · rw [dropLine, if_neg htype]
      apply hplain _ _ h
      rintro token' ⟨⟩
      exact htype

theorem of_matches_ln {e : Exp TokenType Rule} {q q2 : List Token} {t : SyntaxTree}
    (h : Matches parserRules syntaxBuilder (ln e) q (some t) q2)
    (hsolid : ∀ t q1, Matches parserRules syntaxBuilder e q (some t) q1 → ¬ t.Blank) :
    ∃ q1, Matches parserRules syntaxBuilder e q (some t) q1 := by
  obtain ⟨-, hm⟩ | ⟨a, q1, m2, q3, h1, -, -⟩ := matches_and2.mp h
  · cases hm
  · obtain ⟨heq, -⟩ := h.unique (matches_ln h1 (hsolid a q1 h1))
    cases heq
    exact ⟨q1, h1⟩

/-- The condition is read with the newline behind it, if there is one, and a block is next. -/
theorem LeavesBlock.reads (h : LeavesBlock p line e b body rest) (hline : line.type = .ENDLINE)
    (hp : p.isSolid = true) (hb : Rule.compoundStatement.Parses b (some body) rest)
    (hread : p.Parses (e ++ [line]) (some t) q) (hq : AtEnd line q = true) :
    ∃ v ∈ blocksBehind p line e b,
      Matches parserRules syntaxBuilder (ln (.rule p)) (e ++ b) (some t) v := by
  have ht : ¬ t.Blank := hread.solid hp
  obtain ⟨m2, q2, hparse, halike⟩ := h.runs_alike hline hb hread
  obtain ⟨rfl, u, v, hv, rfl, hu⟩ := halike.of_solid hline ht
  refine ⟨v, hv, ?_⟩
  have hdrop : dropLine (u ++ v) = v := by
    obtain ⟨lbrce, r, rfl, hlbrce⟩ := compound_head (h.body_of_mem hb hv)
    have hnil : dropLine (lbrce :: r) = lbrce :: r := by
      rw [dropLine, if_neg (by rw [hlbrce]; decide)]
    have hcons : dropLine ([line] ++ lbrce :: r) = lbrce :: r := by
      rw [List.singleton_append, dropLine, if_pos hline]
    rw [AtEnd, Bool.or_eq_true, decide_eq_true_eq, decide_eq_true_eq] at hq
    rcases hq with rfl | rfl
    · rcases hu with hu | rfl
      · exact absurd (congrArg List.length hu) (by simp)
      · exact hnil
    · rcases hu with hu | rfl
      · obtain rfl : u = [] := by
          cases u with
          | nil => rfl
          | cons token u => exact absurd (congrArg List.length hu) (by simp)
        exact hnil
      · exact hcons
  have hln := matches_ln hparse ht
  rwa [hdrop] at hln

theorem parses_block (hb : Rule.compoundStatement.Parses v (some body) rest) :
    Rule.statement.Parses v (some body) rest := by
  obtain ⟨lbrce, r, rfl, hlbrce⟩ := compound_head hb
  have hreject : ∀ q : Rule, (Exp.rule q).accepts Rule.body .LBRCE 120 = false →
      Matches parserRules syntaxBuilder (.rule q) (lbrce :: r) none (lbrce :: r) := by
    intro q hq
    refine Matches.reject 120 ?_
    have hkind : parserRules.kind lbrce = .LBRCE := hlbrce
    rw [hkind]
    exact hq
  have hbody : Matches parserRules syntaxBuilder Rule.statement.body (lbrce :: r) (some body) rest :=
    .or2_right (hreject .exitStatement (by decide)) (.or2_right (hreject .raiseStatement (by decide))
      (.or2_right (hreject .tryStatement (by decide))
        (.or2_right (hreject .selectionStatement (by decide)) (Matches.or2_left hb))))
  have hparse := parses_of_body hbody
  rw [Option.map_some, SyntaxTree.setExpression_of_named hb.isSome_expression] at hparse
  exact hparse

theorem selection_of_parts {q q1 q2 : List Token} {condition : SyntaxTree} (hword : word.type = .IF_T)
    (hcondition : Matches parserRules syntaxBuilder (ln (.rule .tupleExpression)) q (some condition) q1)
    (hsolid : ¬ condition.Blank)
    (hbody : Matches parserRules syntaxBuilder (ln (.rule .statement)) q1 (some body) q2)
    (hblock : ¬ body.Blank) :
    ∃ elses rest, Rule.selectionStatement.Parses (word :: q)
      (some (ifTree word condition body elses)) rest := by
  have hleaf : ¬ (SyntaxTree.leaf word none).Blank := not_blank_leaf (by simp [hword])
  obtain ⟨n, ⟨m, q3⟩, helse⟩ := parse_returns parserRules_grounded syntaxBuilder_measured
    (.opt (.and [typeLn .ELSE, .rule .statement])) q2
  have hmerge : ∃ elses, matchMerge body m q3 = (some (withElse body elses), q3) := by
    obtain ⟨a, -, rfl⟩ | ⟨-, rfl⟩ := matches_opt.mp ⟨n, helse⟩
    · obtain ⟨heq, -⟩ | ⟨-, -, hblank⟩ | ⟨heq, -⟩ := matchMerge_cases body a q3
      · exact ⟨none, heq⟩
      · exact absurd (hblank.imp id And.left) hblock
      · exact ⟨some a, heq⟩
    · exact ⟨none, rfl⟩
  obtain ⟨elses, hmerge⟩ := hmerge
  have hbranches : ¬ (withElse body elses).Blank := by
    cases elses with
    | none => exact hblock
    | some elses => exact not_blank_node
  have hparts : Matches parserRules syntaxBuilder Rule.selectionStatement.body (word :: q)
      (some (.node (.leaf word none) (.node condition (withElse body elses) none) none)) q3 :=
    .and2 (.type hword)
      (.and2 hcondition (.and2 hbody ⟨n, helse⟩ hmerge) (merge_of_solid q3 hsolid hbranches))
      (merge_of_solid q3 hleaf not_blank_node)
  exact ⟨elses, q3, parses_of_body hparts⟩

theorem while_of_parts {q q1 q2 : List Token} {condition : SyntaxTree} (hword : word.type = .WHILE)
    (hfront : ∀ token ∈ q.head?, token.type ≠ .ENDLINE)
    (hcondition : Matches parserRules syntaxBuilder (ln (.rule .conditionalExpression)) q
      (some condition) q1) (hsolid : ¬ condition.Blank)
    (hbody : Rule.statement.Parses q1 (some body) q2) (hblock : ¬ body.Blank) :
    Rule.whileStatement.Parses (word :: q) (some (whileTree word condition body)) q2 := by
  have hleaf : ¬ (SyntaxTree.leaf word none).Blank := not_blank_leaf (by simp [hword])
  have htoken := typeLn_plain word hfront
  rw [hword] at htoken
  have hparts : Matches parserRules syntaxBuilder Rule.whileStatement.body (word :: q)
      (some (.node (.node (.leaf word none) condition none) body none)) q2 :=
    .and2 (.and2 htoken hcondition (merge_of_solid q1 hleaf hsolid)) hbody
      (merge_of_solid q2 not_blank_node hblock)
  exact parses_of_body hparts

theorem while_condition {q : List Token} {condition : SyntaxTree} (hword : word.type = .WHILE)
    (hfront : ∀ token ∈ q.head?, token.type ≠ .ENDLINE)
    (h : Rule.whileStatement.Parses (word :: q) (some (whileTree word condition body)) rest) :
    ∃ q1, Rule.conditionalExpression.Parses q (some condition) q1 := by
  have hleaf : ¬ (SyntaxTree.leaf word none).Blank := not_blank_leaf (by simp [hword])
  have htoken := typeLn_plain word hfront
  rw [hword] at htoken
  have hsolid : ∀ t q1, Rule.conditionalExpression.Parses q (some t) q1 → ¬ t.Blank :=
    fun t q1 ht => ht.solid (by decide)
  obtain ⟨m, hbody, hm⟩ := matches_rule.mp h
  obtain ⟨hfail, hnone⟩ | ⟨a, q1, m2, q2, hhead, hstatement, hmerge⟩ := matches_and2.mp hbody
  · rw [hnone] at hm
    cases hm
  · obtain ⟨hfail, hnone⟩ | ⟨a', q3, m3, q4, hword', hcondition, hmerge'⟩ := matches_and2.mp hhead
    · cases hnone
    · obtain ⟨heq, rfl⟩ := hword'.unique htoken
      cases heq
      cases m3 with
      | none => cases hmerge'
      | some t =>
        obtain ⟨q5, ht⟩ := of_matches_ln hcondition hsolid
        have hnode := merge_of_solid q4 hleaf (hsolid t q5 ht)
        obtain ⟨heq, rfl⟩ := Prod.mk.inj (hmerge'.symm.trans hnode)
        cases heq
        cases m2 with
        | none =>
          cases hmerge
          cases hm
        | some block =>
          have hblock : ¬ block.Blank := Rule.Parses.solid hstatement (by decide)
          have hwhole : matchMerge (.node (.leaf word none) t none) (some block) q2 =
              (some (.node (.node (.leaf word none) t none) block none), q2) :=
            merge_of_solid q2 not_blank_node hblock
          obtain ⟨heq, rfl⟩ := Prod.mk.inj (hmerge.symm.trans hwhole)
          subst heq
          cases hm
          exact ⟨q5, ht⟩

theorem front_of_read (hline : line.type = .ENDLINE)
    (h : Rule.tupleExpression.Parses (e ++ [line]) (some t) q) :
    ∃ token r, e = token :: r ∧ token.type ≠ .ENDLINE := by
  have hreject : ∀ token r, token.type = .ENDLINE →
      Rule.tupleExpression.Parses (token :: r) none (token :: r) := by
    intro token r htoken
    refine Matches.reject 120 ?_
    have hkind : parserRules.kind token = .ENDLINE := htoken
    rw [hkind]
    decide
  cases e with
  | nil =>
    obtain ⟨hm, -⟩ := parses_unique h (hreject line [] hline)
    cases hm
  | cons token r =>
    refine ⟨token, r, rfl, fun htoken => ?_⟩
    obtain ⟨hm, -⟩ := parses_unique h (hreject token (r ++ [line]) htoken)
    cases hm

theorem significant_line (hline : line.type = .ENDLINE) : significant [line] = [] := by
  simp [significant, hline]

theorem significant_of_read (hline : line.type = .ENDLINE) (hread : p.Parses (e ++ [line]) (some t) q) :
    significant t.leaves = significant e ↔ significant q = [] := by
  have hkept := (significant_tokens_kept p (e ++ [line])).2.1 t q hread
  rw [significant_append, significant_append, significant_line hline, List.append_nil] at hkept
  rw [← hkept]
  exact List.self_eq_append_right

theorem ifTakes_of_leavesBlock (hword : word.type = .IF_T) (hline : line.type = .ENDLINE)
    (ht : Rule.tupleExpression.Parses (e ++ [line]) (some t) q) (hq : AtEnd line q = true)
    (hb : Rule.compoundStatement.Parses b (some body) rest)
    (h : LeavesBlock .tupleExpression line e b body rest) : IfTakes word e b t body := by
  obtain ⟨v, hv, hread⟩ := h.reads hline (by decide) hb ht hq
  have hblock := h.body_of_mem hb hv
  have hsolid : ¬ body.Blank := hblock.solid (by decide)
  exact selection_of_parts hword hread (ht.solid (by decide))
    (matches_ln (parses_block hblock) hsolid) hsolid

theorem whileTakes_of_leavesBlock (hword : word.type = .WHILE) (hline : line.type = .ENDLINE)
    (hfront : ∃ token r, e = token :: r ∧ token.type ≠ .ENDLINE)
    (ht : Rule.conditionalExpression.Parses (e ++ [line]) (some t) q) (hq : AtEnd line q = true)
    (hb : Rule.compoundStatement.Parses b (some body) rest)
    (h : LeavesBlock .conditionalExpression line e b body rest) : WhileTakes word e b body := by
  obtain ⟨v, hv, hread⟩ := h.reads hline (by decide) hb ht hq
  have hblock := h.body_of_mem hb hv
  obtain ⟨token, r, rfl, htoken⟩ := hfront
  refine ⟨t, rest, while_of_parts hword ?_ hread (ht.solid (by decide)) (parses_block hblock)
    (hblock.solid (by decide)), ?_⟩
  · rintro next ⟨⟩
    exact htoken
  · rw [significant_of_read hline ht]
    rw [AtEnd, Bool.or_eq_true, decide_eq_true_eq, decide_eq_true_eq] at hq
    rcases hq with rfl | rfl
    · rfl
    · exact significant_line hline

/-- The condition of a `while` is all of `e` only if it is a conditional expression. -/
theorem read_of_whileTakes (hword : word.type = .WHILE) (hline : line.type = .ENDLINE)
    (hfront : ∃ token r, e = token :: r ∧ token.type ≠ .ENDLINE)
    (hb : Rule.compoundStatement.Parses b (some body) rest)
    (h : LeavesBlock .conditionalExpression line e b body rest) (htakes : WhileTakes word e b body) :
    ∃ t q, Rule.conditionalExpression.Parses (e ++ [line]) (some t) q ∧ significant q = [] := by
  obtain ⟨condition, rest', hparse, hall⟩ := htakes
  obtain ⟨q1, hcondition⟩ := while_condition hword (by
    obtain ⟨token, r, rfl, htoken⟩ := hfront
    rintro next ⟨⟩
    exact htoken) hparse
  obtain ⟨m, q, hread⟩ := parses_total .conditionalExpression (e ++ [line])
  obtain ⟨m2, q2, hparse2, halike⟩ := h.runs_alike hline hb hread
  obtain ⟨rfl, rfl⟩ := parses_unique hparse2 hcondition
  have hsolid : ¬ condition.Blank := hcondition.solid (by decide)
  cases halike with
  | same hbeside => exact ⟨condition, q, hread, (significant_of_read hline hread).mp hall⟩
  | newline hv => exact absurd (.inl rfl) hsolid

/-- A block behind a condition is the body, where reading the condition asks for no block behind
it. A `while` takes a conditional expression only. -/
theorem block_is_body (ifWord whileWord line : Token) (e b q rest : List Token)
    (t body : SyntaxTree) (hif : ifWord.type = .IF_T) (hwhile : whileWord.type = .WHILE)
    (hline : line.type = .ENDLINE) (ht : Rule.tupleExpression.Parses (e ++ [line]) (some t) q)
    (hq : AtEnd line q = true) (hb : Rule.compoundStatement.Parses b (some body) rest) :
    (LeavesBlock .tupleExpression line e b body rest → IfTakes ifWord e b t body) ∧
      (LeavesBlock .conditionalExpression line e b body rest →
        ((∃ t q, Rule.conditionalExpression.Parses (e ++ [line]) (some t) q ∧
          AtEnd line q = true) → WhileTakes whileWord e b body) ∧
        (WhileTakes whileWord e b body → ∃ t q,
          Rule.conditionalExpression.Parses (e ++ [line]) (some t) q ∧ significant q = [])) := by
  have hfront := front_of_read hline ht
  refine ⟨ifTakes_of_leavesBlock hif hline ht hq hb, fun h => ⟨?_, ?_⟩⟩
  · rintro ⟨t', q', ht', hq'⟩
    exact whileTakes_of_leavesBlock hwhile hline hfront ht' hq' hb h
  · exact read_of_whileTakes hwhile hline hfront hb h

end

/-! ## Deciding the condition -/

/-- The calls that ask for a block or a required newline at the end of the queue. -/
def asksAtEnd (line : Token) : Exp TokenType Rule → List Token → Bool
  | .type k, q => (k = .LBRCE || k = .ENDLINE) && AtEnd line q
  | .rule .mapDeclaration, q => AtEnd line q
  | _, _ => false

theorem leavesBlock_of_avoids {p : Rule} {line : Token} {e b rest : List Token} {body : SyntaxTree}
    {n : Nat} (h : avoids parserRules syntaxBuilder (stopsAt line) (asksAtEnd line) n (.rule p)
      (e ++ [line]) = true) : LeavesBlock p line e b body rest where
  block := by
    rintro ⟨q, hq, hreach⟩
    have hbad : asksAtEnd line (.type .LBRCE) q = false := not_bad_of_avoids h hreach
    exact absurd hq (by simpa [asksAtEnd] using hbad)
  newline := by
    rintro ⟨q, hq, hreach⟩
    have hbad : asksAtEnd line (.type .ENDLINE) q = false := not_bad_of_avoids h hreach
    exact absurd hq (by simpa [asksAtEnd] using hbad)
  map := by
    rintro ⟨q, hq, hreach⟩
    have hbad : asksAtEnd line (.rule .mapDeclaration) q = false := not_bad_of_avoids h hreach
    exact absurd hq (by simpa [asksAtEnd] using hbad)

def wordIf : Token := ⟨.IF_T, 1, 0, "if"⟩
def wordWhile : Token := ⟨.WHILE, 1, 0, "while"⟩
def lineBehind : Token := ⟨.ENDLINE, 1, 9, "\n"⟩
def bracesTokens : List Token := [⟨.LBRCE, 1, 7, "\x7b"⟩, ⟨.RBRCE, 1, 8, "\x7d"⟩]

def bracesTree : SyntaxTree :=
  .node (.leaf ⟨.LBRCE, 1, 7, "\x7b"⟩ none) (.leaf ⟨.RBRCE, 1, 8, "\x7d"⟩ none)
    (some .compoundStatement)

theorem parses_of_computed {p : Rule} {q rest : List Token} (n : Nat)
    (h : (parse parserRules syntaxBuilder n (.rule p) q).any
      (fun r => r.1.isSome && r.2 = rest) = true) : ∃ t, p.Parses q (some t) rest := by
  simp only [Option.any_eq_true, Bool.and_eq_true, decide_eq_true_eq] at h
  obtain ⟨⟨m, rest'⟩, hparse, hsome, hrest⟩ := h
  obtain ⟨t, ht⟩ := Option.isSome_iff_exists.mp hsome
  cases hrest
  cases ht
  exact ⟨t, n, hparse⟩

/-- `a[c] < c(a)` -/
def comparedTokens : List Token :=
  [wordA, ⟨.LBRAC, 1, 2, "["⟩, wordC, ⟨.RBRAC, 1, 4, "]"⟩, ⟨.LTHAN, 1, 5, "<"⟩, wordC,
    ⟨.LPAREN, 1, 7, "("⟩, wordA, ⟨.RPAREN, 1, 9, ")"⟩]

/-- The block `c = a`, on a line of its own. -/
def blockTokens : List Token :=
  [⟨.LBRCE, 1, 10, "\x7b"⟩, lineBehind, wordC, ⟨.EQUALS, 2, 2, "="⟩, wordA, lineBehind,
    ⟨.RBRCE, 3, 0, "\x7d"⟩]

theorem block_is_body_compared : ∃ t body,
    Rule.compoundStatement.Parses blockTokens (some body) [] ∧
      IfTakes wordIf comparedTokens blockTokens t body ∧
      WhileTakes wordWhile comparedTokens blockTokens body := by
  obtain ⟨t, ht⟩ : ∃ t, Rule.tupleExpression.Parses (comparedTokens ++ [lineBehind]) (some t) [] :=
    parses_of_computed 150 (by decide +kernel)
  obtain ⟨t', ht'⟩ : ∃ t, Rule.conditionalExpression.Parses (comparedTokens ++ [lineBehind])
      (some t) [] := parses_of_computed 150 (by decide +kernel)
  obtain ⟨body, hbody⟩ : ∃ body, Rule.compoundStatement.Parses blockTokens (some body) [] :=
    parses_of_computed 150 (by decide +kernel)
  have htakes := block_is_body wordIf wordWhile lineBehind comparedTokens blockTokens [] [] t body
    rfl rfl rfl ht (by decide) hbody
  refine ⟨t, body, hbody, htakes.1 (leavesBlock_of_avoids (n := 150) (by decide +kernel)), ?_⟩
  refine (htakes.2 (leavesBlock_of_avoids (n := 150) (by decide +kernel))).1 ?_
  exact ⟨t', [], ht', by decide⟩

def openWordA : List Token := [⟨.LPAREN, 1, 1, "("⟩, wordA, ⟨.RPAREN, 1, 5, ")"⟩]

/-- `if (a) { }` has no body: the condition is a function without a name. -/
theorem not_block_is_body : ¬ ∀ (word line : Token) (e b q rest : List Token) (t body : SyntaxTree),
    word.type = .IF_T → line.type = .ENDLINE →
      Rule.tupleExpression.Parses (e ++ [line]) (some t) q → AtEnd line q = true →
        Rule.compoundStatement.Parses b (some body) rest → IfTakes word e b t body := by
  intro h
  obtain ⟨elses, rest, hparse⟩ := h wordIf lineBehind openWordA (bracesTokens ++ [lineBehind]) []
    [] (.node (.leaf ⟨.LPAREN, 1, 1, "("⟩ none) (.node (.leaf wordA (some .identifier))
      (.leaf ⟨.RPAREN, 1, 5, ")"⟩ none) none) (some .primaryExpressionNoConstants)) bracesTree
    rfl rfl ⟨150, by decide +kernel⟩ (by decide) ⟨20, by decide +kernel⟩
  have hfail : Rule.selectionStatement.Parses (wordIf :: (openWordA ++ (bracesTokens ++ [lineBehind])))
      none (wordIf :: (openWordA ++ bracesTokens)) := ⟨150, by decide +kernel⟩
  obtain ⟨hm, -⟩ := parses_unique hparse hfail
  cases hm

end JeffVm
