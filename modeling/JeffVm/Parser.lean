import JeffVm.Grammar

/-!
# The parser

Syntax trees, how two of them are merged, and how a tree is put back into the token queue.
The queue holds the tokens that are lexed and those of the lines still to be lexed.
-/

set_option autoImplicit false

namespace JeffVm

open Backtracking

/-- A tree that matched. A tree that did not match has nothing, and is `none`. -/
inductive SyntaxTree where
  | epsilon (expression : Option Rule)
  | leaf (token : Token) (expression : Option Rule)
  | node (first second : SyntaxTree) (expression : Option Rule)
  deriving DecidableEq

namespace SyntaxTree

def isEpsilon : SyntaxTree → Bool
  | epsilon _ => true
  | _ => false

def isNewline : SyntaxTree → Bool
  | leaf token _ => token.type = .ENDLINE
  | _ => false

/-- A rule names the tree of its expression unless another rule has. -/
def setExpression (name : Rule) : SyntaxTree → SyntaxTree
  | epsilon expression => epsilon (expression.or (some name))
  | leaf token expression => leaf token (expression.or (some name))
  | node first second expression => node first second (expression.or (some name))

def leaves : SyntaxTree → List Token
  | epsilon _ => []
  | leaf token _ => [token]
  | node first second _ => first.leaves ++ second.leaves

end SyntaxTree

/-- The tokens of the tree go to the front of the queue, the last one first. -/
def matchRollback : SyntaxTree → List Token → List Token
  | .epsilon _, q => q
  | .leaf token _, q => token :: q
  | .node first second _, q => matchRollback first (matchRollback second q)

def matchMerge (parent : SyntaxTree) :
    Option SyntaxTree → List Token → Option SyntaxTree × List Token
  | none, q => (none, matchRollback parent q)
  | some child, q =>
    if child.isEpsilon then (some parent, q)
    else if parent.isEpsilon then (some child, q)
    else if child.isNewline then (some parent, q)
    else if parent.isNewline then (some child, q)
    else (some (.node parent child none), q)

def syntaxBuilder : Builder Rule Token SyntaxTree where
  token token := .leaf token none
  epsilon := .epsilon none
  name := .setExpression
  merge := matchMerge

/-- `p` returns on the queue `q` with the tree `m` and leaves the queue `rest`. -/
def Rule.Parses (p : Rule) (q : List Token) (m : Option SyntaxTree) (rest : List Token) : Prop :=
  ∃ n, parse parserRules syntaxBuilder n (.rule p) q = some (m, rest)

/-- The tokens but those of type `ENDLINE`. -/
def significant (q : List Token) : List Token := q.filter fun token => token.type ≠ .ENDLINE

/-! ## Trees -/

@[simp] theorem leaves_setExpression (p : Rule) (t : SyntaxTree) :
    (t.setExpression p).leaves = t.leaves := by
  cases t <;> rfl

theorem matchRollback_eq (t : SyntaxTree) :
    ∀ q, matchRollback t q = t.leaves ++ q := by
  induction t with
  | epsilon expression => intro q; rfl
  | leaf token expression => intro q; rfl
  | node first second expression ihf ihs =>
    intro q
    rw [matchRollback, ihs, ihf, SyntaxTree.leaves, List.append_assoc]

theorem leaves_of_isEpsilon {t : SyntaxTree} (h : t.isEpsilon = true) : t.leaves = [] := by
  cases t with
  | epsilon expression => rfl
  | leaf token expression => cases h
  | node first second expression => cases h

@[simp] theorem significant_append (u v : List Token) :
    significant (u ++ v) = significant u ++ significant v :=
  List.filter_append ..

theorem significant_of_isNewline {t : SyntaxTree} (h : t.isNewline = true) :
    significant t.leaves = [] := by
  cases t with
  | epsilon expression => cases h
  | leaf token expression =>
    simp only [SyntaxTree.isNewline, decide_eq_true_eq] at h
    simp [SyntaxTree.leaves, significant, h]
  | node first second expression => cases h

/-- What a merge does with two trees. -/
theorem matchMerge_cases (parent child : SyntaxTree) (q : List Token) :
    (matchMerge parent (some child) q = (some parent, q) ∧
        (child.isEpsilon = true ∨ child.isNewline = true ∧ parent.isEpsilon = false)) ∨
      (matchMerge parent (some child) q = (some child, q) ∧ child.isEpsilon = false ∧
        (parent.isEpsilon = true ∨ parent.isNewline = true ∧ child.isNewline = false)) ∨
      (matchMerge parent (some child) q = (some (.node parent child none), q) ∧
        (parent.isEpsilon = false ∧ parent.isNewline = false) ∧
        child.isEpsilon = false ∧ child.isNewline = false) := by
  simp only [matchMerge]
  cases parent.isEpsilon <;> cases child.isEpsilon <;> cases parent.isNewline <;>
    cases child.isNewline <;> simp

theorem significant_merge (parent child : SyntaxTree) (q : List Token) :
    ∃ m, matchMerge parent (some child) q = (some m, q) ∧
      significant m.leaves = significant parent.leaves ++ significant child.leaves ∧
      m.leaves.length ≤ parent.leaves.length + child.leaves.length := by
  obtain ⟨h, hchild⟩ | ⟨h, -, hparent⟩ | ⟨h, -⟩ := matchMerge_cases parent child q
  · refine ⟨parent, h, ?_, by omega⟩
    obtain hchild | ⟨hchild, -⟩ := hchild
    · simp [leaves_of_isEpsilon hchild, significant]
    · simp [significant_of_isNewline hchild]
  · refine ⟨child, h, ?_, by omega⟩
    obtain hparent | ⟨hparent, -⟩ := hparent
    · simp [leaves_of_isEpsilon hparent, significant]
    · simp [significant_of_isNewline hparent]
  · exact ⟨_, h, by simp [SyntaxTree.leaves], by simp [SyntaxTree.leaves]⟩

theorem syntaxBuilder_measured :
    Measured syntaxBuilder fun t : SyntaxTree => t.leaves.length where
  token _ := Nat.le_refl 1
  epsilon := rfl
  name p t := by simp [syntaxBuilder]
  merge parent child q := by
    obtain ⟨m, h, -, hlen⟩ := significant_merge parent child q
    exact ⟨m, h, hlen⟩
  rollback parent q :=
    ⟨matchRollback parent q, rfl, by simp [matchRollback_eq]⟩

/-! ## Every rule returns, with one result -/

theorem parses_total (p : Rule) (q : List Token) : ∃ m rest, p.Parses q m rest := by
  obtain ⟨n, ⟨m, rest⟩, h⟩ := parse_returns parserRules_grounded syntaxBuilder_measured (.rule p) q
  exact ⟨m, rest, n, h⟩

theorem parses_unique {p : Rule} {q rest rest' : List Token} {m m' : Option SyntaxTree}
    (h : p.Parses q m rest) (h' : p.Parses q m' rest') : m = m' ∧ rest = rest' := by
  obtain ⟨n, h⟩ := h
  obtain ⟨n', h'⟩ := h'
  have heq := (parse_mono (Nat.le_max_left n n') h).symm.trans
    (parse_mono (Nat.le_max_right n n') h')
  simpa using heq

/-! ## No significant token is lost -/

theorem significant_kept : Kept syntaxBuilder fun q m rest =>
    significant ((m.elim [] SyntaxTree.leaves) ++ rest) = significant q where
  fail _ := rfl
  token _ _ := rfl
  epsilon _ := rfl
  name p q t rest h := by simpa [syntaxBuilder] using h
  next _ _ _ _ h1 h2 := h2.trans h1
  merge q parent q1 m rest h1 h2 := by
    cases m with
    | none =>
      simp only [syntaxBuilder, matchMerge, matchRollback_eq, Option.elim_none, Option.elim_some,
        List.nil_append, significant_append] at h1 h2 ⊢
      rw [h2, h1]
    | some child =>
      obtain ⟨t, ht, hsig, -⟩ := significant_merge parent child rest
      simp only [syntaxBuilder, ht, Option.elim_some, significant_append, hsig,
        List.append_assoc] at h1 h2 ⊢
      rw [h2, h1]

/-- A rule that matches keeps the significant tokens in its tree and the rest of the queue, and
one that fails keeps them in the queue. -/
theorem significant_tokens_kept (p : Rule) (q : List Token) :
    (∃ m rest, p.Parses q m rest) ∧
      (∀ t rest, p.Parses q (some t) rest → significant (t.leaves ++ rest) = significant q) ∧
      ∀ rest, p.Parses q none rest → significant rest = significant q := by
  refine ⟨parses_total p q, ?_, ?_⟩
  · rintro t rest ⟨n, h⟩
    exact significant_kept.parse h
  · rintro rest ⟨n, h⟩
    exact significant_kept.parse h

end JeffVm
