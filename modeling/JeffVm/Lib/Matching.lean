import JeffVm.Lib.Descent

/-!
# What an expression matches

The relation that the recursive descent computes, with one rule for each kind of expression, and
which results an expression can give: the blank ones, which a merge drops, and those named by a
rule.
-/

set_option autoImplicit false

universe u v w x

namespace Backtracking

variable {κ : Type u} {ρ : Type v} {τ : Type w} {α : Type x} [DecidableEq κ]
variable {g : Rules κ ρ τ} {b : Builder ρ τ α}

section

variable {e e1 e2 : Exp κ ρ} {q q1 q2 q' : List τ} {m m2 : Option α} {a : α} {k : κ} {r : ρ} {t : τ}

theorem Matches.unique {m' : Option α} {q'' : List τ} (h : Matches g b e q m q')
    (h' : Matches g b e q m' q'') : m = m' ∧ q' = q'' := by
  obtain ⟨n, h⟩ := h
  obtain ⟨n', h'⟩ := h'
  have heq := (parse_mono (Nat.le_max_left n n') h).symm.trans
    (parse_mono (Nat.le_max_right n n') h')
  simpa using heq

theorem Matches.type (h : g.kind t = k) :
    Matches g b (.type k) (t :: q) (some (b.token t)) q := ⟨1, by simp [parse, h]⟩

theorem Matches.type_fail (h : ∀ t ∈ q.head?, g.kind t ≠ k) :
    Matches g b (.type k) q none q := by
  cases q with
  | nil => exact ⟨1, rfl⟩
  | cons t q =>
    have hne : g.kind t ≠ k := h t rfl
    exact ⟨1, by simp [parse, hne]⟩

theorem matches_type : Matches g b (.type k) q (some a) q' ↔
    ∃ t, q = t :: q' ∧ g.kind t = k ∧ a = b.token t := by
  constructor
  · intro h
    have hfail : ∀ {r : List τ}, ¬ (Matches g b (.type k) q none r) :=
      fun h' => by cases (h.unique h').1
    cases q with
    | nil => exact absurd (.type_fail (by simp)) hfail
    | cons t r =>
      by_cases hk : g.kind t = k
      · obtain ⟨ha, rfl⟩ := h.unique (.type hk)
        exact ⟨t, rfl, hk, Option.some.inj ha⟩
      · exact absurd (.type_fail (by simp [hk])) hfail
  · rintro ⟨t, rfl, hk, rfl⟩
    exact .type hk

theorem Matches.epsilon : Matches g b .epsilon q (some b.epsilon) q := ⟨1, rfl⟩

theorem matches_rule : Matches g b (.rule r) q m q' ↔
    ∃ m', Matches g b (g.body r) q m' q' ∧ m = m'.map (b.name r) := by
  constructor
  · rintro ⟨n, h⟩
    cases n with
    | zero => cases h
    | succ n =>
      obtain ⟨m', h', hm⟩ := rule_cases h
      exact ⟨m', ⟨n, h'⟩, hm⟩
  · rintro ⟨m', ⟨n, h⟩, rfl⟩
    exact ⟨n + 1, by simp [parse, h]⟩

theorem matches_or2 : Matches g b (.or2 e1 e2) q m q' ↔
    (∃ a, Matches g b e1 q (some a) q' ∧ m = some a) ∨
      ∃ q1, Matches g b e1 q none q1 ∧ Matches g b e2 q1 m q' := by
  constructor
  · rintro ⟨n, h⟩
    cases n with
    | zero => cases h
    | succ n =>
      obtain ⟨a, h1, hm⟩ | ⟨q1, h1, h2⟩ := or2_cases h
      · exact .inl ⟨a, ⟨n, h1⟩, hm⟩
      · exact .inr ⟨q1, ⟨n, h1⟩, n, h2⟩
  · rintro (⟨a, ⟨n, h⟩, rfl⟩ | ⟨q1, ⟨n1, h1⟩, n2, h2⟩)
    · exact ⟨n + 1, by simp [parse, h]⟩
    · have h1' := parse_mono (Nat.le_max_left n1 n2) h1
      have h2' := parse_mono (Nat.le_max_right n1 n2) h2
      exact ⟨max n1 n2 + 1, by simp [parse, h1', h2']⟩

theorem matches_and2 : Matches g b (.and2 e1 e2) q m q' ↔
    (Matches g b e1 q none q' ∧ m = none) ∨
      ∃ a q1 m2 q2, Matches g b e1 q (some a) q1 ∧ Matches g b e2 q1 m2 q2 ∧
        b.merge a m2 q2 = (m, q') := by
  constructor
  · rintro ⟨n, h⟩
    cases n with
    | zero => cases h
    | succ n =>
      obtain ⟨h1, hm⟩ | ⟨a, q1, m2, q2, h1, h2, hm⟩ := and2_cases h
      · exact .inl ⟨⟨n, h1⟩, hm⟩
      · exact .inr ⟨a, q1, m2, q2, ⟨n, h1⟩, ⟨n, h2⟩, hm⟩
  · rintro (⟨⟨n, h⟩, rfl⟩ | ⟨a, q1, m2, q2, ⟨n1, h1⟩, ⟨n2, h2⟩, hm⟩)
    · exact ⟨n + 1, by simp [parse, h]⟩
    · have h1' := parse_mono (Nat.le_max_left n1 n2) h1
      have h2' := parse_mono (Nat.le_max_right n1 n2) h2
      exact ⟨max n1 n2 + 1, by simp [parse, h1', h2', hm]⟩

theorem matches_opt : Matches g b (.opt e) q m q' ↔
    (∃ a, Matches g b e q (some a) q' ∧ m = some a) ∨
      Matches g b e q none q' ∧ m = some b.epsilon := by
  constructor
  · rintro ⟨n, h⟩
    cases n with
    | zero => cases h
    | succ n =>
      obtain ⟨a, h1, hm⟩ | ⟨h1, hm⟩ := opt_cases h
      · exact .inl ⟨a, ⟨n, h1⟩, hm⟩
      · exact .inr ⟨⟨n, h1⟩, hm⟩
  · rintro (⟨a, ⟨n, h⟩, rfl⟩ | ⟨⟨n, h⟩, rfl⟩)
    · exact ⟨n + 1, by simp [parse, h]⟩
    · exact ⟨n + 1, by simp [parse, h]⟩

theorem Matches.rule (h : Matches g b (g.body r) q m q') :
    Matches g b (.rule r) q (m.map (b.name r)) q' :=
  matches_rule.mpr ⟨m, h, rfl⟩

theorem Matches.or2_left (h : Matches g b e1 q (some a) q') :
    Matches g b (.or2 e1 e2) q (some a) q' :=
  matches_or2.mpr (.inl ⟨a, h, rfl⟩)

theorem Matches.or2_right (h1 : Matches g b e1 q none q1) (h2 : Matches g b e2 q1 m q') :
    Matches g b (.or2 e1 e2) q m q' :=
  matches_or2.mpr (.inr ⟨q1, h1, h2⟩)

theorem Matches.and2_fail (h : Matches g b e1 q none q') : Matches g b (.and2 e1 e2) q none q' :=
  matches_and2.mpr (.inl ⟨h, rfl⟩)

theorem Matches.and2 (h1 : Matches g b e1 q (some a) q1) (h2 : Matches g b e2 q1 m2 q2)
    (hm : b.merge a m2 q2 = (m, q')) : Matches g b (.and2 e1 e2) q m q' :=
  matches_and2.mpr (.inr ⟨a, q1, m2, q2, h1, h2, hm⟩)

end

/-! ## Expressions that fail at once -/

/-- Whether an expression may go beyond the kind `k` of the first token. -/
def Exp.accepts (body : ρ → Exp κ ρ) (k : κ) : Nat → Exp κ ρ → Bool
  | 0, _ => true
  | _ + 1, .type k' => k' = k
  | n + 1, .rule r => Exp.accepts body k n (body r)
  | n + 1, .or2 e1 e2 => Exp.accepts body k n e1 || Exp.accepts body k n e2
  | n + 1, .and2 e1 _ => Exp.accepts body k n e1
  | _ + 1, .opt _ => true
  | _ + 1, .epsilon => true

/-- An expression that does not accept the first token leaves the queue alone. -/
theorem Matches.reject {t : τ} {q : List τ} (n : Nat) {e : Exp κ ρ}
    (h : e.accepts g.body (g.kind t) n = false) : Matches g b e (t :: q) none (t :: q) := by
  induction n generalizing e with
  | zero => cases h
  | succ n ih =>
    cases e with
    | type k =>
      apply Matches.type_fail
      intro t' ht'
      cases ht'
      exact Ne.symm (of_decide_eq_false h)
    | rule r => exact (ih h).rule
    | or2 e1 e2 =>
      simp only [Exp.accepts, Bool.or_eq_false_iff] at h
      exact .or2_right (ih h.1) (ih h.2)
    | and2 e1 e2 => exact .and2_fail (ih h)
    | opt e => cases h
    | epsilon => cases h

theorem Matches.reject_nil {k : κ} (n : Nat) {e : Exp κ ρ}
    (h : e.accepts g.body k n = false) : Matches g b e [] none [] := by
  induction n generalizing e with
  | zero => cases h
  | succ n ih =>
    cases e with
    | type k =>
      apply Matches.type_fail
      intro t ht
      cases ht
    | rule r => exact (ih h).rule
    | or2 e1 e2 =>
      simp only [Exp.accepts, Bool.or_eq_false_iff] at h
      exact .or2_right (ih h.1) (ih h.2)
    | and2 e1 e2 => exact .and2_fail (ih h)
    | opt e => cases h
    | epsilon => cases h

/-! ## Calls that are reached -/

/-- A chain of calls that goes on behind no call of `stop`. -/
def Reaches (g : Rules κ ρ τ) (b : Builder ρ τ α) (stop : Exp κ ρ → List τ → Bool) :
    Exp κ ρ × List τ → Exp κ ρ × List τ → Prop :=
  Relation.ReflTransGen fun s s' => stop s.1 s.2 = false ∧ Calls g b (fun _ => True) s s'

/-- Whether no call of `bad` is reached from running the expression on the queue. -/
def avoids (g : Rules κ ρ τ) (b : Builder ρ τ α) (stop bad : Exp κ ρ → List τ → Bool) :
    Nat → Exp κ ρ → List τ → Bool
  | 0, _, _ => false
  | n + 1, e, q => !bad e q && (stop e q ||
    match e with
    | .type _ => true
    | .rule r => avoids g b stop bad n (g.body r) q
    | .or2 e1 e2 => avoids g b stop bad n e1 q &&
      match parse g b n e1 q with
      | none => false
      | some (some _, _) => true
      | some (none, q') => avoids g b stop bad n e2 q'
    | .and2 e1 e2 => avoids g b stop bad n e1 q &&
      match parse g b n e1 q with
      | none => false
      | some (some _, q') => avoids g b stop bad n e2 q'
      | some (none, _) => true
    | .opt e => avoids g b stop bad n e q
    | .epsilon => true)

variable {stop bad : Exp κ ρ → List τ → Bool}

theorem avoids_call {n : Nat} {s s' : Exp κ ρ × List τ}
    (h : avoids g b stop bad (n + 1) s.1 s.2 = true) (hstop : stop s.1 s.2 = false)
    (hcall : Calls g b (fun _ => True) s s') : avoids g b stop bad n s'.1 s'.2 = true := by
  cases hcall with
  | body r q =>
    simp only [avoids, hstop, Bool.false_or, Bool.and_eq_true] at h
    exact h.2
  | or2First e1 e2 q =>
    simp only [avoids, hstop, Bool.false_or, Bool.and_eq_true] at h
    exact h.2.1
  | or2Second e1 e2 q q' h1 =>
    simp only [avoids, hstop, Bool.false_or, Bool.and_eq_true] at h
    obtain ⟨-, -, h2⟩ := h
    split at h2
    · cases h2
    · rename_i a q'' heq
      obtain ⟨hm, -⟩ := h1.unique ⟨n, heq⟩
      cases hm
    · rename_i q'' heq
      obtain ⟨-, rfl⟩ := h1.unique ⟨n, heq⟩
      exact h2
  | and2First e1 e2 q =>
    simp only [avoids, hstop, Bool.false_or, Bool.and_eq_true] at h
    exact h.2.1
  | and2Second e1 e2 q q' a h1 =>
    simp only [avoids, hstop, Bool.false_or, Bool.and_eq_true] at h
    obtain ⟨-, -, h2⟩ := h
    split at h2
    · cases h2
    · rename_i a' q'' heq
      obtain ⟨-, rfl⟩ := h1.unique ⟨n, heq⟩
      exact h2
    · rename_i q'' heq
      obtain ⟨hm, -⟩ := h1.unique ⟨n, heq⟩
      cases hm
  | opt e q =>
    simp only [avoids, hstop, Bool.false_or, Bool.and_eq_true] at h
    exact h.2

theorem not_bad_of_avoids {n : Nat} {s s' : Exp κ ρ × List τ}
    (h : avoids g b stop bad n s.1 s.2 = true) (hreach : Reaches g b stop s s') :
    bad s'.1 s'.2 = false := by
  induction hreach using Relation.ReflTransGen.head_induction_on generalizing n with
  | refl =>
    cases n with
    | zero => cases h
    | succ n =>
      simp only [avoids, Bool.and_eq_true, Bool.not_eq_true'] at h
      exact h.1
  | head hcall hrest ih =>
    cases n with
    | zero => cases h
    | succ n => exact ih (avoids_call h hcall.1 hcall.2)

/-! ## Queues on which an expression runs alike -/

/-- Whatever the expression does on `q` it does on `q1`. -/
def RunsAlike (g : Rules κ ρ τ) (b : Builder ρ τ α) (e : Exp κ ρ) (q q1 : List τ) : Prop :=
  ∀ m q', Matches g b e q m q' → Matches g b e q1 m q'

namespace RunsAlike

variable {e e1 : Exp κ ρ} {q q1 : List τ} {r : ρ}

/-- The expression fails on both queues and leaves the same one. -/
theorem of_fail {q2 : List τ} (h : Matches g b e q none q2) (h1 : Matches g b e q1 none q2) :
    RunsAlike g b e q q1 := by
  intro m q' hm
  obtain ⟨rfl, rfl⟩ := h.unique hm
  exact h1

theorem rule (h : RunsAlike g b (g.body r) q q1) : RunsAlike g b (.rule r) q q1 := by
  intro m q' hm
  obtain ⟨m', hbody, rfl⟩ := matches_rule.mp hm
  exact (h m' q' hbody).rule

theorem or2 (e2 : Exp κ ρ) (h : RunsAlike g b e1 q q1) : RunsAlike g b (.or2 e1 e2) q q1 := by
  intro m q' hm
  obtain ⟨a, h1, rfl⟩ | ⟨q2, h1, h2⟩ := matches_or2.mp hm
  · exact (h _ _ h1).or2_left
  · exact .or2_right (h _ _ h1) h2

theorem and2 (e2 : Exp κ ρ) (h : RunsAlike g b e1 q q1) : RunsAlike g b (.and2 e1 e2) q q1 := by
  intro m q' hm
  obtain ⟨h1, rfl⟩ | ⟨a, q2, m2, q3, h1, h2, hmerge⟩ := matches_and2.mp hm
  · exact .and2_fail (h _ _ h1)
  · exact .and2 (h _ _ h1) h2 hmerge

end RunsAlike

/-! ## What an expression can give -/

/-- What the combinators keep, about an expression and its result. -/
structure Results (g : Rules κ ρ τ) (b : Builder ρ τ α) (S : Exp κ ρ → α → Prop) : Prop where
  token : ∀ t, S (.type (g.kind t)) (b.token t)
  epsilon : S .epsilon b.epsilon
  rule : ∀ r a, S (g.body r) a → S (.rule r) (b.name r a)
  left : ∀ e1 e2 a, S e1 a → S (.or2 e1 e2) a
  right : ∀ e1 e2 a, S e2 a → S (.or2 e1 e2) a
  opt : ∀ e a, S e a → S (.opt e) a
  missing : ∀ e, S (.opt e) b.epsilon
  merge : ∀ e1 e2 a c q m q', S e1 a → S e2 c → b.merge a (some c) q = (some m, q') →
    S (.and2 e1 e2) m
  rollback : ∀ a q m q', b.merge a none q ≠ (some m, q')

theorem Results.parse {S : Exp κ ρ → α → Prop} (hS : Results g b S) {n : Nat} :
    ∀ {e : Exp κ ρ} {q q' : List τ} {a : α},
      parse g b n e q = some (some a, q') → S e a := by
  induction n with
  | zero => intro e q q' a h; cases h
  | succ n ih =>
    intro e q q' a h
    cases e with
    | type k =>
      obtain ⟨hm, -⟩ | ⟨t, -, rfl, hm⟩ := type_cases h
      · cases hm
      · cases hm
        exact hS.token t
    | rule r =>
      obtain ⟨m', h', hm⟩ := rule_cases h
      obtain ⟨a', rfl, rfl⟩ := Option.map_eq_some_iff.mp hm.symm
      exact hS.rule r a' (ih h')
    | or2 e1 e2 =>
      obtain ⟨a', h1, hm⟩ | ⟨q1, -, h2⟩ := or2_cases h
      · cases hm
        exact hS.left e1 e2 a (ih h1)
      · exact hS.right e1 e2 a (ih h2)
    | and2 e1 e2 =>
      obtain ⟨-, hm⟩ | ⟨a1, q1, m2, q2, h1, h2, hm⟩ := and2_cases h
      · cases hm
      · cases m2 with
        | none => exact absurd hm (hS.rollback a1 q2 a q')
        | some c => exact hS.merge e1 e2 a1 c q2 a q' (ih h1) (ih h2) hm
    | opt e =>
      obtain ⟨a', h1, hm⟩ | ⟨-, hm⟩ := opt_cases h
      · cases hm
        exact hS.opt e a (ih h1)
      · cases hm
        exact hS.missing e
    | epsilon =>
      obtain ⟨hm, -⟩ := epsilon_cases h
      cases hm
      exact hS.epsilon

theorem Results.of_matches {S : Exp κ ρ → α → Prop} (hS : Results g b S) {e : Exp κ ρ}
    {q q' : List τ} {a : α} (h : Matches g b e q (some a) q') : S e a := by
  obtain ⟨n, h⟩ := h
  exact hS.parse h

/-! ## Blank and named results -/

/-- Whether an expression may give a blank result, with the fuel to look into its rules. -/
def Exp.blank (blankKind : κ → Bool) (body : ρ → Exp κ ρ) : Nat → Exp κ ρ → Bool
  | 0, _ => true
  | _ + 1, .type k => blankKind k
  | n + 1, .rule r => Exp.blank blankKind body n (body r)
  | n + 1, .or2 e1 e2 => Exp.blank blankKind body n e1 || Exp.blank blankKind body n e2
  | n + 1, .and2 e1 e2 => Exp.blank blankKind body n e1 && Exp.blank blankKind body n e2
  | _ + 1, .opt _ => true
  | _ + 1, .epsilon => true

/-- Whether a rule in `p` may have named the result. -/
def Exp.named (blankKind : κ → Bool) (body : ρ → Exp κ ρ) (p : ρ → Bool) : Nat → Exp κ ρ → Bool
  | 0, _ => true
  | _ + 1, .type _ => false
  | n + 1, .rule r => p r || Exp.named blankKind body p n (body r)
  | n + 1, .or2 e1 e2 => Exp.named blankKind body p n e1 || Exp.named blankKind body p n e2
  | n + 1, .and2 e1 e2 =>
    (Exp.named blankKind body p n e1 && Exp.blank blankKind body n e2) ||
      (Exp.blank blankKind body n e1 && Exp.named blankKind body p n e2)
  | n + 1, .opt e => Exp.named blankKind body p n e
  | _ + 1, .epsilon => false

/-- A merge with a blank result gives the other one, and any other merge a result without a
name. -/
structure DropsBlanks (g : Rules κ ρ τ) (b : Builder ρ τ α) (blankKind : κ → Bool) (Blank : α → Prop)
    (Named : ρ → α → Prop) : Prop where
  token : ∀ t, Blank (b.token t) → blankKind (g.kind t) = true
  name : ∀ r a, Blank (b.name r a) → Blank a
  merge : ∀ a c q m q', b.merge a (some c) q = (some m, q') → Blank m → Blank a ∧ Blank c
  rollback : ∀ a q m q', b.merge a none q ≠ (some m, q')
  token_named : ∀ r t, ¬ Named r (b.token t)
  epsilon_named : ∀ r, ¬ Named r b.epsilon
  name_named : ∀ r r' a, Named r (b.name r' a) → r = r' ∨ Named r a
  merge_named : ∀ r a c q m q', b.merge a (some c) q = (some m, q') → Named r m →
    (Named r a ∧ Blank c) ∨ (Blank a ∧ Named r c)

variable {blankKind : κ → Bool} {Blank : α → Prop} {Named : ρ → α → Prop}

omit [DecidableEq κ] in
theorem DropsBlanks.blanks (hb : DropsBlanks g b blankKind Blank Named) :
    Results g b fun e a => Blank a → ∀ n, e.blank blankKind g.body n = true where
  token t ha n := by
    cases n with
    | zero => rfl
    | succ n => exact hb.token t ha
  epsilon ha n := by cases n <;> rfl
  rule r a h ha n := by
    cases n with
    | zero => rfl
    | succ n => exact h (hb.name r a ha) n
  left e1 e2 a h ha n := by
    cases n with
    | zero => rfl
    | succ n => exact Bool.or_eq_true_iff.mpr (.inl (h ha n))
  right e1 e2 a h ha n := by
    cases n with
    | zero => rfl
    | succ n => exact Bool.or_eq_true_iff.mpr (.inr (h ha n))
  opt e a h ha n := by cases n <;> rfl
  missing e ha n := by cases n <;> rfl
  merge e1 e2 a c q m q' h1 h2 hm ha n := by
    cases n with
    | zero => rfl
    | succ n =>
      obtain ⟨ha1, hc⟩ := hb.merge a c q m q' hm ha
      exact Bool.and_eq_true_iff.mpr ⟨h1 ha1 n, h2 hc n⟩
  rollback := hb.rollback

theorem DropsBlanks.blank (hb : DropsBlanks g b blankKind Blank Named) {e : Exp κ ρ} {q q' : List τ} {a : α}
    (h : Matches g b e q (some a) q') (ha : Blank a) (n : Nat) :
    e.blank blankKind g.body n = true :=
  hb.blanks.of_matches h ha n

omit [DecidableEq κ] in
theorem DropsBlanks.names (hb : DropsBlanks g b blankKind Blank Named) (r : ρ) (p : ρ → Bool)
    (hr : p r = true) : Results g b fun e a =>
      (Blank a → ∀ n, e.blank blankKind g.body n = true) ∧
        (Named r a → ∀ n, e.named blankKind g.body p n = true) where
  token t := ⟨hb.blanks.token t, fun ha => absurd ha (hb.token_named r t)⟩
  epsilon := ⟨hb.blanks.epsilon, fun ha => absurd ha (hb.epsilon_named r)⟩
  rule r' a h := by
    refine ⟨hb.blanks.rule r' a h.1, fun ha n => ?_⟩
    cases n with
    | zero => rfl
    | succ n =>
      rw [Exp.named, Bool.or_eq_true]
      obtain rfl | ha' := hb.name_named r r' a ha
      · exact .inl hr
      · exact .inr (h.2 ha' n)
  left e1 e2 a h := by
    refine ⟨hb.blanks.left e1 e2 a h.1, fun ha n => ?_⟩
    cases n with
    | zero => rfl
    | succ n => exact Bool.or_eq_true_iff.mpr (.inl (h.2 ha n))
  right e1 e2 a h := by
    refine ⟨hb.blanks.right e1 e2 a h.1, fun ha n => ?_⟩
    cases n with
    | zero => rfl
    | succ n => exact Bool.or_eq_true_iff.mpr (.inr (h.2 ha n))
  opt e a h := by
    refine ⟨hb.blanks.opt e a h.1, fun ha n => ?_⟩
    cases n with
    | zero => rfl
    | succ n => exact h.2 ha n
  missing e := ⟨hb.blanks.missing e, fun ha => absurd ha (hb.epsilon_named r)⟩
  merge e1 e2 a c q m q' h1 h2 hm := by
    refine ⟨hb.blanks.merge e1 e2 a c q m q' h1.1 h2.1 hm, fun ha n => ?_⟩
    cases n with
    | zero => rfl
    | succ n =>
      rw [Exp.named, Bool.or_eq_true, Bool.and_eq_true, Bool.and_eq_true]
      obtain ⟨ha1, hc⟩ | ⟨ha1, hc⟩ := hb.merge_named r a c q m q' hm ha
      · exact .inl ⟨h1.2 ha1 n, h2.1 hc n⟩
      · exact .inr ⟨h1.1 ha1 n, h2.2 hc n⟩
  rollback := hb.rollback

theorem DropsBlanks.named (hb : DropsBlanks g b blankKind Blank Named) {e : Exp κ ρ} {q q' : List τ} {a : α}
    {r : ρ} (h : Matches g b e q (some a) q') (ha : Named r a) {p : ρ → Bool} (hr : p r = true)
    (n : Nat) : e.named blankKind g.body p n = true :=
  ((hb.names r p hr).of_matches h).2 ha n

end Backtracking
