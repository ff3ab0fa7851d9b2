import JeffVm.Lib.Matching

/-!
# Derivations

The grammar that a set of rules is, without the order in which the alternatives are tried. What a
parser accepts is derived by the grammar, from the queue that is left when the failed attempts have
put back what they can.
-/

set_option autoImplicit false

universe u v w x y

namespace Backtracking

variable {κ : Type u} {ρ : Type v} {τ : Type w} {α : Type x} {β : Type y}
variable {g : Rules κ ρ τ} {b : Builder ρ τ α}

/-- The expression derives a segment, of which the builder makes a result. -/
inductive Derives (g : Rules κ ρ τ) (b : Builder ρ τ α) : Exp κ ρ → List τ → α → Prop where
  | type {k : κ} {t : τ} (h : g.kind t = k) : Derives g b (.type k) [t] (b.token t)
  | rule {r : ρ} {u : List τ} {a : α} (h : Derives g b (g.body r) u a) :
    Derives g b (.rule r) u (b.name r a)
  | left {e1 e2 : Exp κ ρ} {u : List τ} {a : α} (h : Derives g b e1 u a) :
    Derives g b (.or2 e1 e2) u a
  | right {e1 e2 : Exp κ ρ} {u : List τ} {a : α} (h : Derives g b e2 u a) :
    Derives g b (.or2 e1 e2) u a
  | and {e1 e2 : Exp κ ρ} {u v : List τ} {a c m : α} {q : List τ} (h1 : Derives g b e1 u a)
      (h2 : Derives g b e2 v c) (hm : b.merge a (some c) q = (some m, q)) :
    Derives g b (.and2 e1 e2) (u ++ v) m
  | present {e : Exp κ ρ} {u : List τ} {a : α} (h : Derives g b e u a) : Derives g b (.opt e) u a
  | absent {e : Exp κ ρ} : Derives g b (.opt e) [] b.epsilon
  | epsilon : Derives g b .epsilon [] b.epsilon

theorem Derives.builds {Builds : α → List τ → Prop} {restored : List τ → List τ}
    (hb : Restores b Builds restored) {e : Exp κ ρ} {u : List τ} {a : α} (h : Derives g b e u a) :
    Builds a u := by
  induction h with
  | type h => exact hb.token _
  | rule h ih => exact hb.name _ _ _ ih
  | left h ih => exact ih
  | right h ih => exact ih
  | and h1 h2 hm ih1 ih2 => exact hb.merge _ _ _ _ _ _ _ ih1 ih2 hm
  | present h ih => exact ih
  | absent => exact hb.epsilon
  | epsilon => exact hb.epsilon

/-! ## What is accepted is derived -/

/-- What may become of a queue when failed attempts put segments back. -/
structure Losses (restored : List τ → List τ) (R : List τ → List τ → Prop) : Prop where
  refl : ∀ q, R q q
  trans : ∀ {q q1 q2}, R q q1 → R q1 q2 → R q q2
  behind : ∀ u {q q'}, R q q' → R (u ++ q) (u ++ q')
  rollback : ∀ u q, R (u ++ q) (restored u ++ q)

section Sound

variable [DecidableEq κ] {Builds : α → List τ → Prop} {restored : List τ → List τ}
  {R : List τ → List τ → Prop}

/-- An accepting run derives a segment; a failing run only loses what is not restored. -/
def Sound (g : Rules κ ρ τ) (b : Builder ρ τ α) (R : List τ → List τ → Prop) (e : Exp κ ρ)
    (q : List τ) : Option α → List τ → Prop
  | none, q' => R q q'
  | some a, q' => ∃ u, Derives g b e u a ∧ R q (u ++ q')

omit [DecidableEq κ] in
theorem sound_and2 (hb : Restores b Builds restored)
    (hsome : ∀ a c m q q', b.merge a (some c) q = (m, q') → q' = q ∧ m.isSome = true)
    (hR : Losses restored R) {e1 e2 : Exp κ ρ} {q q1 q2 q' : List τ} {a : α} {m m2 : Option α}
    (h1 : Sound g b R e1 q (some a) q1) (h2 : Sound g b R e2 q1 m2 q2)
    (hm : b.merge a m2 q2 = (m, q')) : Sound g b R (.and2 e1 e2) q m q' := by
  obtain ⟨u, hu, hq⟩ := h1
  cases m2 with
  | none =>
    have hback := hb.rollback a u q2 (hu.builds hb)
    rw [hback] at hm
    cases hm
    exact hR.trans (hR.trans hq (hR.behind u h2)) (hR.rollback u q2)
  | some c =>
    obtain ⟨v, hv, hq1⟩ := h2
    obtain ⟨rfl, hm'⟩ := hsome a c m q2 q' hm
    obtain ⟨d, rfl⟩ := Option.isSome_iff_exists.mp hm'
    refine ⟨u ++ v, .and hu hv hm, ?_⟩
    rw [List.append_assoc]
    exact hR.trans hq (hR.behind u hq1)

theorem parse_sound (hb : Restores b Builds restored)
    (hsome : ∀ a c m q q', b.merge a (some c) q = (m, q') → q' = q ∧ m.isSome = true)
    (hR : Losses restored R) {n : Nat} : ∀ {e : Exp κ ρ} {q q' : List τ} {m : Option α},
      parse g b n e q = some (m, q') → Sound g b R e q m q' := by
  induction n with
  | zero => intro e q q' m h; cases h
  | succ n ih =>
    intro e q q' m h
    cases e with
    | type k =>
      obtain ⟨rfl, rfl, -⟩ | ⟨t, rfl, hk, rfl⟩ := type_cases h
      · exact hR.refl q'
      · exact ⟨[t], .type hk, hR.refl _⟩
    | rule r =>
      obtain ⟨m', h', rfl⟩ := rule_cases h
      have hbody := ih h'
      cases m' with
      | none => exact hbody
      | some a =>
        obtain ⟨u, hu, hq⟩ := hbody
        exact ⟨u, .rule hu, hq⟩
    | or2 e1 e2 =>
      obtain ⟨a, h1, rfl⟩ | ⟨q1, h1, h2⟩ := or2_cases h
      · obtain ⟨u, hu, hq⟩ := ih h1
        exact ⟨u, .left hu, hq⟩
      · have hfirst : R q q1 := ih h1
        have hsecond := ih h2
        cases m with
        | none => exact hR.trans hfirst hsecond
        | some a =>
          obtain ⟨u, hu, hq⟩ := hsecond
          exact ⟨u, .right hu, hR.trans hfirst hq⟩
    | and2 e1 e2 =>
      obtain ⟨h1, rfl⟩ | ⟨a, q1, m2, q2, h1, h2, hm⟩ := and2_cases h
      · have hfail : R q q' := ih h1
        exact hfail
      · exact sound_and2 hb hsome hR (ih h1) (ih h2) hm
    | opt e =>
      obtain ⟨a, h1, rfl⟩ | ⟨h1, rfl⟩ := opt_cases h
      · obtain ⟨u, hu, hq⟩ := ih h1
        exact ⟨u, .present hu, hq⟩
      · have hfail : R q q' := ih h1
        exact ⟨[], .absent, hfail⟩
    | epsilon =>
      obtain ⟨rfl, rfl⟩ := epsilon_cases h
      exact ⟨[], .epsilon, hR.refl _⟩

theorem Matches.sound (hb : Restores b Builds restored)
    (hsome : ∀ a c m q q', b.merge a (some c) q = (m, q') → q' = q ∧ m.isSome = true)
    (hR : Losses restored R) {e : Exp κ ρ} {q q' : List τ} {m : Option α}
    (h : Matches g b e q m q') : Sound g b R e q m q' := by
  obtain ⟨n, h⟩ := h
  exact parse_sound hb hsome hR h

end Sound

/-! ## Brackets -/

/-- What a kind of token does to a stack of open brackets. -/
inductive Bracket (β : Type y) where
  | opens (bracket : β)
  | closes (bracket : β)
  | neither

section Brackets

variable [DecidableEq β] (bracket : κ → Bracket β)

/-- The brackets that are open behind the tokens; `none` is one that closes no other. -/
def openBrackets (kind : τ → κ) : List τ → List β → Option (List β)
  | [], stack => some stack
  | t :: rest, stack =>
    match bracket (kind t) with
    | .neither => openBrackets kind rest stack
    | .opens x => openBrackets kind rest (x :: stack)
    | .closes x =>
      match stack with
      | [] => none
      | y :: stack => if x = y then openBrackets kind rest stack else none

/-- The brackets that an expression closes and those that it opens, when its rules do neither. -/
def Exp.effect : Exp κ ρ → Option (List β × List β)
  | .type k =>
    match bracket k with
    | .neither => some ([], [])
    | .opens x => some ([], [x])
    | .closes x => some ([x], [])
  | .rule _ => some ([], [])
  | .or2 e1 e2 => if Exp.effect e1 = Exp.effect e2 then Exp.effect e1 else none
  | .and2 e1 e2 =>
    match Exp.effect e1, Exp.effect e2 with
    | some (closed1, opened1), some (closed2, opened2) =>
      if closed2 <+: opened1 then some (closed1, opened2 ++ opened1.drop closed2.length)
      else if opened1 <+: closed2 then some (closed1 ++ closed2.drop opened1.length, opened2)
      else none
    | _, _ => none
  | .opt e => if Exp.effect e = some ([], []) then some ([], []) else none
  | .epsilon => some ([], [])

variable {bracket}

theorem openBrackets_append (kind : τ → κ) (u v : List τ) (stack : List β) :
    openBrackets bracket kind (u ++ v) stack =
      (openBrackets bracket kind u stack).bind (openBrackets bracket kind v) := by
  induction u generalizing stack with
  | nil => rfl
  | cons t u ih =>
    rw [List.cons_append, openBrackets, openBrackets]
    cases bracket (kind t) with
    | neither => exact ih stack
    | opens x => exact ih (x :: stack)
    | closes x =>
      cases stack with
      | nil => rfl
      | cons y stack =>
        by_cases h : x = y
        · simp only [h, if_true]
          exact ih stack
        · simp only [h, if_false]
          rfl

/-- On any stack the tokens close and open these brackets. -/
def ClosesOpens (bracket : κ → Bracket β) (kind : τ → κ) (u : List τ) (closed opened : List β) :
    Prop :=
  ∀ stack, openBrackets bracket kind u (closed ++ stack) = some (opened ++ stack)

theorem ClosesOpens.append {kind : τ → κ} {u v : List τ} {e1 e2 : Exp κ ρ}
    {closed1 opened1 closed2 opened2 closed opened : List β}
    (hu : ClosesOpens bracket kind u closed1 opened1)
    (hv : ClosesOpens bracket kind v closed2 opened2)
    (he1 : e1.effect bracket = some (closed1, opened1))
    (he2 : e2.effect bracket = some (closed2, opened2))
    (h : (Exp.and2 e1 e2).effect bracket = some (closed, opened)) :
    ClosesOpens bracket kind (u ++ v) closed opened := by
  intro stack
  rw [Exp.effect, he1, he2] at h
  dsimp only at h
  rw [openBrackets_append]
  split at h
  · rename_i hprefix
    obtain ⟨more, rfl⟩ := hprefix
    cases h
    rw [hu stack, Option.bind_some, List.append_assoc, hv (more ++ stack), List.drop_left,
      List.append_assoc]
  · split at h
    · rename_i hprefix
      obtain ⟨more, rfl⟩ := hprefix
      cases h
      rw [List.drop_left, List.append_assoc, hu (more ++ stack), Option.bind_some,
        ← List.append_assoc, hv stack]
    · cases h

/-- Where every rule closes what it opens, what an expression derives has the effect of the
expression. -/
theorem Derives.closesOpens (hbody : ∀ r, (g.body r).effect bracket = some ([], [])) {e : Exp κ ρ}
    {u : List τ} {a : α} (h : Derives g b e u a) {closed opened : List β}
    (he : e.effect bracket = some (closed, opened)) :
    ClosesOpens bracket g.kind u closed opened := by
  induction h generalizing closed opened with
  | @type k t hk =>
    intro stack
    rw [openBrackets, hk]
    rw [Exp.effect] at he
    cases hbracket : bracket k with
    | neither =>
      rw [hbracket] at he
      cases he
      rfl
    | opens x =>
      rw [hbracket] at he
      cases he
      rfl
    | closes x =>
      rw [hbracket] at he
      cases he
      exact if_pos rfl
  | @rule r u a h ih =>
    cases he
    exact ih (hbody r)
  | left h ih =>
    rw [Exp.effect] at he
    split at he
    · exact ih he
    · cases he
  | right h ih =>
    rw [Exp.effect] at he
    split at he
    · rename_i heq
      rw [heq] at he
      exact ih he
    · cases he
  | @and e1 e2 u v a c m q h1 h2 hm ih1 ih2 =>
    have hboth := he
    rw [Exp.effect] at hboth
    cases he1 : e1.effect bracket with
    | none =>
      rw [he1] at hboth
      cases hboth
    | some effect1 =>
      cases he2 : e2.effect bracket with
      | none =>
        rw [he1, he2] at hboth
        cases hboth
      | some effect2 => exact (ih1 he1).append (ih2 he2) he1 he2 he
  | present h ih =>
    rw [Exp.effect] at he
    split at he
    · rename_i heq
      cases he
      exact ih heq
    · cases he
  | absent =>
    rw [Exp.effect] at he
    split at he
    · cases he
      exact fun stack => rfl
    · cases he
  | epsilon =>
    cases he
    exact fun stack => rfl

end Brackets

end Backtracking
