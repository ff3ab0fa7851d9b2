import Mathlib.Data.List.Basic

/-!
# Backtracking parsers

Parsing expressions over token kinds `κ` and rules `ρ`, and the recursive descent that runs
them on a queue of tokens. What a parser builds is a parameter: `Builder.merge` joins two
consecutive results, and puts the first one back into the queue when there is no second.
-/

set_option autoImplicit false

universe u v w x

namespace Backtracking

inductive Exp (κ : Type u) (ρ : Type v) where
  | type (kind : κ)
  | rule (name : ρ)
  | or2 (exp1 exp2 : Exp κ ρ)
  | and2 (exp1 exp2 : Exp κ ρ)
  | opt (exp : Exp κ ρ)
  | epsilon

/-- The first of a nonempty list that matches. -/
def Exp.or {κ : Type u} {ρ : Type v} : List (Exp κ ρ) → Exp κ ρ
  | [] => .epsilon
  | [e] => e
  | e :: es => .or2 e (Exp.or es)

/-- All of a list, one after the other. -/
def Exp.and {κ : Type u} {ρ : Type v} : List (Exp κ ρ) → Exp κ ρ
  | [] => .epsilon
  | [e] => e
  | e :: es => .and2 e (Exp.and es)

structure Builder (ρ : Type v) (τ : Type w) (α : Type x) where
  token : τ → α
  epsilon : α
  name : ρ → α → α
  merge : α → Option α → List τ → Option α × List τ

/-- The rules and the kinds of tokens. -/
structure Rules (κ : Type u) (ρ : Type v) (τ : Type w) where
  kind : τ → κ
  body : ρ → Exp κ ρ

variable {κ : Type u} {ρ : Type v} {τ : Type w} {α : Type x} [DecidableEq κ]

/-- `none` is out of fuel; otherwise what was built, if anything, and the queue left. -/
def parse (g : Rules κ ρ τ) (b : Builder ρ τ α) :
    Nat → Exp κ ρ → List τ → Option (Option α × List τ)
  | 0, _, _ => none
  | _ + 1, .type _, [] => some (none, [])
  | _ + 1, .type k, t :: q => if g.kind t = k then some (some (b.token t), q) else some (none, t :: q)
  | n + 1, .rule r, q =>
    match parse g b n (g.body r) q with
    | none => none
    | some (m, q') => some (m.map (b.name r), q')
  | n + 1, .or2 e1 e2, q =>
    match parse g b n e1 q with
    | none => none
    | some (some a, q') => some (some a, q')
    | some (none, q') => parse g b n e2 q'
  | n + 1, .and2 e1 e2, q =>
    match parse g b n e1 q with
    | none => none
    | some (none, q') => some (none, q')
    | some (some a, q') =>
      match parse g b n e2 q' with
      | none => none
      | some (m, q'') => some (b.merge a m q'')
  | n + 1, .opt e, q =>
    match parse g b n e q with
    | none => none
    | some (some a, q') => some (some a, q')
    | some (none, q') => some (some b.epsilon, q')
  | _ + 1, .epsilon, q => some (some b.epsilon, q)

variable {g : Rules κ ρ τ} {b : Builder ρ τ α}

/-! ## Inversion -/

theorem type_cases {n : Nat} {k : κ} {q q' : List τ} {m : Option α}
    (h : parse g b (n + 1) (.type k) q = some (m, q')) :
    (m = none ∧ q' = q ∧ ∀ t ∈ q.head?, g.kind t ≠ k) ∨
      ∃ t, q = t :: q' ∧ g.kind t = k ∧ m = some (b.token t) := by
  cases q with
  | nil =>
    simp only [parse, Option.some.injEq, Prod.mk.injEq] at h
    obtain ⟨rfl, rfl⟩ := h
    exact .inl ⟨rfl, rfl, by simp⟩
  | cons t q =>
    simp only [parse] at h
    split at h
    · rename_i hk
      simp only [Option.some.injEq, Prod.mk.injEq] at h
      obtain ⟨rfl, rfl⟩ := h
      exact .inr ⟨t, rfl, hk, rfl⟩
    · rename_i hk
      simp only [Option.some.injEq, Prod.mk.injEq] at h
      obtain ⟨rfl, rfl⟩ := h
      exact .inl ⟨rfl, rfl, by simpa using hk⟩

theorem rule_cases {n : Nat} {r : ρ} {q q' : List τ} {m : Option α}
    (h : parse g b (n + 1) (.rule r) q = some (m, q')) :
    ∃ m', parse g b n (g.body r) q = some (m', q') ∧ m = m'.map (b.name r) := by
  simp only [parse] at h
  split at h
  · cases h
  · rename_i m' q'' heq
    simp only [Option.some.injEq, Prod.mk.injEq] at h
    obtain ⟨rfl, rfl⟩ := h
    exact ⟨m', heq, rfl⟩

theorem or2_cases {n : Nat} {e1 e2 : Exp κ ρ} {q q' : List τ} {m : Option α}
    (h : parse g b (n + 1) (.or2 e1 e2) q = some (m, q')) :
    (∃ a, parse g b n e1 q = some (some a, q') ∧ m = some a) ∨
      ∃ q1, parse g b n e1 q = some (none, q1) ∧ parse g b n e2 q1 = some (m, q') := by
  simp only [parse] at h
  split at h
  · cases h
  · rename_i a q1 heq
    simp only [Option.some.injEq, Prod.mk.injEq] at h
    obtain ⟨rfl, rfl⟩ := h
    exact .inl ⟨a, heq, rfl⟩
  · rename_i q1 heq
    exact .inr ⟨q1, heq, h⟩

theorem and2_cases {n : Nat} {e1 e2 : Exp κ ρ} {q q' : List τ} {m : Option α}
    (h : parse g b (n + 1) (.and2 e1 e2) q = some (m, q')) :
    (parse g b n e1 q = some (none, q') ∧ m = none) ∨
      ∃ a q1 m2 q2, parse g b n e1 q = some (some a, q1) ∧
        parse g b n e2 q1 = some (m2, q2) ∧ b.merge a m2 q2 = (m, q') := by
  simp only [parse] at h
  split at h
  · cases h
  · rename_i q1 heq
    simp only [Option.some.injEq, Prod.mk.injEq] at h
    obtain ⟨rfl, rfl⟩ := h
    exact .inl ⟨heq, rfl⟩
  · rename_i a q1 heq
    split at h
    · cases h
    · rename_i m2 q2 heq2
      exact .inr ⟨a, q1, m2, q2, heq, heq2, Option.some.inj h⟩

theorem opt_cases {n : Nat} {e : Exp κ ρ} {q q' : List τ} {m : Option α}
    (h : parse g b (n + 1) (.opt e) q = some (m, q')) :
    (∃ a, parse g b n e q = some (some a, q') ∧ m = some a) ∨
      parse g b n e q = some (none, q') ∧ m = some b.epsilon := by
  simp only [parse] at h
  split at h
  · cases h
  · rename_i a q1 heq
    simp only [Option.some.injEq, Prod.mk.injEq] at h
    obtain ⟨rfl, rfl⟩ := h
    exact .inl ⟨a, heq, rfl⟩
  · rename_i q1 heq
    simp only [Option.some.injEq, Prod.mk.injEq] at h
    obtain ⟨rfl, rfl⟩ := h
    exact .inr ⟨heq, rfl⟩

theorem epsilon_cases {n : Nat} {q q' : List τ} {m : Option α}
    (h : parse g b (n + 1) .epsilon q = some (m, q')) : m = some b.epsilon ∧ q' = q := by
  simp only [parse, Option.some.injEq, Prod.mk.injEq] at h
  exact ⟨h.1.symm, h.2.symm⟩

/-! ## What every parse keeps -/

/-- What the combinators keep, about the queue before, the result and the queue after. -/
structure Kept (b : Builder ρ τ α) (P : List τ → Option α → List τ → Prop) : Prop where
  fail : ∀ q, P q none q
  token : ∀ t q, P (t :: q) (some (b.token t)) q
  epsilon : ∀ q, P q (some b.epsilon) q
  name : ∀ r q a q', P q (some a) q' → P q (some (b.name r a)) q'
  next : ∀ q q1 m q', P q none q1 → P q1 m q' → P q m q'
  merge : ∀ q a q1 m q', P q (some a) q1 → P q1 m q' →
    P q (b.merge a m q').1 (b.merge a m q').2

theorem Kept.parse {P : List τ → Option α → List τ → Prop} (hP : Kept b P) {n : Nat} :
    ∀ {e : Exp κ ρ} {q q' : List τ} {m : Option α},
      parse g b n e q = some (m, q') → P q m q' := by
  induction n with
  | zero => intro e q q' m h; cases h
  | succ n ih =>
    intro e q q' m h
    cases e with
    | type k =>
      obtain ⟨rfl, rfl, -⟩ | ⟨t, rfl, -, rfl⟩ := type_cases h
      · exact hP.fail q'
      · exact hP.token t q'
    | rule r =>
      obtain ⟨m', h', rfl⟩ := rule_cases h
      cases m' with
      | none => exact ih h'
      | some a => exact hP.name r q a q' (ih h')
    | or2 e1 e2 =>
      obtain ⟨a, h1, rfl⟩ | ⟨q1, h1, h2⟩ := or2_cases h
      · exact ih h1
      · exact hP.next q q1 m q' (ih h1) (ih h2)
    | and2 e1 e2 =>
      obtain ⟨h1, rfl⟩ | ⟨a, q1, m2, q2, h1, h2, hm⟩ := and2_cases h
      · exact ih h1
      · have hP' := hP.merge q a q1 m2 q2 (ih h1) (ih h2)
        rw [hm] at hP'
        exact hP'
    | opt e =>
      obtain ⟨a, h1, rfl⟩ | ⟨h1, rfl⟩ := opt_cases h
      · exact ih h1
      · exact hP.next q q' _ q' (ih h1) (hP.epsilon q')
    | epsilon =>
      obtain ⟨rfl, rfl⟩ := epsilon_cases h
      exact hP.epsilon q'

/-! ## Results with a size -/

/-- A result is no larger than what was read for it, and gives back no more than its size. -/
structure Measured (b : Builder ρ τ α) (size : α → Nat) : Prop where
  token : ∀ t, size (b.token t) ≤ 1
  epsilon : size b.epsilon = 0
  name : ∀ r a, size (b.name r a) ≤ size a
  merge : ∀ a c q, ∃ m, b.merge a (some c) q = (some m, q) ∧ size m ≤ size a + size c
  rollback : ∀ a q, ∃ q', b.merge a none q = (none, q') ∧ q'.length ≤ size a + q.length

/-- The tokens held by a result and a queue. -/
def held (size : α → Nat) : Option α → List τ → Nat
  | none, q => q.length
  | some a, q => size a + q.length

theorem length_le_held {size : α → Nat} {m : Option α} {q : List τ} : q.length ≤ held size m q := by
  cases m <;> simp [held]

theorem Measured.held_merge {size : α → Nat} (hb : Measured b size) (a : α) (m : Option α)
    (q : List τ) :
    held size (b.merge a m q).1 (b.merge a m q).2 ≤ size a + held size m q := by
  cases m with
  | none =>
    obtain ⟨q', h, hle⟩ := hb.rollback a q
    rw [h]
    exact hle
  | some c =>
    obtain ⟨m, h, hle⟩ := hb.merge a c q
    rw [h]
    simp only [held]
    omega

theorem Measured.kept {size : α → Nat} (hb : Measured b size) :
    Kept b fun q m q' => held size m q' ≤ q.length where
  fail q := Nat.le_refl _
  token t q := by
    have h := hb.token t
    simp only [held, List.length_cons]
    omega
  epsilon q := by simp [held, hb.epsilon]
  name r q a q' h := by
    have hr := hb.name r a
    simp only [held] at h ⊢
    omega
  next q q1 m q' h1 h2 := Nat.le_trans h2 h1
  merge q a q1 m q' h1 h2 := by
    have hm := hb.held_merge a m q'
    simp only [held] at h1
    omega

theorem Measured.held_le {size : α → Nat} (hb : Measured b size) {n : Nat} {e : Exp κ ρ}
    {q q' : List τ} {m : Option α} (h : parse g b n e q = some (m, q')) :
    held size m q' ≤ q.length :=
  hb.kept.parse h

theorem Measured.length_le {size : α → Nat} (hb : Measured b size) {n : Nat} {e : Exp κ ρ}
    {q q' : List τ} {m : Option α} (h : parse g b n e q = some (m, q')) :
    q'.length ≤ q.length :=
  Nat.le_trans length_le_held (hb.held_le h)

/-! ## Parsing that gives everything back -/

/-- The builder that remembers what was read. -/
def segments : Builder ρ τ (List τ) where
  token t := [t]
  epsilon := []
  name _ u := u
  merge
    | u, none, q => (none, u ++ q)
    | u, some v, q => (some (u ++ v), q)

@[simp] theorem segments_token (t : τ) : (segments : Builder ρ τ (List τ)).token t = [t] := rfl

@[simp] theorem segments_epsilon : (segments : Builder ρ τ (List τ)).epsilon = [] := rfl

@[simp] theorem segments_name (r : ρ) (u : List τ) :
    (segments : Builder ρ τ (List τ)).name r u = u := rfl

@[simp] theorem segments_merge_none (u q : List τ) :
    (segments : Builder ρ τ (List τ)).merge u none q = (none, u ++ q) := rfl

@[simp] theorem segments_merge_some (u v q : List τ) :
    (segments : Builder ρ τ (List τ)).merge u (some v) q = (some (u ++ v), q) := rfl

/-- The segments that the first part of an `and2` reads before its second part fails. -/
def abandoned (g : Rules κ ρ τ) : Nat → Exp κ ρ → List τ → List (List τ)
  | 0, _, _ => []
  | _ + 1, .type _, _ => []
  | n + 1, .rule r, q => abandoned g n (g.body r) q
  | n + 1, .or2 e1 e2, q =>
    match parse g segments n e1 q with
    | some (none, q1) => abandoned g n e1 q ++ abandoned g n e2 q1
    | _ => abandoned g n e1 q
  | n + 1, .and2 e1 e2, q =>
    match parse g segments n e1 q with
    | some (some u, q1) =>
      match parse g segments n e2 q1 with
      | some (none, _) => abandoned g n e1 q ++ abandoned g n e2 q1 ++ [u]
      | _ => abandoned g n e1 q ++ abandoned g n e2 q1
    | _ => abandoned g n e1 q
  | n + 1, .opt e, q => abandoned g n e q
  | _ + 1, .epsilon, _ => []

/-- `Builds a u`: `a` is what is built from the segment `u`, of which `restored u` comes back. -/
structure Restores (b : Builder ρ τ α) (Builds : α → List τ → Prop)
    (restored : List τ → List τ) : Prop where
  token : ∀ t, Builds (b.token t) [t]
  epsilon : Builds b.epsilon []
  name : ∀ r a u, Builds a u → Builds (b.name r a) u
  merge : ∀ a c m u v q q', Builds a u → Builds c v → b.merge a (some c) q = (some m, q') →
    Builds m (u ++ v)
  rollback : ∀ a u q, Builds a u → b.merge a none q = (none, restored u ++ q)
  sublist : ∀ u, (restored u).Sublist u

/-- The parse did what one that gives everything back does. -/
def InStep (g : Rules κ ρ τ) (Builds : α → List τ → Prop) (n : Nat) (e : Exp κ ρ) (q : List τ) :
    Option α → List τ → Prop
  | none, q' => parse g segments n e q = some (none, q') ∧ q' = q
  | some a, q' => ∃ u, parse g segments n e q = some (some u, q') ∧ q = u ++ q' ∧ Builds a u

section Loss

variable {Builds : α → List τ → Prop} {restored : List τ → List τ} {size : α → Nat}

/-- Either everything was restorable and the parse is in step, or a token is gone for good. -/
def Accounted (g : Rules κ ρ τ) (Builds : α → List τ → Prop) (restored : List τ → List τ)
    (size : α → Nat) (n : Nat) (e : Exp κ ρ) (q : List τ) (m : Option α) (q' : List τ) : Prop :=
  (InStep g Builds n e q m q' ∧ ∀ u ∈ abandoned g n e q, restored u = u) ∨
    (held size m q' < q.length ∧ ∃ u ∈ abandoned g n e q, restored u ≠ u)

theorem Restores.length_lt (hr : Restores b Builds restored) {u : List τ} (h : restored u ≠ u) :
    (restored u).length < u.length := by
  have hle := (hr.sublist u).length_le
  have hne : (restored u).length ≠ u.length := fun heq => h ((hr.sublist u).eq_of_length heq)
  omega

variable (hr : Restores b Builds restored) (hb : Measured b size)
variable (hsize : ∀ a u, Builds a u → size a ≤ u.length)

include hr in
theorem accounted_type {n : Nat} {k : κ} {q q' : List τ} {m : Option α}
    (h : parse g b (n + 1) (.type k) q = some (m, q')) :
    Accounted g Builds restored size (n + 1) (.type k) q m q' := by
  refine .inl ⟨?_, by simp [abandoned]⟩
  obtain ⟨rfl, rfl, hk⟩ | ⟨t, rfl, hk, rfl⟩ := type_cases h
  · refine ⟨?_, rfl⟩
    cases q' with
    | nil => rfl
    | cons t q => simp [parse, hk t (by simp)]
  · exact ⟨[t], by simp [parse, hk], rfl, hr.token t⟩

include hr hb in
theorem accounted_rule {n : Nat} {r : ρ} {q q' : List τ} {m : Option α}
    (ih : Accounted g Builds restored size n (g.body r) q m q') :
    Accounted g Builds restored size (n + 1) (.rule r) q (m.map (b.name r)) q' := by
  obtain ⟨hstep, hall⟩ | ⟨hlt, hex⟩ := ih
  · refine .inl ⟨?_, hall⟩
    cases m with
    | none => exact ⟨by simp [parse, hstep.1], hstep.2⟩
    | some a =>
      obtain ⟨u, hu, hq, hbuild⟩ := hstep
      exact ⟨u, by simp [parse, hu], hq, hr.name r a u hbuild⟩
  · refine .inr ⟨?_, hex⟩
    cases m with
    | none => exact hlt
    | some a =>
      have hname := hb.name r a
      simp only [held, Option.map_some] at hlt ⊢
      omega

theorem accounted_or2_left {n : Nat} {e1 e2 : Exp κ ρ} {q q' : List τ} {a : α}
    (ih : Accounted g Builds restored size n e1 q (some a) q') :
    Accounted g Builds restored size (n + 1) (.or2 e1 e2) q (some a) q' := by
  obtain ⟨⟨u, hu, hq, hbuild⟩, hall⟩ | ⟨hlt, u, hu, hne⟩ := ih
  · refine .inl ⟨⟨u, by simp [parse, hu], hq, hbuild⟩, ?_⟩
    simpa [abandoned, hu] using hall
  · refine .inr ⟨hlt, u, ?_, hne⟩
    simp only [abandoned]
    split
    · exact List.mem_append_left _ hu
    · exact hu

include hb in
theorem accounted_or2_right {n : Nat} {e1 e2 : Exp κ ρ} {q q1 q' : List τ} {m : Option α}
    (ih1 : Accounted g Builds restored size n e1 q none q1)
    (h2 : parse g b n e2 q1 = some (m, q'))
    (ih2 : Accounted g Builds restored size n e2 q1 m q') :
    Accounted g Builds restored size (n + 1) (.or2 e1 e2) q m q' := by
  obtain ⟨⟨h1, rfl⟩, hall1⟩ | ⟨hlt, u, hu, hne⟩ := ih1
  · have hab : abandoned g (n + 1) (.or2 e1 e2) q1 =
        abandoned g n e1 q1 ++ abandoned g n e2 q1 := by simp [abandoned, h1]
    obtain ⟨hstep, hall2⟩ | ⟨hlt, u, hu, hne⟩ := ih2
    · refine .inl ⟨?_, ?_⟩
      · cases m with
        | none => exact ⟨by simp [parse, h1, hstep.1], hstep.2⟩
        | some a =>
          obtain ⟨u, hu, hq, hbuild⟩ := hstep
          exact ⟨u, by simp [parse, h1, hu], hq, hbuild⟩
      · rw [hab]
        intro u hu
        rcases List.mem_append.mp hu with hu | hu
        · exact hall1 u hu
        · exact hall2 u hu
    · exact .inr ⟨hlt, u, by rw [hab]; exact List.mem_append_right _ hu, hne⟩
  · have hle := hb.held_le h2
    refine .inr ⟨Nat.lt_of_le_of_lt hle hlt, u, ?_, hne⟩
    simp only [abandoned]
    split
    · exact List.mem_append_left _ hu
    · exact hu

theorem accounted_and2_fail {n : Nat} {e1 e2 : Exp κ ρ} {q q' : List τ}
    (ih : Accounted g Builds restored size n e1 q none q') :
    Accounted g Builds restored size (n + 1) (.and2 e1 e2) q none q' := by
  obtain ⟨⟨h1, rfl⟩, hall⟩ | ⟨hlt, u, hu, hne⟩ := ih
  · refine .inl ⟨⟨by simp [parse, h1], rfl⟩, ?_⟩
    simpa [abandoned, h1] using hall
  · refine .inr ⟨hlt, u, ?_, hne⟩
    simp only [abandoned]
    split
    · split <;> simp [hu]
    · exact hu

include hr hb in
/-- The second part ran in step: what the first part read comes back if the second failed. -/
theorem accounted_and2_step {n : Nat} {e1 e2 : Exp κ ρ} {q q1 q2 u : List τ} {a : α}
    {m2 : Option α} (hu : parse g segments n e1 q = some (some u, q1)) (hq : q = u ++ q1)
    (hbuild : Builds a u) (hall1 : ∀ v ∈ abandoned g n e1 q, restored v = v)
    (hstep : InStep g Builds n e2 q1 m2 q2)
    (hall2 : ∀ v ∈ abandoned g n e2 q1, restored v = v) :
    Accounted g Builds restored size (n + 1) (.and2 e1 e2) q (b.merge a m2 q2).1
      (b.merge a m2 q2).2 := by
  cases m2 with
  | some c =>
    obtain ⟨v, hv, hq1, hbuild2⟩ := hstep
    obtain ⟨m, hm, -⟩ := hb.merge a c q2
    rw [hm]
    refine .inl ⟨⟨u ++ v, by simp [parse, hu, hv], by simp [hq, hq1],
      hr.merge a c m u v q2 q2 hbuild hbuild2 hm⟩, ?_⟩
    intro w hw
    simp only [abandoned, hu, hv] at hw
    rcases List.mem_append.mp hw with hw | hw
    · exact hall1 w hw
    · exact hall2 w hw
  | none =>
    obtain ⟨h2, rfl⟩ := hstep
    have hab : abandoned g (n + 1) (.and2 e1 e2) q =
        abandoned g n e1 q ++ abandoned g n e2 q2 ++ [u] := by simp [abandoned, hu, h2]
    rw [hr.rollback a u q2 hbuild]
    by_cases hrest : restored u = u
    · refine .inl ⟨⟨?_, by rw [hrest, hq]⟩, ?_⟩
      · simp [parse, hu, h2, hrest]
      · rw [hab]
        intro w hw
        simp only [List.mem_append, List.mem_singleton] at hw
        obtain (hw | hw) | rfl := hw
        · exact hall1 w hw
        · exact hall2 w hw
        · exact hrest
    · have hlt := hr.length_lt hrest
      refine .inr ⟨?_, u, by rw [hab]; simp, hrest⟩
      simp only [held, hq, List.length_append]
      omega

include hr hb hsize in
theorem accounted_and2 {n : Nat} {e1 e2 : Exp κ ρ} {q q1 q2 : List τ} {a : α} {m2 : Option α}
    (ih1 : Accounted g Builds restored size n e1 q (some a) q1)
    (h2 : parse g b n e2 q1 = some (m2, q2))
    (ih2 : Accounted g Builds restored size n e2 q1 m2 q2) :
    Accounted g Builds restored size (n + 1) (.and2 e1 e2) q (b.merge a m2 q2).1
      (b.merge a m2 q2).2 := by
  have hmerge := hb.held_merge a m2 q2
  obtain ⟨⟨u, hu, hq, hbuild⟩, hall1⟩ | ⟨hlt, u, hmem, hne⟩ := ih1
  · obtain ⟨hstep, hall2⟩ | ⟨hlt, v, hv, hne⟩ := ih2
    · exact accounted_and2_step hr hb hu hq hbuild hall1 hstep hall2
    · have hu' := hsize a u hbuild
      refine .inr ⟨?_, v, ?_, hne⟩
      · simp only [hq, List.length_append]
        omega
      · simp only [abandoned, hu]
        split <;> simp [hv]
  · have hle := hb.held_le h2
    refine .inr ⟨?_, u, ?_, hne⟩
    · simp only [held] at hlt
      omega
    · simp only [abandoned]
      split
      · split <;> simp [hmem]
      · exact hmem

include hr hb in
theorem accounted_opt {n : Nat} {e : Exp κ ρ} {q q' : List τ} {m : Option α}
    (ih : Accounted g Builds restored size n e q m q') :
    Accounted g Builds restored size (n + 1) (.opt e) q (some (m.getD b.epsilon)) q' := by
  obtain ⟨hstep, hall⟩ | ⟨hlt, hex⟩ := ih
  · refine .inl ⟨?_, hall⟩
    cases m with
    | none =>
      obtain ⟨h, rfl⟩ := hstep
      exact ⟨[], by simp [parse, h], rfl, hr.epsilon⟩
    | some a =>
      obtain ⟨u, hu, hq, hbuild⟩ := hstep
      exact ⟨u, by simp [parse, hu], hq, hbuild⟩
  · refine .inr ⟨?_, hex⟩
    cases m with
    | none =>
      simp only [held, Option.getD_none, hb.epsilon] at hlt ⊢
      omega
    | some a => exact hlt

include hr hb hsize in
theorem accounted {n : Nat} :
    ∀ {e : Exp κ ρ} {q q' : List τ} {m : Option α}, parse g b n e q = some (m, q') →
      Accounted g Builds restored size n e q m q' := by
  induction n with
  | zero => intro e q q' m h; cases h
  | succ n ih =>
    intro e q q' m h
    cases e with
    | type k => exact accounted_type hr h
    | rule r =>
      obtain ⟨m', h', rfl⟩ := rule_cases h
      exact accounted_rule hr hb (ih h')
    | or2 e1 e2 =>
      obtain ⟨a, h1, rfl⟩ | ⟨q1, h1, h2⟩ := or2_cases h
      · exact accounted_or2_left (ih h1)
      · exact accounted_or2_right hb (ih h1) h2 (ih h2)
    | and2 e1 e2 =>
      obtain ⟨h1, rfl⟩ | ⟨a, q1, m2, q2, h1, h2, hm⟩ := and2_cases h
      · exact accounted_and2_fail (ih h1)
      · have hacc := accounted_and2 hr hb hsize (ih h1) h2 (ih h2)
        rw [hm] at hacc
        exact hacc
    | opt e =>
      obtain ⟨a, h1, rfl⟩ | ⟨h1, rfl⟩ := opt_cases h
      · exact accounted_opt hr hb (ih h1)
      · exact accounted_opt hr hb (ih h1)
    | epsilon =>
      obtain ⟨rfl, rfl⟩ := epsilon_cases h
      exact .inl ⟨⟨[], rfl, rfl, hr.epsilon⟩, by simp [abandoned]⟩

include hr hb hsize in
/-- A failed parse leaves the queue as it was exactly when all that it gave up is restored. -/
theorem failed_iff {n : Nat} {e : Exp κ ρ} {q q' : List τ}
    (h : parse g b n e q = some (none, q')) :
    q' = q ↔ ∀ u ∈ abandoned g n e q, restored u = u := by
  obtain ⟨⟨-, hq⟩, hall⟩ | ⟨hlt, u, hu, hne⟩ := accounted hr hb hsize h
  · exact iff_of_true hq hall
  · refine iff_of_false ?_ fun hall => hne (hall u hu)
    rintro rfl
    exact Nat.lt_irrefl _ hlt

end Loss

/-! ## Termination -/

/-- What may match without reading a token, when the rules that may are known. -/
def Exp.nullable (optional : ρ → Bool) : Exp κ ρ → Bool
  | .type _ => false
  | .rule r => optional r
  | .or2 e1 e2 => e1.nullable optional || e2.nullable optional
  | .and2 e1 e2 => e1.nullable optional && e2.nullable optional
  | .opt _ => true
  | .epsilon => true

/-- Within `n` steps every descent that reads no token ends. -/
def Exp.grounded (body : ρ → Exp κ ρ) (optional : ρ → Bool) : Nat → Exp κ ρ → Bool
  | 0, _ => false
  | _ + 1, .type _ => true
  | n + 1, .rule r => (body r).grounded body optional n
  | n + 1, .or2 e1 e2 => e1.grounded body optional n && e2.grounded body optional n
  | n + 1, .and2 e1 e2 =>
    e1.grounded body optional n && (!e1.nullable optional || e2.grounded body optional n)
  | n + 1, .opt e => e.grounded body optional n
  | _ + 1, .epsilon => true

/-- No rule calls itself before a token is read. -/
structure Rules.Grounded (g : Rules κ ρ τ) (optional : ρ → Bool) : Prop where
  nullable : ∀ r, (g.body r).nullable optional = true → optional r = true
  grounded : ∀ r, ∃ n, (g.body r).grounded g.body optional n = true

omit [DecidableEq κ] in
theorem grounded_succ {body : ρ → Exp κ ρ} {optional : ρ → Bool} {n : Nat} :
    ∀ {e : Exp κ ρ}, e.grounded body optional n = true → e.grounded body optional (n + 1) = true := by
  induction n with
  | zero => intro e h; cases h
  | succ n ih =>
    intro e h
    cases e with
    | type k => rfl
    | rule r => exact @ih (body r) h
    | or2 e1 e2 =>
      simp only [Exp.grounded, Bool.and_eq_true] at h
      simp only [Exp.grounded.eq_4, Bool.and_eq_true]
      exact ⟨ih h.1, ih h.2⟩
    | and2 e1 e2 =>
      simp only [Exp.grounded, Bool.and_eq_true, Bool.or_eq_true] at h
      simp only [Exp.grounded.eq_5, Bool.and_eq_true, Bool.or_eq_true]
      exact ⟨ih h.1, h.2.imp_right ih⟩
    | opt e => exact @ih e h
    | epsilon => rfl

omit [DecidableEq κ] in
theorem grounded_mono {body : ρ → Exp κ ρ} {optional : ρ → Bool} {n n' : Nat} {e : Exp κ ρ}
    (hn : n ≤ n') (h : e.grounded body optional n = true) : e.grounded body optional n' = true := by
  induction hn with
  | refl => exact h
  | step _ ih => exact grounded_succ ih

omit [DecidableEq κ] in
theorem Rules.Grounded.exp {optional : ρ → Bool} (hg : g.Grounded optional) (e : Exp κ ρ) :
    ∃ n, e.grounded g.body optional n = true := by
  induction e with
  | type k => exact ⟨1, rfl⟩
  | rule r =>
    obtain ⟨n, h⟩ := hg.grounded r
    exact ⟨n + 1, h⟩
  | or2 e1 e2 ih1 ih2 =>
    obtain ⟨n1, h1⟩ := ih1
    obtain ⟨n2, h2⟩ := ih2
    refine ⟨max n1 n2 + 1, ?_⟩
    simp only [Exp.grounded, Bool.and_eq_true]
    exact ⟨grounded_mono (Nat.le_max_left ..) h1, grounded_mono (Nat.le_max_right ..) h2⟩
  | and2 e1 e2 ih1 ih2 =>
    obtain ⟨n1, h1⟩ := ih1
    obtain ⟨n2, h2⟩ := ih2
    refine ⟨max n1 n2 + 1, ?_⟩
    simp only [Exp.grounded, Bool.and_eq_true, Bool.or_eq_true]
    exact ⟨grounded_mono (Nat.le_max_left ..) h1, .inr (grounded_mono (Nat.le_max_right ..) h2)⟩
  | opt e ih =>
    obtain ⟨n, h⟩ := ih
    exact ⟨n + 1, h⟩
  | epsilon => exact ⟨1, rfl⟩

theorem parse_succ {n : Nat} :
    ∀ {e : Exp κ ρ} {q : List τ} {o : Option α × List τ}, parse g b n e q = some o →
      parse g b (n + 1) e q = some o := by
  induction n with
  | zero => intro e q o h; cases h
  | succ n ih =>
    intro e q o h
    obtain ⟨m, q'⟩ := o
    cases e with
    | type k => cases q <;> exact h
    | rule r =>
      obtain ⟨m', h', rfl⟩ := rule_cases h
      rw [parse.eq_4, ih h']
    | or2 e1 e2 =>
      obtain ⟨a, h1, rfl⟩ | ⟨q1, h1, h2⟩ := or2_cases h
      · rw [parse.eq_5, ih h1]
      · rw [parse.eq_5, ih h1]
        exact ih h2
    | and2 e1 e2 =>
      obtain ⟨h1, rfl⟩ | ⟨a, q1, m2, q2, h1, h2, hm⟩ := and2_cases h
      · rw [parse.eq_6, ih h1]
      · rw [parse.eq_6, ih h1]
        simp only [ih h2, hm]
    | opt e =>
      obtain ⟨a, h1, rfl⟩ | ⟨h1, rfl⟩ := opt_cases h
      · rw [parse.eq_7, ih h1]
      · rw [parse.eq_7, ih h1]
    | epsilon => exact h

theorem parse_mono {n n' : Nat} {e : Exp κ ρ} {q : List τ} {o : Option α × List τ} (hn : n ≤ n')
    (h : parse g b n e q = some o) : parse g b n' e q = some o := by
  induction hn with
  | refl => exact h
  | step _ ih => exact parse_succ ih

theorem abandoned_succ {n : Nat} :
    ∀ {e : Exp κ ρ} {q u : List τ}, u ∈ abandoned g n e q → u ∈ abandoned g (n + 1) e q := by
  induction n with
  | zero => intro e q u h; simp [abandoned] at h
  | succ n ih =>
    intro e q u h
    cases e with
    | type k => simp [abandoned] at h
    | rule r => exact @ih (g.body r) q u h
    | or2 e1 e2 =>
      rw [abandoned.eq_4] at h ⊢
      split at h
      · rename_i q1 h1
        simp only [parse_succ h1, List.mem_append] at h ⊢
        exact h.imp ih ih
      · split
        · exact List.mem_append_left _ (ih h)
        · exact ih h
    | and2 e1 e2 =>
      rw [abandoned.eq_5] at h ⊢
      split at h
      · rename_i v q1 h1
        rw [parse_succ h1]
        split at h
        · rename_i q2 h2
          simp only [parse_succ h2, List.mem_append] at h ⊢
          exact h.imp_left fun h => h.imp ih ih
        · rw [List.mem_append] at h
          have h' : u ∈ abandoned g (n + 1) e1 q ++ abandoned g (n + 1) e2 q1 :=
            List.mem_append.mpr (h.imp ih ih)
          simp only
          split
          · exact List.mem_append_left _ h'
          · exact h'
      · have h' := ih h
        split
        · split <;> simp [h']
        · exact h'
    | opt e => exact @ih e q u h
    | epsilon => simp [abandoned] at h

theorem abandoned_mono {n n' : Nat} {e : Exp κ ρ} {q u : List τ} (hn : n ≤ n')
    (h : u ∈ abandoned g n e q) : u ∈ abandoned g n' e q := by
  induction hn with
  | refl => exact h
  | step _ ih => exact abandoned_succ ih

section Termination

variable {optional : ρ → Bool} {size : α → Nat}
variable (hg : g.Grounded optional) (hb : Measured b size)

include hg hb in
theorem length_lt_of_not_nullable {n : Nat} :
    ∀ {e : Exp κ ρ} {q q' : List τ} {a : α}, e.nullable optional = false →
      parse g b n e q = some (some a, q') → q'.length < q.length := by
  induction n with
  | zero => intro e q q' a _ h; cases h
  | succ n ih =>
    intro e q q' a hnull h
    cases e with
    | type k =>
      obtain ⟨hm, -⟩ | ⟨t, rfl, -⟩ := type_cases h
      · cases hm
      · exact Nat.lt_succ_self _
    | rule r =>
      obtain ⟨m', h', hm⟩ := rule_cases h
      have hbody : (g.body r).nullable optional = false := by
        by_contra hne
        rw [Bool.not_eq_false] at hne
        rw [Exp.nullable, hg.nullable r hne] at hnull
        cases hnull
      cases m' with
      | none => cases hm
      | some a' => exact ih hbody h'
    | or2 e1 e2 =>
      simp only [Exp.nullable, Bool.or_eq_false_iff] at hnull
      obtain ⟨a', h1, -⟩ | ⟨q1, h1, h2⟩ := or2_cases h
      · exact ih hnull.1 h1
      · exact Nat.lt_of_lt_of_le (ih hnull.2 h2) (hb.length_le h1)
    | and2 e1 e2 =>
      simp only [Exp.nullable, Bool.and_eq_false_iff] at hnull
      obtain ⟨-, hm⟩ | ⟨a', q1, m2, q2, h1, h2, hm⟩ := and2_cases h
      · cases hm
      · cases m2 with
        | none =>
          obtain ⟨q3, h3, -⟩ := hb.rollback a' q2
          rw [h3] at hm
          cases hm
        | some c =>
          obtain ⟨m, h3, -⟩ := hb.merge a' c q2
          rw [h3] at hm
          cases hm
          obtain hnull | hnull := hnull
          · exact Nat.lt_of_le_of_lt (hb.length_le h2) (ih hnull h1)
          · exact Nat.lt_of_lt_of_le (ih hnull h2) (hb.length_le h1)
    | opt e => cases hnull
    | epsilon => cases hnull

/-- Some amount of fuel is enough. -/
def Returns (g : Rules κ ρ τ) (b : Builder ρ τ α) (e : Exp κ ρ) (q : List τ) : Prop :=
  ∃ n o, parse g b n e q = some o

theorem Returns.and2 {e1 e2 : Exp κ ρ} {q : List τ} (h1 : Returns g b e1 q)
    (h2 : ∀ n a q', parse g b n e1 q = some (some a, q') → Returns g b e2 q') :
    Returns g b (.and2 e1 e2) q := by
  obtain ⟨n1, ⟨m, q1⟩, h1⟩ := h1
  cases m with
  | none => exact ⟨n1 + 1, (none, q1), by rw [parse.eq_6, h1]⟩
  | some a =>
    obtain ⟨n2, ⟨m2, q2⟩, h2⟩ := h2 n1 a q1 h1
    refine ⟨max n1 n2 + 1, b.merge a m2 q2, ?_⟩
    rw [parse.eq_6, parse_mono (Nat.le_max_left ..) h1]
    simp only [parse_mono (Nat.le_max_right n1 n2) h2]

theorem Returns.or2 {e1 e2 : Exp κ ρ} {q : List τ} (h1 : Returns g b e1 q)
    (h2 : ∀ n q', parse g b n e1 q = some (none, q') → Returns g b e2 q') :
    Returns g b (.or2 e1 e2) q := by
  obtain ⟨n1, ⟨m, q1⟩, h1⟩ := h1
  cases m with
  | some a => exact ⟨n1 + 1, (some a, q1), by rw [parse.eq_5, h1]⟩
  | none =>
    obtain ⟨n2, o, h2⟩ := h2 n1 q1 h1
    refine ⟨max n1 n2 + 1, o, ?_⟩
    rw [parse.eq_5, parse_mono (Nat.le_max_left ..) h1]
    exact parse_mono (Nat.le_max_right ..) h2

include hg hb in
theorem returns_of_grounded {k : Nat}
    (hshort : ∀ e q, q.length < k → Returns g b e q) {n : Nat} :
    ∀ {e : Exp κ ρ} {q : List τ}, e.grounded g.body optional n = true → q.length ≤ k →
      Returns g b e q := by
  induction n with
  | zero => intro e q h; cases h
  | succ n ih =>
    intro e q h hq
    cases e with
    | type k =>
      cases q with
      | nil => exact ⟨1, _, rfl⟩
      | cons t q =>
        refine ⟨1, if g.kind t = k then (some (b.token t), q) else (none, t :: q), ?_⟩
        rw [parse.eq_3]
        split <;> rfl
    | rule r =>
      obtain ⟨n', ⟨m, q'⟩, h'⟩ := @ih (g.body r) q h hq
      exact ⟨n' + 1, (m.map (b.name r), q'), by rw [parse.eq_4, h']⟩
    | or2 e1 e2 =>
      simp only [Exp.grounded, Bool.and_eq_true] at h
      refine .or2 (ih h.1 hq) fun n' q' h1 => ?_
      exact ih h.2 (Nat.le_trans (hb.length_le h1) hq)
    | and2 e1 e2 =>
      simp only [Exp.grounded, Bool.and_eq_true, Bool.or_eq_true, Bool.not_eq_true'] at h
      refine .and2 (ih h.1 hq) fun n' a q' h1 => ?_
      obtain hnull | h2 := h.2
      · exact hshort e2 q' (Nat.lt_of_lt_of_le (length_lt_of_not_nullable hg hb hnull h1) hq)
      · exact ih h2 (Nat.le_trans (hb.length_le h1) hq)
    | opt e =>
      obtain ⟨n', ⟨m, q'⟩, h'⟩ := @ih e q h hq
      cases m with
      | none => exact ⟨n' + 1, (some b.epsilon, q'), by rw [parse.eq_7, h']⟩
      | some a => exact ⟨n' + 1, (some a, q'), by rw [parse.eq_7, h']⟩
    | epsilon => exact ⟨1, _, rfl⟩

include hg hb in
theorem parse_returns (e : Exp κ ρ) (q : List τ) : Returns g b e q := by
  induction hk : q.length using Nat.strongRecOn generalizing e q with
  | _ k ih =>
    obtain ⟨n, h⟩ := hg.exp e
    exact returns_of_grounded hg hb (fun e q hlt => ih _ hlt e q rfl) h (Nat.le_of_eq hk)

end Termination

end Backtracking
