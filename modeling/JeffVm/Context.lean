import JeffVm.Store

/-!
# Contexts

A context points to the context it was created in. Contexts are allocated in order and these
pointers never change, so that the chain of previous contexts is finite: this invariant is a
field of the arena. Name lookup walks the chain, then `self`, its class and the modules.
-/

set_option autoImplicit false

namespace JeffVm

structure Context where
  parentTask : TaskId
  previous : Option ContextId
  memberObj : ObjectId
  self : ObjectId
  module : ModuleId
  func : Option FunctionId
  ins : Int
  error : Option ObjectId
  catchIns : Int
  deriving DecidableEq

/-- The context arena of a process. -/
structure Contexts where
  context : ContextId → Context
  next : ContextId
  previous_lt : ∀ c p : Nat, (context c).previous = some p → p < c

namespace Contexts

/-- Change a context; its `previous` pointer stays. -/
def modify (cs : Contexts) (c : ContextId) (f : Context → Context) : Contexts where
  context := Function.update cs.context c
    { f (cs.context c) with previous := (cs.context c).previous }
  next := cs.next
  previous_lt := by
    intro d p h
    by_cases hd : d = c
    · subst hd
      rw [Function.update_self] at h
      exact cs.previous_lt d p h
    · rw [Function.update_of_ne hd] at h
      exact cs.previous_lt d p h

@[simp] theorem modify_self (cs : Contexts) (c : ContextId) (f : Context → Context) :
    (cs.modify c f).context c =
      { f (cs.context c) with previous := (cs.context c).previous } := by
  simp [modify]

@[simp] theorem modify_ne (cs : Contexts) {c d : ContextId} (f : Context → Context) (h : d ≠ c) :
    (cs.modify c f).context d = cs.context d := by
  simp [modify, h]

@[simp] theorem modify_previous (cs : Contexts) (c : ContextId) (f : Context → Context)
    (d : ContextId) : ((cs.modify c f).context d).previous = (cs.context d).previous := by
  by_cases h : d = c
  · subst h
    simp
  · simp [h]

/-- A new context; `none` when its previous pointer is not a context yet. -/
def create (cs : Contexts) (ctx : Context) : Option (ContextId × Contexts) :=
  if h : ∀ p, ctx.previous = some p → p < cs.next then
    some (cs.next,
      { context := Function.update cs.context cs.next ctx
        next := cs.next + 1
        previous_lt := by
          intro d p hp
          by_cases hd : d = cs.next
          · subst hd
            rw [Function.update_self] at hp
            exact h p hp
          · rw [Function.update_of_ne hd] at hp
            exact cs.previous_lt d p hp })
  else none

def setIns (cs : Contexts) (c : ContextId) (ins : Int) : Contexts :=
  cs.modify c (fun x => { x with ins := ins })

def setError (cs : Contexts) (c : ContextId) (err : ObjectId) : Contexts :=
  cs.modify c (fun x => { x with error := some err })

def setCatchIns (cs : Contexts) (c : ContextId) (catchIns : Int) : Contexts :=
  cs.modify c (fun x => { x with catchIns := catchIns })

/-- The first `n` contexts from `c` along the previous pointers. -/
def chainOf (cs : Contexts) : Nat → Option ContextId → List ContextId
  | 0, _ => []
  | _ + 1, none => []
  | n + 1, some c => c :: cs.chainOf n (cs.context c).previous

/-- `c` and all contexts before it. -/
def chain (cs : Contexts) (c : ContextId) : List ContextId := cs.chainOf (c + 1) (some c)

def chain? (cs : Contexts) : Option ContextId → List ContextId
  | none => []
  | some c => cs.chain c

@[simp] theorem chainOf_none (cs : Contexts) (n : Nat) : cs.chainOf n none = [] := by
  cases n <;> rfl

theorem chainOf_eq (cs : Contexts) : ∀ {n m : Nat} {c : Option ContextId},
    (∀ d, c = some d → d < n) → (∀ d, c = some d → d < m) → cs.chainOf n c = cs.chainOf m c
  | n, m, none, _, _ => by rw [chainOf_none, chainOf_none]
  | 0, _, some d, hn, _ => absurd (hn d rfl) (Nat.not_lt_zero d)
  | _, 0, some d, _, hm => absurd (hm d rfl) (Nat.not_lt_zero d)
  | n + 1, m + 1, some d, hn, hm => by
    have hd : d < n + 1 := hn d rfl
    have hd' : d < m + 1 := hm d rfl
    have hrest := @chainOf_eq cs n m (cs.context d).previous
      (fun p hp => Nat.lt_of_lt_of_le (cs.previous_lt d p hp) (Nat.le_of_lt_succ hd))
      (fun p hp => Nat.lt_of_lt_of_le (cs.previous_lt d p hp) (Nat.le_of_lt_succ hd'))
    rw [chainOf, chainOf, hrest]

theorem chain_eq (cs : Contexts) (c : ContextId) :
    cs.chain c = c :: cs.chain? (cs.context c).previous := by
  rw [chain, chainOf]
  congr 1
  cases hp : (cs.context c).previous with
  | none => simp [chain?]
  | some p =>
    have hlt := cs.previous_lt c p hp
    apply chainOf_eq
    · intro d hd
      cases hd
      exact hlt
    · intro d hd
      cases hd
      exact Nat.lt_succ_self p

theorem chain_modify (cs : Contexts) (c : ContextId) (f : Context → Context) (d : ContextId) :
    (cs.modify c f).chain d = cs.chain d := by
  have h : ∀ n o, (cs.modify c f).chainOf n o = cs.chainOf n o := by
    intro n
    induction n with
    | zero => intro o; rfl
    | succ n ih =>
      intro o
      cases o with
      | none => rfl
      | some x => rw [chainOf, chainOf, modify_previous, ih]
  exact h _ _

theorem chain_congr {cs cs' : Contexts} : ∀ {c : Nat},
    (∀ d ∈ cs.chain c, (cs'.context d).previous = (cs.context d).previous) →
      cs'.chain c = cs.chain c := by
  intro c
  induction c using Nat.strong_induction_on with
  | _ c ih =>
    intro h
    have hself := h c (by rw [chain_eq]; exact List.mem_cons_self)
    rw [chain_eq, chain_eq cs c, hself]
    cases hp : (cs.context c).previous with
    | none => rfl
    | some p =>
      rw [chain?, chain?, ih p (cs.previous_lt c p hp)]
      intro d hd
      apply h
      rw [chain_eq, hp]
      exact List.mem_cons_of_mem c hd

/-- Contexts further down a chain are older. -/
theorem lt_of_mem_chain {cs : Contexts} : ∀ {c d : Nat},
    d ∈ cs.chain? (cs.context c).previous → d < c := by
  intro c
  induction c using Nat.strong_induction_on with
  | _ c ih =>
    intro d hmem
    cases hp : (cs.context c).previous with
    | none => simp [hp, chain?] at hmem
    | some p =>
      have hlt := cs.previous_lt c p hp
      rw [hp, chain?, chain_eq] at hmem
      rcases List.mem_cons.mp hmem with rfl | hrest
      · exact hlt
      · exact (ih p hlt hrest).trans hlt

theorem le_of_mem_chain {cs : Contexts} {c d : Nat} (h : d ∈ cs.chain c) : d ≤ c := by
  rw [chain_eq] at h
  rcases List.mem_cons.mp h with rfl | hmem
  · exact Nat.le_refl _
  · exact Nat.le_of_lt (lt_of_mem_chain hmem)

end Contexts

/-- `context_lookup` in context `c`. -/
def contextLookup (s : Store) (cs : Contexts) (c : ContextId) (id : String) :
    Option Entity × Store :=
  let ctx := cs.context c
  if id = "self" then (some (.obj ctx.self), s)
  else
    match s.get ctx.memberObj id with
    | some member => (some member, s)
    | none =>
      match (cs.chain? ctx.previous).findSome? fun p => s.get (cs.context p).memberObj id with
      | some member => (some member, s)
      | none =>
        match s.get ctx.self id with
        | some member =>
          match s.anonFunction member with
          | some f =>
            let (r, s) := s.wrapFunctionInRef f ctx.self c
            (some (.obj r), s)
          | none => (some member, s)
        | none =>
          match s.classGetFunction (s.cls ctx.self) id with
          | some f =>
            let (r, s) := s.wrapFunctionInRef f ctx.self c
            (some (.obj r), s.setMember ctx.self id (.obj r))
          | none =>
            match s.get (s.modules ctx.module).reflection id with
            | some member => (some member, s)
            | none =>
              match s.moduleLookup ctx.module id with
              | some o =>
                match s.anonFunction (.obj o) with
                | some f =>
                  let (r, s) := s.wrapFunctionInRef f ctx.self c
                  (some (.obj r), s)
                | none =>
                  (some (.obj o), s.setMember (s.modules ctx.module).reflection id (.obj o))
              | none =>
                match s.get (s.modules s.builtin).reflection id with
                | some member => (some member, s)
                | none =>
                  match s.moduleLookup s.builtin id with
                  | some o =>
                    (some (.obj o), s.setMember (s.modules s.builtin).reflection id (.obj o))
                  | none => (none, s)

/-- `context_let` -/
def contextLet (s : Store) (cs : Contexts) (c : ContextId) (id : String) (e : Entity) : Store :=
  s.setMember (cs.context c).memberObj id e

/-- `context_set` -/
def contextSet (s : Store) (cs : Contexts) (c : ContextId) (id : String) (e : Entity) : Store :=
  let ctx := cs.context c
  if (s.get ctx.memberObj id).isSome then s.setMember ctx.memberObj id e
  else
    match (cs.chain? ctx.previous).find? fun p => (s.get (cs.context p).memberObj id).isSome with
    | some p => s.setMember (cs.context p).memberObj id e
    | none =>
      if (s.get ctx.self id).isSome then s.setMember ctx.self id e
      else s.setMember ctx.memberObj id e

end JeffVm
