import JeffVm.Context

/-!
# What an anonymous function captures

The value of `RES $anon_…` is what `context_lookup` finds first. Functions are wrapped anew,
with the context of the lookup; what an earlier lookup stored is returned as it is.
-/

set_option autoImplicit false

namespace JeffVm

/-- `is_anon` -/
def isAnonName (name : String) : Bool := "$anon_".toList.isPrefixOf name.toList

/-- A function reference whose captured parent context is `c`. -/
def Captures (s : Store) (e : Entity) (c : ContextId) : Prop :=
  ∃ r o f, e = .obj r ∧ s.cls r = .FunctionRef ∧ s.internal r = .functionRef o f (some c)

/-- What a name is bound to, by the place where the lookup finds it first. -/
inductive Binding where
  | inContext (member : Entity)
  | onSelf (member : Entity)
  | method (func : FunctionId)
  | onModule (member : Entity)
  | inModule (obj : ObjectId)
  | onBuiltin (member : Entity)
  | inBuiltin (obj : ObjectId)

/-- The first binding of a name other than `self` on the path of `context_lookup`. -/
def binding (s : Store) (cs : Contexts) (c : ContextId) (id : String) : Option Binding :=
  let ctx := cs.context c
  ((cs.chain c).findSome? fun p => s.get (cs.context p).memberObj id).map .inContext <|>
    (s.get ctx.self id).map .onSelf <|>
    (s.classGetFunction (s.cls ctx.self) id).map .method <|>
    (s.get (s.modules ctx.module).reflection id).map .onModule <|>
    (s.moduleLookup ctx.module id).map .inModule <|>
    (s.get (s.modules s.builtin).reflection id).map .onBuiltin <|>
    (s.moduleLookup s.builtin id).map .inBuiltin

/-- A lookup in `c` wraps the binding anew, or the binding is a reference made in `c`. -/
def Binding.Fresh (s : Store) (c : ContextId) : Binding → Prop
  | inContext member => Captures s member c
  | onSelf member => (s.anonFunction member).isSome ∨ Captures s member c
  | method func => (s.functions func).isAnon
  | onModule member => Captures s member c
  | inModule obj => (s.anonFunction (.obj obj)).isSome ∨ Captures s (.obj obj) c
  | onBuiltin member => Captures s member c
  | inBuiltin obj => Captures s (.obj obj) c

/-- The lookup of `id` in `c` yields a function that captures `c`. -/
def YieldsFreshClosure (s : Store) (cs : Contexts) (c : ContextId) (id : String) : Prop :=
  ∃ e, (contextLookup s cs c id).1 = some e ∧ Captures (contextLookup s cs c id).2 e c

theorem captures_setMember (s : Store) (o : ObjectId) (key : String) (e e' : Entity)
    (c : ContextId) : Captures (s.setMember o key e') e c ↔ Captures s e c := by
  unfold Captures
  simp only [Store.cls_setMember, Store.internal_setMember]

theorem captures_wrap (s : Store) (f : FunctionId) (o : ObjectId) (c d : ContextId) :
    Captures (s.wrapFunctionInRef f o c).2 (.obj (s.wrapFunctionInRef f o c).1) d ↔
      (s.functions f).isAnon ∧ c = d := by
  have hcls := Store.cls_heapNewWith s .FunctionRef
    (.functionRef o f (if (s.functions f).isAnon then some c else none))
  have hinternal := Store.internal_heapNewWith s .FunctionRef
    (.functionRef o f (if (s.functions f).isAnon then some c else none))
  constructor
  · rintro ⟨r, o', f', heq, -, href⟩
    cases heq
    rw [Store.wrapFunctionInRef, Store.heapNewWith_fst, hinternal] at href
    split at href
    · rename_i hanon
      cases href
      exact ⟨hanon, rfl⟩
    · cases href
  · rintro ⟨hanon, rfl⟩
    refine ⟨_, o, f, rfl, hcls, ?_⟩
    rw [Store.wrapFunctionInRef, Store.heapNewWith_fst, hinternal, if_pos hanon]

theorem anonFunction_isAnon {s : Store} {e : Entity} {f : FunctionId}
    (h : s.anonFunction e = some f) : (s.functions f).isAnon := by
  have := (Option.filter_eq_some_iff.mp h).2
  simpa using this

theorem findSome_chain (s : Store) (cs : Contexts) (c : ContextId) (id : String) :
    (cs.chain c).findSome? (fun p => s.get (cs.context p).memberObj id) =
      (s.get (cs.context c).memberObj id <|>
        (cs.chain? (cs.context c).previous).findSome?
          fun p => s.get (cs.context p).memberObj id) := by
  rw [Contexts.chain_eq, List.findSome?_cons]
  cases s.get (cs.context c).memberObj id <;> rfl

/-- An anonymous function expression captures the context that evaluates it just when its
name is not bound to what an evaluation in another context has stored. -/
theorem yields_fresh_closure_iff (s : Store) (cs : Contexts) (c : ContextId) (id : String)
    (hid : isAnonName id) :
    YieldsFreshClosure s cs c id ↔ ∃ b, binding s cs c id = some b ∧ b.Fresh s c := by
  have hself : id ≠ "self" := by
    rintro rfl
    exact absurd hid (by decide)
  unfold YieldsFreshClosure contextLookup binding
  simp only [if_neg hself, findSome_chain]
  cases hmember : s.get (cs.context c).memberObj id with
  | some e => simp [Binding.Fresh]
  | none =>
  cases henclosing : (cs.chain? (cs.context c).previous).findSome?
      fun p => s.get (cs.context p).memberObj id with
  | some e => simp [Binding.Fresh]
  | none =>
  cases honSelf : s.get (cs.context c).self id with
  | some e =>
    cases hanon : s.anonFunction e with
    | some f => simp [Binding.Fresh, hanon, captures_wrap, anonFunction_isAnon hanon]
    | none => simp [Binding.Fresh, hanon]
  | none =>
  cases hmethod : s.classGetFunction (s.cls (cs.context c).self) id with
  | some f => simp [Binding.Fresh, captures_setMember, captures_wrap]
  | none =>
  cases honModule : s.get (s.modules (cs.context c).module).reflection id with
  | some e => simp [Binding.Fresh]
  | none =>
  cases hinModule : s.moduleLookup (cs.context c).module id with
  | some o =>
    cases hanon : s.anonFunction (.obj o) with
    | some f => simp [Binding.Fresh, hanon, captures_wrap, anonFunction_isAnon hanon]
    | none => simp [Binding.Fresh, hanon, captures_setMember]
  | none =>
  cases honBuiltin : s.get (s.modules s.builtin).reflection id with
  | some e => simp [Binding.Fresh]
  | none =>
    cases hinBuiltin : s.moduleLookup s.builtin id <;> simp [Binding.Fresh, captures_setMember]

/-- Object 0 is an instance of a class with one anonymous function, in a method at `2:3`. -/
def methodStore : Store where
  objects := fun _ => ⟨.user 0, .empty, .none⟩
  nextObject := 3
  classes := fun _ => ⟨"A", [], ⟨[("$anon_2_3", 0)], by decide⟩, 9⟩
  functions := fun _ => ⟨"$anon_2_3", 0, false, true, false, false, 0, 9⟩
  modules := fun _ => ⟨"m", [], .empty, .empty, 9, true⟩
  builtin := 0

/-- Two activations of the method on object 0. -/
def twoActivations : Contexts where
  context := fun c => ⟨0, none, c + 1, 0, 0, none, 0, none, -1⟩
  next := 2
  previous_lt := by simp

/-- The first evaluation on an object. -/
theorem yields_fresh_closure_first : YieldsFreshClosure methodStore twoActivations 0 "$anon_2_3" :=
  (yields_fresh_closure_iff methodStore twoActivations 0 "$anon_2_3" rfl).mpr ⟨.method 0, rfl, rfl⟩

/-- The second activation gets the closure of the first. -/
theorem not_yields_fresh_closure : ¬ ∀ (s : Store) (cs : Contexts) (c c' : ContextId) (id : String)
    (f : FunctionId), isAnonName id → s.classGetFunction (s.cls (cs.context c').self) id = some f →
      (s.functions f).isAnon → YieldsFreshClosure (contextLookup s cs c id).2 cs c' id := by
  intro h
  obtain ⟨e, hlookup, r, o, f, rfl, -, hinternal⟩ :=
    h methodStore twoActivations 0 1 "$anon_2_3" 0 rfl rfl rfl
  cases hlookup
  cases hinternal

end JeffVm
