import JeffVm.Closure
import JeffVm.Process

/-!
# Assignment and lookup

`context_lookup` goes through the member objects of the contexts, `self`, the functions of its
class and two modules; `context_set` goes through the member objects and `self` only, and makes
a new variable when none of them has the name.
-/

set_option autoImplicit false

namespace JeffVm

section

variable (s : Store) (cs : Contexts) (c : ContextId) (id : String)

/-- The member objects of `c` and all contexts before it. -/
def memberObjs : List ObjectId := (cs.chain c).map fun p => (cs.context p).memberObj

def Store.has (o : ObjectId) : Bool := (s.get o id).isSome

/-- The object in which a lookup in `c` finds `id` as a member; there is none when the lookup
finds a function of the class of `self` or an entry of a module, or nothing. -/
def variableOf : Option ObjectId :=
  let ctx := cs.context c
  match (memberObjs cs c).find? (s.has id) with
  | some o => some o
  | none =>
    if s.has id ctx.self then some ctx.self
    else if (s.classGetFunction (s.cls ctx.self) id).isSome then none
    else if s.has id (s.modules ctx.module).reflection then some (s.modules ctx.module).reflection
    else if (s.moduleLookup ctx.module id).isSome then none
    else if s.has id (s.modules s.builtin).reflection then some (s.modules s.builtin).reflection
    else none

/-- The object whose member `context_set` sets. -/
def assignedIn : ObjectId :=
  ((memberObjs cs c ++ [(cs.context c).self]).find? (s.has id)).getD (cs.context c).memberObj

/-- The objects in which a lookup in `c` looks for members. -/
def lookedIn : List ObjectId :=
  memberObjs cs c ++ [(cs.context c).self, (s.modules (cs.context c).module).reflection,
    (s.modules s.builtin).reflection]

/-- The member object of `c` is new: no lookup in a context before `c` looks there. -/
def OwnMembers : Prop :=
  ∀ p ∈ cs.chain? (cs.context c).previous, (cs.context c).memberObj ∉ lookedIn s cs p

instance : Decidable (OwnMembers s cs c) :=
  inferInstanceAs (Decidable (∀ p ∈ cs.chain? (cs.context c).previous,
    (cs.context c).memberObj ∉ lookedIn s cs p))

end

/-- The value of a lookup that ends at a binding. -/
def Binding.value (s : Store) : Binding → Entity
  | inContext member => member
  | onSelf member => if (s.anonFunction member).isSome then .obj s.nextObject else member
  | method _ => .obj s.nextObject
  | onModule member => member
  | inModule obj => if (s.anonFunction (.obj obj)).isSome then .obj s.nextObject else .obj obj
  | onBuiltin member => member
  | inBuiltin obj => .obj obj

variable {s : Store} {cs : Contexts} {c : ContextId} {id : String} {e : Entity} {o : ObjectId}

theorem contextLookup_value (hid : id ≠ "self") :
    (contextLookup s cs c id).1 = (binding s cs c id).map (Binding.value s) := by
  unfold contextLookup binding
  simp only [if_neg hid, findSome_chain]
  cases s.get (cs.context c).memberObj id with
  | some m => rfl
  | none =>
  cases (cs.chain? (cs.context c).previous).findSome?
      fun p => s.get (cs.context p).memberObj id with
  | some m => rfl
  | none =>
  cases s.get (cs.context c).self id with
  | some m => cases hanon : s.anonFunction m <;> simp [Binding.value, hanon, Store.wrapFunctionInRef]
  | none =>
  cases s.classGetFunction (s.cls (cs.context c).self) id with
  | some f => simp [Binding.value, Store.wrapFunctionInRef]
  | none =>
  cases s.get (s.modules (cs.context c).module).reflection id with
  | some m => rfl
  | none =>
  cases s.moduleLookup (cs.context c).module id with
  | some m =>
    cases hanon : s.anonFunction (.obj m) <;>
      simp [Binding.value, hanon, Store.wrapFunctionInRef]
  | none =>
  cases s.get (s.modules s.builtin).reflection id with
  | some m => rfl
  | none => cases s.moduleLookup s.builtin id <;> rfl

/-! ## Setting one member -/

theorem get_setMember (s : Store) (o o' : ObjectId) (id : String) (e : Entity) :
    (s.setMember o id e).get o' id = if o' = o then some e else s.get o' id := by
  by_cases h : o' = o
  · rw [if_pos h, h, Store.get_setMember_self]
  · rw [if_neg h, Store.get_setMember_ne s id id e h]

theorem get_setMember_other (s : Store) (o o' : ObjectId) {id id' : String} (e : Entity)
    (h : id' ≠ id) : (s.setMember o id e).get o' id' = s.get o' id' := by
  by_cases ho : o' = o
  · subst ho
    simp only [Store.get, Store.setMember, Store.modify_objects_self]
    rw [KeyedList.lookup_insert_ne h.symm]
  · exact Store.get_setMember_ne s id id' e ho

theorem anonFunction_setMember (s : Store) (o : ObjectId) (key : String) (e e' : Entity) :
    (s.setMember o key e).anonFunction e' = s.anonFunction e' := by
  unfold Store.anonFunction Store.functionOf
  simp only [Store.cls_setMember, Store.internal_setMember]
  rfl

theorem value_setMember (s : Store) (o : ObjectId) (key : String) (e : Entity) (b : Binding) :
    b.value (s.setMember o key e) = b.value s := by
  cases b <;> simp [Binding.value, anonFunction_setMember] <;> rfl

/-- The first member with the name among those of some objects. -/
theorem findSome_setMember_off {os : List ObjectId} (h : o ∉ os) :
    os.findSome? (fun o' => (s.setMember o id e).get o' id) =
      os.findSome? fun o' => s.get o' id := by
  induction os with
  | nil => rfl
  | cons o' rest ih =>
    obtain ⟨hne, hrest⟩ := not_or.mp (mt List.mem_cons.mpr h)
    rw [List.findSome?_cons, List.findSome?_cons, get_setMember, if_neg (Ne.symm hne), ih hrest]

/-- A write to the object with the first member is found. -/
theorem findSome_setMember_hit {os : List ObjectId} (h : os.find? (s.has id) = some o) :
    os.findSome? (fun o' => (s.setMember o id e).get o' id) = some e := by
  induction os with
  | nil => cases h
  | cons o' rest ih =>
    rw [List.find?_cons] at h
    rw [List.findSome?_cons, get_setMember]
    by_cases ho : o' = o
    · rw [if_pos ho]
    · rw [if_neg ho]
      cases hhas : s.has id o' with
      | true =>
        rw [hhas] at h
        exact absurd (Option.some.inj h) ho
      | false =>
        rw [hhas] at h
        have hnone : s.get o' id = none := Option.isSome_eq_false_iff.mp hhas |> Option.isNone_iff_eq_none.mp
        rw [hnone]
        exact ih h

/-- A write to an object that has the name already, but is not the first, is not seen. -/
theorem findSome_setMember_behind {os : List ObjectId} (hhas : s.has id o = true)
    (h : os.find? (s.has id) ≠ some o) :
    os.findSome? (fun o' => (s.setMember o id e).get o' id) =
      os.findSome? fun o' => s.get o' id := by
  induction os with
  | nil => rfl
  | cons o' rest ih =>
    rw [List.find?_cons] at h
    rw [List.findSome?_cons, List.findSome?_cons, get_setMember]
    by_cases ho : o' = o
    · subst ho
      rw [hhas] at h
      exact absurd rfl h
    · rw [if_neg ho]
      cases hget : s.get o' id with
      | some m => rfl
      | none =>
        have hnot : s.has id o' = false := by rw [Store.has, hget]; rfl
        rw [hnot] at h
        exact ih h

/-! ## The binding after a write -/

theorem binding_members : binding s cs c id =
    (((memberObjs cs c).findSome? fun o => s.get o id).map .inContext <|>
      (s.get (cs.context c).self id).map .onSelf <|>
      (s.classGetFunction (s.cls (cs.context c).self) id).map .method <|>
      (s.get (s.modules (cs.context c).module).reflection id).map .onModule <|>
      (s.moduleLookup (cs.context c).module id).map .inModule <|>
      (s.get (s.modules s.builtin).reflection id).map .onBuiltin <|>
      (s.moduleLookup s.builtin id).map .inBuiltin) := by
  unfold memberObjs binding
  rw [List.findSome?_map]
  rfl

theorem binding_setMember : binding (s.setMember o id e) cs c id =
    (((memberObjs cs c).findSome? fun o' => (s.setMember o id e).get o' id).map .inContext <|>
      ((s.setMember o id e).get (cs.context c).self id).map .onSelf <|>
      (s.classGetFunction (s.cls (cs.context c).self) id).map .method <|>
      ((s.setMember o id e).get (s.modules (cs.context c).module).reflection id).map .onModule <|>
      (s.moduleLookup (cs.context c).module id).map .inModule <|>
      ((s.setMember o id e).get (s.modules s.builtin).reflection id).map .onBuiltin <|>
      (s.moduleLookup s.builtin id).map .inBuiltin) := by
  rw [binding_members, Store.cls_setMember]
  rfl

theorem binding_off (h : o ∉ lookedIn s cs c) :
    binding (s.setMember o id e) cs c id = binding s cs c id := by
  simp only [lookedIn, List.mem_append, List.mem_cons, not_or] at h
  obtain ⟨hmembers, hself, hmodule, hbuiltin, -⟩ := h
  rw [binding_setMember, binding_members, findSome_setMember_off hmembers, get_setMember,
    get_setMember, get_setMember, if_neg (Ne.symm hself), if_neg (Ne.symm hmodule),
    if_neg (Ne.symm hbuiltin)]

theorem binding_other {id' : String} (h : id' ≠ id) :
    binding (s.setMember o id e) cs c id' = binding s cs c id' := by
  unfold binding
  simp only [get_setMember_other _ _ _ _ h, Store.cls_setMember]
  rfl

theorem get_of_not_has (h : ¬ s.has id o = true) : s.get o id = none := by
  simpa [Store.has] using h

theorem findSome_of_find_none {os : List ObjectId} (h : os.find? (s.has id) = none) :
    (os.findSome? fun o => s.get o id) = none := by
  apply List.findSome?_eq_none_iff.mpr
  intro o ho
  exact get_of_not_has (List.find?_eq_none.mp h o ho)

/-- Where the walk of a lookup ends, with what it has passed. -/
inductive Walk (s : Store) (cs : Contexts) (c : ContextId) (id : String) : Option ObjectId → Prop
  | inContext {o : ObjectId} (h : (memberObjs cs c).find? (s.has id) = some o) :
      Walk s cs c id (some o)
  | onSelf (hmembers : (memberObjs cs c).find? (s.has id) = none)
      (h : s.has id (cs.context c).self = true) : Walk s cs c id (some (cs.context c).self)
  | method {f : FunctionId} (hmembers : (memberObjs cs c).find? (s.has id) = none)
      (hself : ¬ s.has id (cs.context c).self = true)
      (h : s.classGetFunction (s.cls (cs.context c).self) id = some f) : Walk s cs c id none
  | onModule (hmembers : (memberObjs cs c).find? (s.has id) = none)
      (hself : ¬ s.has id (cs.context c).self = true)
      (hmethod : s.classGetFunction (s.cls (cs.context c).self) id = none)
      (h : s.has id (s.modules (cs.context c).module).reflection = true) :
      Walk s cs c id (some (s.modules (cs.context c).module).reflection)
  | inModule {m : ObjectId} (hmembers : (memberObjs cs c).find? (s.has id) = none)
      (hself : ¬ s.has id (cs.context c).self = true)
      (hmethod : s.classGetFunction (s.cls (cs.context c).self) id = none)
      (hmodule : ¬ s.has id (s.modules (cs.context c).module).reflection = true)
      (h : s.moduleLookup (cs.context c).module id = some m) : Walk s cs c id none
  | builtin (hmembers : (memberObjs cs c).find? (s.has id) = none)
      (hself : ¬ s.has id (cs.context c).self = true)
      (hmethod : s.classGetFunction (s.cls (cs.context c).self) id = none)
      (hmodule : ¬ s.has id (s.modules (cs.context c).module).reflection = true)
      (hentry : s.moduleLookup (cs.context c).module id = none) :
      Walk s cs c id (if s.has id (s.modules s.builtin).reflection = true then
        some (s.modules s.builtin).reflection else none)

theorem walk (s : Store) (cs : Contexts) (c : ContextId) (id : String) :
    Walk s cs c id (variableOf s cs c id) := by
  unfold variableOf
  cases hmembers : (memberObjs cs c).find? (s.has id) with
  | some o => exact .inContext hmembers
  | none =>
  by_cases hself : s.has id (cs.context c).self = true
  · simp only [if_pos hself]
    exact .onSelf hmembers hself
  simp only [if_neg hself]
  cases hmethod : s.classGetFunction (s.cls (cs.context c).self) id with
  | some f => exact .method hmembers hself hmethod
  | none =>
  by_cases hmodule : s.has id (s.modules (cs.context c).module).reflection = true
  · simp only [if_pos hmodule]
    exact .onModule hmembers hself hmethod hmodule
  simp only [if_neg hmodule]
  cases hentry : s.moduleLookup (cs.context c).module id with
  | some m => exact .inModule hmembers hself hmethod hmodule hentry
  | none => exact .builtin hmembers hself hmethod hmodule hentry

theorem has_of_variableOf (h : variableOf s cs c id = some o) : s.has id o = true := by
  have hwalk := walk s cs c id
  rw [h] at hwalk
  generalize hv : some o = v at hwalk
  cases hwalk with
  | inContext hfind =>
    cases hv
    exact List.find?_some hfind
  | onSelf _ hself =>
    cases hv
    exact hself
  | method => cases hv
  | onModule _ _ _ hmodule =>
    cases hv
    exact hmodule
  | inModule => cases hv
  | builtin =>
    split at hv
    · rename_i hbuiltin
      cases hv
      exact hbuiltin
    · cases hv

/-- A write to the variable that the name is bound to is seen. -/
theorem value_hit (he : s.anonFunction e = none) (h : variableOf s cs c id = some o) :
    (binding (s.setMember o id e) cs c id).map (Binding.value (s.setMember o id e)) = some e := by
  have hhas := has_of_variableOf h
  have hne : ∀ o', ¬ s.has id o' = true → o' ≠ o := by
    rintro o' hnot rfl
    exact hnot hhas
  have hwalk := walk s cs c id
  rw [binding_setMember]
  rw [h] at hwalk
  have hmembers' : (memberObjs cs c).find? (s.has id) = none →
      ((memberObjs cs c).findSome? fun o' => (s.setMember o id e).get o' id) = none := by
    intro hmembers
    rw [findSome_setMember_behind hhas (by simp [hmembers]), findSome_of_find_none hmembers]
  generalize hv : some o = v at hwalk
  cases hwalk with
  | inContext hfind =>
    cases hv
    rw [findSome_setMember_hit hfind]
    rfl
  | onSelf hmembers _ =>
    cases hv
    rw [hmembers' hmembers, get_setMember, if_pos rfl]
    simp [Binding.value, anonFunction_setMember, he]
  | method => cases hv
  | onModule hmembers hself hmethod _ =>
    cases hv
    rw [hmembers' hmembers, get_setMember, if_neg (hne _ hself), get_of_not_has hself, hmethod,
      get_setMember, if_pos rfl]
    rfl
  | inModule => cases hv
  | builtin hmembers hself hmethod hmodule hentry =>
    split at hv
    · cases hv
      rw [hmembers' hmembers, get_setMember, if_neg (hne _ hself), get_of_not_has hself, hmethod,
        get_setMember, if_neg (hne _ hmodule), get_of_not_has hmodule, hentry, get_setMember,
        if_pos rfl]
      rfl
    · cases hv

/-- A write to an object that has the name, but not as the variable that it is bound to. -/
theorem binding_behind (hhas : s.has id o = true) (h : variableOf s cs c id ≠ some o) :
    binding (s.setMember o id e) cs c id = binding s cs c id := by
  have hne : ∀ o', ¬ s.has id o' = true → o' ≠ o := by
    rintro o' hnot rfl
    exact hnot hhas
  have hne' : ∀ o', some o' ≠ some o → o' ≠ o := fun o' h' heq => h' (congrArg some heq)
  have hwalk := walk s cs c id
  have hmembers' : (memberObjs cs c).find? (s.has id) ≠ some o := by
    intro hfind
    apply h
    unfold variableOf
    rw [hfind]
  rw [binding_setMember, binding_members, findSome_setMember_behind hhas hmembers']
  generalize variableOf s cs c id = v at h hwalk
  cases hwalk with
  | inContext hfind =>
    rename_i o'
    have hmem := List.mem_of_find?_eq_some hfind
    have hhas' : s.has id o' = true := List.find?_some hfind
    have hsome : ((memberObjs cs c).findSome? fun o => s.get o id).isSome :=
      List.findSome?_isSome_iff.mpr ⟨o', hmem, hhas'⟩
    obtain ⟨m, hm⟩ := Option.isSome_iff_exists.mp hsome
    rw [hm]
    rfl
  | onSelf hmembers hself =>
    obtain ⟨m, hm⟩ := Option.isSome_iff_exists.mp hself
    rw [get_setMember, if_neg (hne' _ h), findSome_of_find_none hmembers, hm]
    rfl
  | method hmembers hself hmethod =>
    rw [get_setMember, if_neg (hne _ hself), hmethod, findSome_of_find_none hmembers,
      get_of_not_has hself]
    rfl
  | onModule hmembers hself hmethod hmodule =>
    obtain ⟨m, hm⟩ := Option.isSome_iff_exists.mp hmodule
    rw [get_setMember, if_neg (hne _ hself), get_setMember, if_neg (hne' _ h), hm,
      findSome_of_find_none hmembers, get_of_not_has hself, hmethod]
    rfl
  | inModule hmembers hself hmethod hmodule hentry =>
    rw [get_setMember, if_neg (hne _ hself), get_setMember, if_neg (hne _ hmodule), hentry,
      findSome_of_find_none hmembers, get_of_not_has hself, hmethod, get_of_not_has hmodule]
    rfl
  | builtin hmembers hself hmethod hmodule hentry =>
    rw [get_setMember, if_neg (hne _ hself), get_setMember, if_neg (hne _ hmodule), get_setMember]
    split at h
    · rw [if_neg (hne' _ h)]
    · rename_i hbuiltin
      rw [if_neg (hne _ hbuiltin)]

/-! ## What `context_set` writes -/

theorem contextSet_eq : contextSet s cs c id e = s.setMember (assignedIn s cs c id) id e := by
  have hhas : s.has id = fun o => (s.get o id).isSome := rfl
  unfold contextSet assignedIn memberObjs
  rw [Contexts.chain_eq, List.map_cons, List.cons_append, List.find?_cons]
  simp only [hhas]
  cases hget : (s.get (cs.context c).memberObj id).isSome with
  | true => rfl
  | false =>
    rw [List.find?_append, List.find?_map]
    simp only [Function.comp_def]
    cases (cs.chain? (cs.context c).previous).find?
        fun p => (s.get (cs.context p).memberObj id).isSome with
    | some p => rfl
    | none =>
      simp only [List.find?_singleton]
      cases (s.get (cs.context c).self id).isSome <;> rfl

/-- Either `context_set` assigns to the variable that a lookup finds, or none of the objects it
looks in has the name, and it makes a new variable. -/
theorem assignedIn_cases : variableOf s cs c id = some (assignedIn s cs c id) ∨
    assignedIn s cs c id = (cs.context c).memberObj := by
  unfold variableOf assignedIn
  rw [List.find?_append]
  cases hmembers : (memberObjs cs c).find? (s.has id) with
  | some o => exact .inl rfl
  | none =>
    cases hself : s.has id (cs.context c).self with
    | true => simp [hself]
    | false => simp [hself]

theorem lookup_own : (contextLookup (s.setMember (cs.context c).memberObj id e) cs c id).1 =
    if id = "self" then some (.obj (cs.context c).self) else some e := by
  unfold contextLookup
  by_cases hid : id = "self"
  · simp only [if_pos hid]
  · simp only [if_neg hid, Store.get_setMember_self]

theorem lookup_self (s : Store) : (contextLookup s cs c "self").1 = some (.obj (cs.context c).self) :=
  rfl

theorem lookup_off (hid : id ≠ "self") (h : o ∉ lookedIn s cs c) :
    (contextLookup (s.setMember o id e) cs c id).1 = (contextLookup s cs c id).1 := by
  rw [contextLookup_value hid, contextLookup_value hid, binding_off h]
  exact congrArg (fun f => (binding s cs c id).map f) (funext (value_setMember s o id e))

theorem lookup_behind (hid : id ≠ "self") (hhas : s.has id o = true)
    (h : variableOf s cs c id ≠ some o) :
    (contextLookup (s.setMember o id e) cs c id).1 = (contextLookup s cs c id).1 := by
  rw [contextLookup_value hid, contextLookup_value hid, binding_behind hhas h]
  exact congrArg (fun f => (binding s cs c id).map f) (funext (value_setMember s o id e))

theorem lookup_hit (hid : id ≠ "self") (he : s.anonFunction e = none)
    (h : variableOf s cs c id = some o) :
    (contextLookup (s.setMember o id e) cs c id).1 = some e := by
  rw [contextLookup_value hid]
  exact value_hit he h

theorem lookup_other {id' : String} (h : id' ≠ id) :
    (contextLookup (s.setMember o id e) cs c id').1 = (contextLookup s cs c id').1 := by
  by_cases hid : id' = "self"
  · rw [hid, lookup_self, lookup_self]
  · rw [contextLookup_value hid, contextLookup_value hid, binding_other h]
    exact congrArg (fun f => (binding s cs c id').map f) (funext (value_setMember s o id e))

/-! ## The two agree -/

/-- A lookup finds what was assigned. A context before `c` sees it just when it resolved the name
to the variable that the assignment changed; `context_let` changes nothing for it. -/
theorem set_and_let_scope (s : Store) (cs : Contexts) (c : ContextId) (id : String) (e : Entity)
    (hid : id ≠ "self") (he : s.anonFunction e = none) (hown : OwnMembers s cs c) :
    ((contextLookup (contextSet s cs c id e) cs c id).1 = some e ∧
      (∀ p ∈ cs.chain? (cs.context c).previous,
        (contextLookup (contextSet s cs c id e) cs p id).1 =
          if variableOf s cs p id = some (assignedIn s cs c id) then some e
          else (contextLookup s cs p id).1) ∧
      ∀ d id', id' ≠ id → (contextLookup (contextSet s cs c id e) cs d id').1 =
        (contextLookup s cs d id').1) ∧
    (contextLookup (contextLet s cs c id e) cs c id).1 = some e ∧
      ∀ p ∈ cs.chain? (cs.context c).previous,
        (contextLookup (contextLet s cs c id e) cs p id).1 = (contextLookup s cs p id).1 := by
  rw [contextSet_eq]
  have hlet : (contextLookup (contextLet s cs c id e) cs c id).1 = some e := by
    rw [contextLet, lookup_own, if_neg hid]
  refine ⟨⟨?_, ?_, fun d id' h => lookup_other h⟩, hlet, fun p hp => lookup_off hid (hown p hp)⟩
  · rcases assignedIn_cases with hvariable | hnew
    · exact lookup_hit hid he hvariable
    · rw [hnew]
      exact hlet
  · intro p hp
    by_cases hvariable : variableOf s cs p id = some (assignedIn s cs c id)
    · rw [if_pos hvariable]
      exact lookup_hit hid he hvariable
    · rw [if_neg hvariable]
      rcases assignedIn_cases with hfound | hnew
      · exact lookup_behind hid (has_of_variableOf hfound) hvariable
      · rw [hnew]
        exact lookup_off hid (hown p hp)

/-! ## New contexts -/

theorem create_some {cs cs' : Contexts} {ctx : Context} {c : ContextId}
    (h : cs.create ctx = some (c, cs')) : c = cs.next ∧
      cs'.context = Function.update cs.context cs.next ctx ∧
        ∀ p, ctx.previous = some p → p < cs.next := by
  unfold Contexts.create at h
  split at h
  · rename_i hprevious
    cases h
    exact ⟨rfl, rfl, hprevious⟩
  · cases h

theorem createContext_some {w w' : World} {t : TaskId} {self : ObjectId} {m : ModuleId}
    {insPos : Int} {func : Option FunctionId} {previous : Option ContextId} {c : ContextId}
    (h : w.createContext t self m insPos func previous = some (c, w')) :
    w'.store.modules = w.store.modules ∧ w'.store.builtin = w.store.builtin ∧
      w.contexts.create ⟨t, previous, w.store.nextObject, self, m, func, insPos, none, -1⟩ =
        some (c, w'.contexts) := by
  unfold World.createContext at h
  simp only [Store.heapNew] at h
  split at h
  · cases h
  · rename_i hcreate
    cases h
    exact ⟨rfl, rfl, hcreate⟩

/-- The condition holds of every new context, as all objects that lookups in the contexts before
it look in exist already. -/
theorem createContext_ownMembers {w w' : World} {t : TaskId} {self : ObjectId} {m : ModuleId}
    {insPos : Int} {func : Option FunctionId} {previous : Option ContextId} {c : ContextId}
    (h : w.createContext t self m insPos func previous = some (c, w'))
    (hexist : ∀ p ∈ w.contexts.chain? previous, ∀ o ∈ lookedIn w.store w.contexts p,
      o < w.store.nextObject) : OwnMembers w'.store w'.contexts c := by
  obtain ⟨hmodules, hbuiltin, hcreate⟩ := createContext_some h
  obtain ⟨rfl, hcontext, hprevious⟩ := create_some hcreate
  have hsame : ∀ d, d < w.contexts.next → w'.contexts.context d = w.contexts.context d := by
    intro d hd
    rw [hcontext, Function.update_of_ne (Nat.ne_of_lt hd)]
  have hchain : ∀ p, p < w.contexts.next → w'.contexts.chain p = w.contexts.chain p := by
    intro p hp
    apply Contexts.chain_congr
    intro d hd
    rw [hsame d (Nat.lt_of_le_of_lt (Contexts.le_of_mem_chain hd) hp)]
  have hlooked : ∀ p, p < w.contexts.next →
      lookedIn w'.store w'.contexts p = lookedIn w.store w.contexts p := by
    intro p hp
    have hmembers : memberObjs w'.contexts p = memberObjs w.contexts p := by
      unfold memberObjs
      rw [hchain p hp]
      apply List.map_congr_left
      intro d hd
      rw [hsame d (Nat.lt_of_le_of_lt (Contexts.le_of_mem_chain hd) hp)]
    rw [lookedIn, lookedIn, hmembers, hsame p hp, hmodules, hbuiltin]
  have hnew : w'.contexts.context w.contexts.next =
      ⟨t, previous, w.store.nextObject, self, m, func, insPos, none, -1⟩ := by
    rw [hcontext, Function.update_self]
  intro p hp
  rw [hnew] at hp ⊢
  cases previous with
  | none => cases hp
  | some q =>
    have hq : q < w.contexts.next := hprevious q rfl
    rw [Contexts.chain?, hchain q hq] at hp
    intro hmem
    rw [hlooked p (Nat.lt_of_le_of_lt (Contexts.le_of_mem_chain hp) hq)] at hmem
    exact Nat.lt_irrefl _ (hexist p hp _ hmem)

/-! ## A name that the module has -/

/-- Two contexts of a module whose member `x` is 1, none of which has a variable `x`. -/
def shadowedStore : Store where
  objects := fun o => ⟨.Object, if o = 9 then KeyedList.empty.insert ("x", .int 1) else .empty, .none⟩
  nextObject := 10
  classes := fun _ => ⟨"A", [], .empty, 8⟩
  functions := fun _ => ⟨"f", 0, false, false, false, false, 0, 8⟩
  modules := fun _ => ⟨"m", [], .empty, .empty, 9, true⟩
  builtin := 0

/-- The second was made in the first. -/
def nestedContexts : Contexts where
  context := fun c => ⟨0, if c = 1 then some 0 else none, c + 1, 0, 0, none, 0, none, -1⟩
  next := 2
  previous_lt := by
    intro c p h
    split at h
    · rename_i hc
      cases h
      subst hc
      exact Nat.one_pos
    · cases h

theorem set_and_let_scope_nested :
    (contextLookup (contextSet shadowedStore nestedContexts 1 "x" (.int 2)) nestedContexts 1
      "x").1 = some (.int 2) :=
  (set_and_let_scope shadowedStore nestedContexts 1 "x" (.int 2) (by decide) rfl
    (by decide)).1.1

/-- The outer context resolves `x` to the same variable, and does not see the new value. -/
theorem not_set_and_let_scope : ¬ ∀ (s : Store) (cs : Contexts) (c : ContextId) (id : String)
    (e : Entity), id ≠ "self" → s.anonFunction e = none → OwnMembers s cs c →
      ∀ p ∈ cs.chain? (cs.context c).previous, ∀ o, variableOf s cs c id = some o →
        variableOf s cs p id = some o →
          (contextLookup (contextSet s cs c id e) cs p id).1 = some e := by
  intro h
  have hseen := h shadowedStore nestedContexts 1 "x" (.int 2) (by decide) rfl (by decide) 0
    (by decide) 9 (by decide) (by decide)
  revert hseen
  decide

end JeffVm
