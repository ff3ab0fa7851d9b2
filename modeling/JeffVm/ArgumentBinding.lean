import JeffVm.Site
import JeffVm.Runnable
import JeffVm.Unwind

/-!
# Binding arguments

The code of `produce_arguments` takes the value that a function is called with apart and binds
the parameters, in order. The default expressions are the parts of the code that are evaluated
as a whole.
-/

set_option autoImplicit false

namespace JeffVm

/-! ## The pieces of the code -/

namespace Argument

def hasDefault (arg : Argument) : Bool := arg.defaultValue.isSome

def bindPieces (arg : Argument) : List Piece := (lowerArgument arg).code.map .own

/-- What the binding of a parameter to `e` shows. -/
def binding (self : ObjectId) (arg : Argument) (e : Entity) : RunEvent :=
  if arg.isField then .setField (.obj self) arg.argName.text e else .letVar arg.argName.text e

def tuplePieces (i : Nat) (isLast : Bool) (arg : Argument) : List Piece :=
  let get : List Piece := [.own ⟨if isLast then .RES else .PEEK, .noArg⟩, .own ⟨.TGET, .val (.int i)⟩]
  match arg.defaultValue with
  | some value =>
    let is := (lower value).code
    [.own ⟨.PEEK, .noArg⟩, .own ⟨.TGTE, .val (.int (i + 1))⟩, .own ⟨.IFN, .val (.int 3)⟩] ++ get ++
      [.own ⟨.JMP, .val (.int is.length)⟩, .part is] ++ arg.bindPieces
  | none => get ++ arg.bindPieces

def defaultPieces (arg : Argument) : List Piece :=
  match arg.defaultValue with
  | some value => .part (lower value).code :: arg.bindPieces
  | none => .own ⟨.RNIL, .noArg⟩ :: arg.bindPieces

def onlyPieces (arg : Argument) : List Piece :=
  match arg.defaultValue with
  | some value =>
    let is := (lower value).code
    [.own ⟨.PUSH, .noArg⟩, .own ⟨.TGTE, .val (.int 1)⟩, .own ⟨.IF, .val (.int (is.length + 1))⟩,
      .part is, .own ⟨.JMP, .val (.int 1)⟩, .own ⟨.RES, .noArg⟩, .own ⟨.TGET, .val (.int 0)⟩] ++
      arg.bindPieces
  | none => arg.bindPieces

/-- The parser makes the name of a parameter an identifier and its default an expression. -/
structure WellFormed (arg : Argument) : Prop where
  name : arg.argName.isName = true
  value : ∀ value, arg.defaultValue = some value → (lower value).code ≠ []

end Argument

def allPieces : Nat → List Argument → List Piece
  | _, [] => []
  | i, arg :: rest => arg.tuplePieces i rest.isEmpty ++ allPieces (i + 1) rest

def defaultsPieces (args : List Argument) : List Piece := args.flatMap Argument.defaultPieces

namespace Arguments

def all (args : Arguments) : List Argument := args.first :: args.rest

def pieces (args : Arguments) : List Piece :=
  if args.rest = [] then args.first.onlyPieces
  else
    let tuple := allPieces 0 args.all
    let single := .own ⟨.RES, .noArg⟩ :: args.first.bindPieces ++ defaultsPieces args.rest
    [.own ⟨.PUSH, .noArg⟩, .own ⟨.TLEN, .noArg⟩, .own ⟨.PUSH, .noArg⟩,
      .own ⟨.PUSH, .val (.int (-1))⟩, .own ⟨.EQ, .noArg⟩,
      .own ⟨.IFN, .val (.int (Piece.size single + 1))⟩] ++ single ++
      [.own ⟨.JMP, .val (.int (Piece.size tuple))⟩] ++ tuple

end Arguments

theorem codeAll_own (is : List Instruction) : Piece.codeAll (is.map .own) = is := by
  induction is with
  | nil => rfl
  | cons i is ih => rw [List.map_cons, Piece.codeAll_cons, ih]; rfl

theorem codeAll_bind (arg : Argument) :
    Piece.codeAll arg.bindPieces = (lowerArgument arg).code := codeAll_own _

@[simp] theorem code_plain (ins : Instruction) : (Code.plain ins).code = [ins] := by
  simp [Code.code, Code.emit, Item.plain]

@[simp] theorem code_nil : Code.nil.code = [] := by
  simp [Code.code, Code.emit]

@[simp] theorem code_choice (test : Test) (a b : Code) :
    (Code.choice test a b).code =
      ⟨test.op, .val (.int (a.size + 1))⟩ :: (a.code ++ ⟨.JMP, .val (.int b.size)⟩ :: b.code) := by
  simp [Code.code, Code.emit, Code.size, Item.jump, Item.plain]

theorem codeAll_tuple (i : Nat) (isLast : Bool) (arg : Argument) :
    Piece.codeAll (arg.tuplePieces i isLast) = (lowerTupleArgument i isLast arg).code := by
  obtain ⟨isConst, isField, argName, defaultValue⟩ := arg
  cases defaultValue with
  | none =>
    simp [Argument.tuplePieces, lowerTupleArgument, Piece.code, opCode, intCode, codeAll_bind]
  | some value =>
    simp [Argument.tuplePieces, lowerTupleArgument, Piece.code, opCode, intCode, codeAll_bind,
      Code.code, Code.emit, Test.op, Item.plain, Item.jump]

theorem codeAll_allPieces (i : Nat) (args : List Argument) :
    Piece.codeAll (allPieces i args) = (lowerAllArguments i args).code := by
  induction args generalizing i with
  | nil => simp [allPieces, lowerAllArguments]
  | cons arg rest ih =>
    rw [allPieces, lowerAllArguments, Piece.codeAll_append, Code.code_append, codeAll_tuple, ih]

theorem codeAll_default (arg : Argument) :
    Piece.codeAll arg.defaultPieces = (lowerDefault arg).code := by
  obtain ⟨isConst, isField, argName, defaultValue⟩ := arg
  cases defaultValue with
  | none => simp [Argument.defaultPieces, lowerDefault, Piece.code, opCode, codeAll_bind]
  | some value => simp [Argument.defaultPieces, lowerDefault, Piece.code, codeAll_bind]

theorem codeAll_defaults (args : List Argument) :
    Piece.codeAll (defaultsPieces args) = (lowerDefaults args).code := by
  induction args with
  | nil => simp [defaultsPieces, lowerDefaults]
  | cons arg rest ih =>
    rw [lowerDefaults, Code.code_append, ← codeAll_default, ← ih, ← Piece.codeAll_append]
    rfl

theorem codeAll_only (arg : Argument) :
    Piece.codeAll arg.onlyPieces = (lowerOnlyArgument arg).code := by
  obtain ⟨isConst, isField, argName, defaultValue⟩ := arg
  cases defaultValue with
  | none => simp [Argument.onlyPieces, lowerOnlyArgument, codeAll_bind]
  | some value =>
    simp [Argument.onlyPieces, lowerOnlyArgument, Piece.code, opCode, intCode, codeAll_bind,
      Code.code, Code.emit, Test.op, Item.plain, Item.jump]

theorem Argument.solid_bind (arg : Argument) : .part [] ∉ arg.bindPieces := by
  simp [bindPieces]

theorem Argument.solid_tuple {arg : Argument} (harg : arg.WellFormed) (i : Nat) (isLast : Bool) :
    .part [] ∉ arg.tuplePieces i isLast := by
  cases hvalue : arg.defaultValue with
  | none => simp [tuplePieces, hvalue, arg.solid_bind]
  | some value =>
    have hne := harg.value value hvalue
    simp [tuplePieces, hvalue, arg.solid_bind, Ne.symm hne]

theorem Argument.solid_default {arg : Argument} (harg : arg.WellFormed) :
    .part [] ∉ arg.defaultPieces := by
  cases hvalue : arg.defaultValue with
  | none => simp [defaultPieces, hvalue, arg.solid_bind]
  | some value =>
    have hne := harg.value value hvalue
    simp [defaultPieces, hvalue, arg.solid_bind, Ne.symm hne]

theorem Argument.solid_only {arg : Argument} (harg : arg.WellFormed) :
    .part [] ∉ arg.onlyPieces := by
  cases hvalue : arg.defaultValue with
  | none => simp [onlyPieces, hvalue, arg.solid_bind]
  | some value =>
    have hne := harg.value value hvalue
    simp [onlyPieces, hvalue, arg.solid_bind, Ne.symm hne]

theorem solid_all {args : List Argument} (hargs : ∀ arg ∈ args, arg.WellFormed) (i : Nat) :
    .part [] ∉ allPieces i args := by
  induction args generalizing i with
  | nil => simp [allPieces]
  | cons arg rest ih =>
    have hrest := ih (fun x hx => hargs x (List.mem_cons_of_mem _ hx)) (i + 1)
    simp [allPieces, Argument.solid_tuple (hargs arg List.mem_cons_self), hrest]

/-- No default is empty. -/
theorem Arguments.solid (args : Arguments) (hargs : ∀ arg ∈ args.all, arg.WellFormed) :
    Piece.Solid args.pieces := by
  have hfirst := hargs args.first List.mem_cons_self
  unfold Piece.Solid pieces
  by_cases hone : args.rest = []
  · rw [if_pos hone]
    exact Argument.solid_only hfirst
  · rw [if_neg hone]
    have hdefaults : .part [] ∉ defaultsPieces args.rest := by
      intro hmem
      obtain ⟨arg, hin, hmem⟩ := List.mem_flatMap.mp hmem
      exact Argument.solid_default (hargs arg (List.mem_cons_of_mem _ hin)) hmem
    simp [solid_all hargs, hdefaults, Argument.solid_bind]

/-- The pieces are the code that `produce_arguments` emits. -/
theorem codeAll_pieces (args : Arguments) :
    Piece.codeAll args.pieces = (lowerArguments args).code := by
  obtain ⟨token, first, rest⟩ := args
  cases rest with
  | nil => simp [Arguments.pieces, lowerArguments, codeAll_only]
  | cons second rest =>
    have hall := codeAll_allPieces 0 (first :: second :: rest)
    rw [lowerAllArguments] at hall
    have htuple : Piece.size (allPieces 0 (first :: second :: rest)) =
        (lowerTupleArgument 0 (second :: rest).isEmpty first ++
          lowerAllArguments 1 (second :: rest)).size := by
      rw [Piece.size, hall, Code.length_code]
    have hsingle : Piece.codeAll (.own ⟨.RES, .noArg⟩ :: first.bindPieces ++
        defaultsPieces (second :: rest)) =
          (opCode .RES ++ lowerArgument first ++ lowerDefaults (second :: rest)).code := by
      simp [Piece.code, opCode, codeAll_bind, codeAll_defaults]
    have hsize : Piece.size (.own ⟨.RES, .noArg⟩ :: first.bindPieces ++
        defaultsPieces (second :: rest)) =
          (opCode .RES ++ lowerArgument first ++ lowerDefaults (second :: rest)).size := by
      rw [Piece.size, hsingle, Code.length_code]
    rw [lowerArguments]
    · simp only [Arguments.pieces, Arguments.all, List.cons_ne_nil, if_false,
        Piece.codeAll_append, hall, hsingle, hsize, htuple, Code.code_append, code_choice]
      simp [Piece.code, opCode, intCode, Test.op]
    · simp

/-! ## Where the values of the parameters come from -/

/-- Where the value of a parameter comes from. -/
inductive Source where
  | value (e : Entity)
  | default
  | missing
  deriving DecidableEq

def Argument.fallback (arg : Argument) (otherwise : Source) : Source :=
  if arg.hasDefault then .default else otherwise

/-- The sources of the parameters when the function is called with `a`, whose elements are
those of `table` when it is a tuple. -/
def Arguments.sources (args : Arguments) (a : Entity) (table : Option (List Entity)) :
    List (Argument × Source) :=
  if a = .none then args.all.map fun arg => (arg, arg.fallback (.value .none))
  else if args.rest = [] then [(args.first, .value a)]
  else
    match table with
    | some table =>
      args.all.mapIdx fun i arg => (arg, (table[i]?).elim (arg.fallback .missing) .value)
    | none => (args.first, .value a) :: args.rest.map fun arg => (arg, arg.fallback (.value .none))

/-- The trace binds parameters to their sources, in order, as far as it goes. A default is
evaluated right before it is bound, and nothing comes after the error of a missing argument. -/
def Follows (self : ObjectId) : List (Argument × Source) → List RunEvent → Prop
  | _, [] => True
  | (arg, .value e) :: rest, event :: tr => event = arg.binding self e ∧ Follows self rest tr
  | (arg, .default) :: rest, .evaluated _ e :: tr => Follows self ((arg, .value e) :: rest) tr
  | (_, .missing) :: _, [.raised] => True
  | _, _ => False

/-- The trace goes up to the last parameter, or to the error. -/
def Completes (self : ObjectId) : List (Argument × Source) → List RunEvent → Prop
  | [], [] => True
  | (arg, .value e) :: rest, event :: tr => event = arg.binding self e ∧ Completes self rest tr
  | (arg, .default) :: rest, .evaluated _ e :: tr => Completes self ((arg, .value e) :: rest) tr
  | (_, .missing) :: _, [.raised] => True
  | _, _ => False

namespace Site

variable (env : Env) (S : Site)

/-- Every run binds parameters to their sources, and stops only when it has bound all of them or
has raised the error of a missing argument. -/
def Binds (sources : List (Argument × Source)) : World → Prop :=
  Always (S.Step env) fun tr w =>
    Follows S.info.self sources tr ∧ (S.Stops env w → Completes S.info.self sources tr)

/-- A const parameter is about to be bound. -/
def ConstTurn (w : World) : Prop :=
  ∃ k f ins, S.At w k f ∧ S.Next k ins ∧ (ins.op = .LETC ∨ ins.op = .FLDC)

def NoConstTurn : World → Prop := Always (S.Step env) fun _ w => ¬ S.ConstTurn w

/-- From here on the parameters are bound to their sources unless one of them is const. -/
def Agrees (sources : List (Argument × Source)) (w : World) : Prop :=
  S.Binds env sources w ↔ S.NoConstTurn env w

variable {env : Env} {S : Site} {w w' : World} {k k' len : Nat} {f f' : Frame} {ins : Instruction}
variable {arg : Argument} {sources : List (Argument × Source)}

theorem Goes.not_stops {e : Option RunEvent} (g : S.Goes env w w' e k' f') : ¬ S.Stops env w :=
  fun h => h.2 e w' ((g.step e w').mpr ⟨rfl, rfl⟩)

theorem binds_silent (g : S.Goes env w w' none k' f') :
    S.Binds env sources w ↔ S.Binds env sources w' := by
  unfold Binds
  rw [Always.unique g.step]
  have hnow : Follows S.info.self sources [] ∧
      (S.Stops env w → Completes S.info.self sources []) :=
    ⟨by unfold Follows; trivial, fun h => absurd h g.not_stops⟩
  exact and_iff_right hnow

theorem binds_event {e : Entity} (g : S.Goes env w w' (some (arg.binding S.info.self e)) k' f') :
    S.Binds env ((arg, .value e) :: sources) w ↔ S.Binds env sources w' := by
  unfold Binds
  rw [Always.unique g.step]
  have hnow : Follows S.info.self ((arg, .value e) :: sources) [] ∧
      (S.Stops env w → Completes S.info.self ((arg, .value e) :: sources) []) :=
    ⟨by unfold Follows; trivial, fun h => absurd h g.not_stops⟩
  rw [and_iff_right hnow]
  apply Always.congr
  intro tr w''
  simp [Follows, Completes]

theorem not_binds_stuck (hstop : S.Stops env w) {p : Argument × Source} :
    ¬ S.Binds env (p :: sources) w := by
  intro h
  have hcompletes := h.now.2 hstop
  obtain ⟨arg, source⟩ := p
  cases source <;> simp [Completes] at hcompletes

theorem binds_missing (hraise : ∀ e' w'', S.Step env w e' w'' ↔ e' = some .raised ∧ w'' = w')
    (herror : ∀ k f, ¬ S.At w' k f) : S.Binds env ((arg, .missing) :: sources) w := by
  have hstop : S.Stops env w' := stops_of_not_at herror
  unfold Binds
  rw [Always.unique hraise]
  constructor
  · refine ⟨by unfold Follows; trivial, fun h => ?_⟩
    exact absurd ((hraise _ _).mpr ⟨rfl, rfl⟩) (h.2 _ _)
  · apply Always.intro
    · simp [Follows, Completes]
    · intro e' w'' hstep
      exact absurd hstep (hstop.2 e' w'')

section Part

variable {is : List Instruction} {ps : List Piece}

/-- The steps at a part are its evaluations. -/
theorem part_step_iff (hat : S.At w k f) (hlies : S.Lies k (.part is :: ps)) (e : Option RunEvent)
    (w' : World) : S.Step env w e w' ↔
      ∃ f', S.Evaluates w w' k is.length f f' ∧ e = some (.evaluated f.resval f'.resval) := by
  obtain ⟨⟨hmem, hlen⟩, -⟩ := hlies
  constructor
  · intro hs
    cases hs with
    | own hat' _ hown _ =>
      cases hat.position_unique hat'
      exact absurd rfl (hown _ hmem)
    | part hmem' heval =>
      cases hat.position_unique heval.start
      cases hat.frame_unique heval.start
      cases hlen _ hmem'
      exact ⟨_, heval, rfl⟩
  · rintro ⟨f', heval, rfl⟩
    exact .part hmem heval

theorem not_stops_part (hat : S.At w k f) (hlies : S.Lies k (.part is :: ps)) :
    ¬ S.Stops env w :=
  fun h => h.1 k f hat _ hlies.1.1 rfl

theorem binds_part (hat : S.At w k f) (hlies : S.Lies k (.part is :: ps)) :
    S.Binds env ((arg, .default) :: sources) w ↔
      ∀ w' f', S.Evaluates w w' k is.length f f' →
        S.Binds env ((arg, .value f'.resval) :: sources) w' := by
  constructor
  · intro h w' f' heval
    have hafter := h.after ((part_step_iff hat hlies _ _).mpr ⟨f', heval, rfl⟩)
    exact hafter.mono fun tr w'' hP => by simpa [Follows, Completes] using hP
  · intro h
    apply Always.intro
    · exact ⟨by unfold Follows; trivial, fun hstop => absurd hstop (not_stops_part hat hlies)⟩
    · intro e w' hstep
      obtain ⟨f', heval, rfl⟩ := (part_step_iff hat hlies e w').mp hstep
      exact (h w' f' heval).mono fun tr w'' hP => by simpa [Follows, Completes] using hP

theorem not_constTurn_part (hat : S.At w k f) (hlies : S.Lies k (.part is :: ps)) :
    ¬ S.ConstTurn w := by
  rintro ⟨k', f', ins, hat', hnext, -⟩
  cases hat.position_unique hat'
  exact hnext.own _ hlies.1.1 rfl

theorem noConstTurn_part (hat : S.At w k f) (hlies : S.Lies k (.part is :: ps)) :
    S.NoConstTurn env w ↔
      ∀ w' f', S.Evaluates w w' k is.length f f' → S.NoConstTurn env w' := by
  constructor
  · intro h w' f' heval
    exact h.after ((part_step_iff hat hlies _ _).mpr ⟨f', heval, rfl⟩)
  · intro h
    apply Always.intro
    · exact not_constTurn_part hat hlies
    · intro e w' hstep
      obtain ⟨f', heval, -⟩ := (part_step_iff hat hlies e w').mp hstep
      exact h w' f' heval

end Part

theorem not_constTurn (hat : S.At w k f) (hnext : S.Next k ins)
    (hop : ins.op ≠ .LETC ∧ ins.op ≠ .FLDC) : ¬ S.ConstTurn w := by
  rintro ⟨k', f', ins', hat', hnext', hconst⟩
  cases hat.position_unique hat'
  cases hnext.ins.symm.trans hnext'.ins
  exact hconst.elim hop.1 hop.2

theorem noConstTurn_goes {e : Option RunEvent} (g : S.Goes env w w' e k' f')
    (hturn : ¬ S.ConstTurn w) : S.NoConstTurn env w ↔ S.NoConstTurn env w' := by
  unfold NoConstTurn
  rw [Always.unique g.step]
  exact and_iff_right hturn

theorem noConstTurn_raise
    (hraise : ∀ e' w'', S.Step env w e' w'' ↔ e' = some .raised ∧ w'' = w')
    (herror : ∀ k f, ¬ S.At w' k f) (hturn : ¬ S.ConstTurn w) : S.NoConstTurn env w := by
  have hstop : S.Stops env w' := stops_of_not_at herror
  unfold NoConstTurn
  rw [Always.unique hraise]
  refine ⟨hturn, ?_⟩
  apply Always.intro
  · rintro ⟨k, f, -, hat, -⟩
    exact herror k f hat
  · intro e' w'' hstep
    exact absurd hstep (hstop.2 e' w'')

/-- Steps that show nothing, none of them at a const parameter. -/
inductive Quiet (env : Env) (S : Site) : World → World → Prop where
  | refl (w : World) : Quiet env S w w
  | head {w w₁ w' : World} {k : Nat} {f : Frame} : S.Goes env w w₁ none k f → ¬ S.ConstTurn w →
    Quiet env S w₁ w' → Quiet env S w w'

theorem Quiet.binds (h : S.Quiet env w w') : S.Binds env sources w ↔ S.Binds env sources w' := by
  induction h with
  | refl => exact Iff.rfl
  | head g _ _ ih => rw [binds_silent g, ih]

theorem Quiet.noConstTurn (h : S.Quiet env w w') : S.NoConstTurn env w ↔ S.NoConstTurn env w' := by
  induction h with
  | refl => exact Iff.rfl
  | head g hturn _ ih => rw [noConstTurn_goes g hturn, ih]

theorem Quiet.agrees (h : S.Quiet env w w') (hrest : S.Agrees env sources w') :
    S.Agrees env sources w := by
  unfold Agrees at hrest ⊢
  rw [h.binds, h.noConstTurn]
  exact hrest

theorem Quiet.trans {w'' : World} (h : S.Quiet env w w') (h' : S.Quiet env w' w'') :
    S.Quiet env w w'' := by
  induction h with
  | refl => exact h'
  | head g hturn _ ih => exact .head g hturn (ih h')

/-! ## One instruction -/

theorem At.quiet {x : Frame} (env : Env) (hat : S.At w k f) (hnext : S.Next k ins)
    (hexec : execute env w S.task S.context ins = some (.next x))
    (htapes : ∀ m, (x.store.modules m).tape = (f.store.modules m).tape)
    (hshown : shown ins f = none) (hop : ins.op ≠ .LETC ∧ ins.op ≠ .FLDC) :
    ∃ w', S.Quiet env w w' ∧ S.At w' (k + 1) x := by
  obtain ⟨w', g⟩ := hat.goes_next env hnext hexec htapes
  rw [hshown] at g
  exact ⟨w', .head g (not_constTurn hat hnext hop) (.refl w'), g.at_⟩

theorem At.quiet_jump {j : Nat} (env : Env) (hat : S.At w k f) (hnext : S.Next k ins) {n : Int}
    (hexec : execute env w S.task S.context ins = some (.jump f n)) (hk : (j : Int) = k + n + 1)
    (hshown : shown ins f = none) (hop : ins.op ≠ .LETC ∧ ins.op ≠ .FLDC) :
    ∃ w', S.Quiet env w w' ∧ S.At w' j f := by
  obtain ⟨w', g⟩ := hat.goes_jump hnext hexec hk
  rw [hshown] at g
  exact ⟨w', .head g (not_constTurn hat hnext hop) (.refl w'), g.at_⟩

theorem agrees_next {x : Frame} (hat : S.At w k f) (hnext : S.Next k ins)
    (hexec : execute env w S.task S.context ins = some (.next x))
    (htapes : ∀ m, (x.store.modules m).tape = (f.store.modules m).tape)
    (hshown : shown ins f = none) (hop : ins.op ≠ .LETC ∧ ins.op ≠ .FLDC)
    (hrest : ∀ w', S.At w' (k + 1) x → S.Agrees env sources w') : S.Agrees env sources w := by
  obtain ⟨w', hquiet, hat'⟩ := hat.quiet env hnext hexec htapes hshown hop
  exact hquiet.agrees (hrest w' hat')

theorem agrees_jump {j : Nat} (hat : S.At w k f) (hnext : S.Next k ins) {n : Int}
    (hexec : execute env w S.task S.context ins = some (.jump f n)) (hk : (j : Int) = k + n + 1)
    (hshown : shown ins f = none) (hop : ins.op ≠ .LETC ∧ ins.op ≠ .FLDC)
    (hrest : ∀ w', S.At w' j f → S.Agrees env sources w') : S.Agrees env sources w := by
  obtain ⟨w', hquiet, hat'⟩ := hat.quiet_jump env hnext hexec hk hshown hop
  exact hquiet.agrees (hrest w' hat')

theorem agrees_part {is : List Instruction} {ps : List Piece} (hat : S.At w k f)
    (hlies : S.Lies k (.part is :: ps))
    (hrest : ∀ w' f', S.At w' (k + is.length) f' → f'.stack = f.stack → f.store.Keeps f'.store →
      S.Agrees env ((arg, .value f'.resval) :: sources) w') :
    S.Agrees env ((arg, .default) :: sources) w := by
  unfold Agrees
  rw [binds_part hat hlies, noConstTurn_part hat hlies]
  apply forall_congr'
  intro w'
  apply forall_congr'
  intro f'
  apply forall_congr'
  intro heval
  exact hrest w' f' heval.finish heval.stack heval.keeps

end Site

/-! ## Binding one parameter -/

namespace Store.Keeps

variable {s s' s'' : Store}

theorem refl (s : Store) : s.Keeps s := ⟨fun _ => rfl, fun _ _ h => h⟩

theorem trans (h : s.Keeps s') (h' : s'.Keeps s'') : s.Keeps s'' where
  modules m := (h'.modules m).trans (h.modules m)
  tuples e table ht := h'.tuples e table (h.tuples e table ht)

theorem setMember (s : Store) (o : ObjectId) (key : String) (e : Entity) :
    s.Keeps (s.setMember o key e) where
  modules _ := rfl
  tuples e' table h := by
    cases e' with
    | obj o' =>
      simp only [tupleOf, cls_setMember, internal_setMember] at h ⊢
      exact h
    | none => cases h
    | prim p => cases h

end Store.Keeps

theorem argOfToken_of_isName {token : Token} (h : token.isName = true) :
    Tape.argOfToken token = .id token.text := by
  unfold Token.isName Tape.argOfToken at h
  unfold Tape.argOfToken
  split at h
  · rename_i id heq
    split at heq
    · cases heq
    · split at heq
      · cases heq
      · rename_i hnone hstr
        exact if_neg hstr
  · cases h

theorem Argument.bindPieces_eq {arg : Argument} (hname : arg.argName.isName = true) :
    arg.bindPieces =
      if arg.isField then
        [.own ⟨.PUSH, .noArg⟩, .own ⟨.RES, .id "self"⟩,
          .own ⟨if arg.isConst then .FLDC else .FLD, .id arg.argName.text⟩]
      else [.own ⟨if arg.isConst then .LETC else .LET, .id arg.argName.text⟩] := by
  simp only [bindPieces, lowerArgument, tokenCode, argOfToken_of_isName hname]
  split <;> simp [opCode, idCode, selfName]

namespace Site

variable {env : Env} {S : Site} {w : World} {k : Nat} {f : Frame}
variable {arg : Argument} {sources : List (Argument × Source)}

/-- There is no instruction that binds a const parameter. -/
theorem stops_const {ins : Instruction} (hat : S.At w k f) (hnext : S.Next k ins)
    (hop : ins.op = .LETC ∨ ins.op = .FLDC) : S.Stops env w := by
  apply hat.no_step hnext
  cases hop with
  | inl hop => simp [execute, hop]
  | inr hop => simp [execute, hop]

theorem goes_letVar (hat : S.At w k f) (hnext : S.Next k ⟨.LET, .id arg.argName.text⟩)
    (hfield : arg.isField = false) :
    ∃ w' f', S.Goes env w w' (some (arg.binding S.info.self f.resval)) (k + 1) f' ∧
      f'.stack = f.stack ∧ f.store.Keeps f'.store := by
  have hexec : execute env w S.task S.context ⟨.LET, .id arg.argName.text⟩ =
      some (.next { f with
        store := contextLet f.store w.contexts S.context arg.argName.text f.resval }) := by
    simp [execute, executeLET, hat.frame]
  obtain ⟨w', g⟩ := hat.goes_next env hnext hexec fun _ => rfl
  have hshown : shown ⟨.LET, .id arg.argName.text⟩ f =
      some (arg.binding S.info.self f.resval) := by
    simp [shown, Argument.binding, hfield]
  rw [hshown] at g
  exact ⟨w', _, g, rfl, .setMember ..⟩

theorem goes_setField (hat : S.At w k f) {e : Entity} {rest : List Entity}
    (hnext : S.Next k ⟨.FLD, .id arg.argName.text⟩) (hfield : arg.isField = true)
    (hstack : f.stack = e :: rest) (hself : f.resval = .obj S.info.self) :
    ∃ w' f', S.Goes env w w' (some (arg.binding S.info.self e)) (k + 1) f' ∧
      f'.stack = rest ∧ f.store.Keeps f'.store := by
  have hexec : execute env w S.task S.context ⟨.FLD, .id arg.argName.text⟩ =
      some (.next ⟨f.store.setMember S.info.self arg.argName.text e, f.resval, rest⟩) := by
    simp [execute, executeFLD, hat.frame, hself, Frame.pop, hstack]
  obtain ⟨w', g⟩ := hat.goes_next env hnext hexec fun _ => rfl
  have hshown : shown ⟨.FLD, .id arg.argName.text⟩ f = some (arg.binding S.info.self e) := by
    simp [shown, Argument.binding, hfield, hstack, hself]
  rw [hshown] at g
  exact ⟨w', _, g, rfl, .setMember ..⟩

/-- The code of `produce_argument` comes to a const parameter, or binds the parameter. -/
theorem bind_cases (env : Env) (hat : S.At w k f) (hlies : S.Lies k arg.bindPieces)
    (hname : arg.argName.isName = true) :
    ∃ w₁, S.Quiet env w w₁ ∧
      (S.Stops env w₁ ∧ S.ConstTurn w₁ ∨
        ¬ S.ConstTurn w₁ ∧ ∃ w₂ f₂, S.Goes env w₁ w₂ (some (arg.binding S.info.self f.resval))
          (k + Piece.size arg.bindPieces) f₂ ∧ f₂.stack = f.stack ∧ f.store.Keeps f₂.store) := by
  rw [Argument.bindPieces_eq hname] at hlies ⊢
  cases hfield : arg.isField with
  | false =>
    rw [hfield] at hlies
    obtain ⟨hnext, -⟩ := hlies
    refine ⟨w, .refl w, ?_⟩
    cases hconst : arg.isConst with
    | true =>
      rw [hconst] at hnext
      exact .inl ⟨stops_const hat hnext (.inl rfl), k, f, _, hat, hnext, .inl rfl⟩
    | false =>
      rw [hconst] at hnext
      exact .inr ⟨not_constTurn hat hnext (by simp), goes_letVar hat hnext hfield⟩
  | true =>
    rw [hfield] at hlies
    obtain ⟨hpush, hres, hnext, -⟩ := hlies
    obtain ⟨w₁, hquiet₁, hat₁⟩ := hat.quiet env hpush (x := f.push f.resval)
      (by simp [execute, executePUSH, hat.frame]) (fun _ => rfl) rfl (by simp)
    obtain ⟨w₂, hquiet₂, hat₂⟩ := hat₁.quiet env hres
      (x := (f.push f.resval).withResval (.obj S.info.self))
      (by simp [execute, executeRES, hat₁.frame, Frame.lookupOrNone, Frame.lookup, contextLookup,
        Frame.push, Frame.withResval, hat₁.context]) (fun _ => rfl) rfl (by simp)
    refine ⟨w₂, hquiet₁.trans hquiet₂, ?_⟩
    cases hconst : arg.isConst with
    | true =>
      rw [hconst] at hnext
      exact .inl ⟨stops_const hat₂ hnext (.inr rfl), _, _, _, hat₂, hnext, .inr rfl⟩
    | false =>
      rw [hconst] at hnext
      exact .inr ⟨not_constTurn hat₂ hnext (by simp), goes_setField hat₂ hnext hfield rfl rfl⟩

theorem agrees_bind (hat : S.At w k f) (hlies : S.Lies k arg.bindPieces)
    (hname : arg.argName.isName = true)
    (hrest : ∀ w' f', S.At w' (k + Piece.size arg.bindPieces) f' → f'.stack = f.stack →
      f.store.Keeps f'.store → S.Agrees env sources w') :
    S.Agrees env ((arg, .value f.resval) :: sources) w := by
  obtain ⟨w₁, hquiet, hbind⟩ := bind_cases env hat hlies hname
  apply hquiet.agrees
  rcases hbind with ⟨hstop, hturn⟩ | ⟨hturn, w₂, f₂, g, hstack, hkeeps⟩
  · apply iff_of_false
    · exact not_binds_stuck hstop
    · intro h
      exact h.now hturn
  · unfold Agrees
    rw [binds_event g, noConstTurn_goes g hturn]
    exact hrest w₂ f₂ g.at_ hstack hkeeps

/-! ## The elements of a tuple -/

variable {a : Entity} {stack : List Entity} {table : List Entity} {i : Nat} {isLast : Bool}

theorem agrees_missing (hat : S.At w k f) (hnext : S.Next k ⟨.TGET, .val (.int i)⟩)
    (htable : tupleOf f.store f.resval = some table) (hi : table.length ≤ i) :
    S.Agrees env ((arg, .missing) :: sources) w := by
  have hexec : ∃ f' err, execute env w S.task S.context ⟨.TGET, .val (.int i)⟩ =
      some (.raise f' err) := by
    have hle : ((i : Int) < 0 ∨ (table.length : Int) ≤ i) := by omega
    simp only [execute, executeTGET, hat.frame, htable, if_pos hle, raiseError]
    exact ⟨_, _, rfl⟩
  obtain ⟨f', err, hexec⟩ := hexec
  obtain ⟨w', hraise, herror⟩ := hat.goes_raise hnext hexec rfl
  apply iff_of_true
  · exact binds_missing hraise herror
  · exact noConstTurn_raise hraise herror (not_constTurn hat hnext (by simp))

theorem agrees_element (hat : S.At w k f) (hnext : S.Next k ⟨.TGET, .val (.int i)⟩)
    (htable : tupleOf f.store f.resval = some table) {e : Entity} (hi : table[i]? = some e)
    (hrest : ∀ w', S.At w' (k + 1) (f.withResval e) → S.Agrees env sources w') :
    S.Agrees env sources w := by
  have hlt : i < table.length := (List.getElem?_eq_some_iff.mp hi).1
  apply agrees_next hat hnext (x := f.withResval e) ?_ (fun _ => rfl) rfl (by simp) hrest
  have hin : ¬ ((i : Int) < 0 ∨ (table.length : Int) ≤ i) := by omega
  simp only [execute, executeTGET, hat.frame, htable, if_neg hin]
  simp [List.getD_eq_getElem?_getD, hi]

/-- The element is taken from the tuple, which the last parameter pops. -/
theorem agrees_get (hat : S.At w k f) (hstack : f.stack = a :: stack)
    (htable : tupleOf f.store a = some table)
    (hlies : S.Lies k [.own ⟨if isLast then .RES else .PEEK, .noArg⟩, .own ⟨.TGET, .val (.int i)⟩])
    (hmissing : table.length ≤ i → ∃ arg sources', sources = (arg, .missing) :: sources')
    (hrest : ∀ e w', table[i]? = some e →
      S.At w' (k + 2) ⟨f.store, e, if isLast then stack else a :: stack⟩ →
        S.Agrees env sources w') : S.Agrees env sources w := by
  obtain ⟨hpop, hget, -⟩ := hlies
  apply agrees_next hat hpop (x := ⟨f.store, a, if isLast then stack else a :: stack⟩) ?_
    (fun _ => rfl) ?_ ?_
  · intro w₁ hat₁
    cases hi : table[i]? with
    | none =>
      obtain ⟨arg, sources', rfl⟩ := hmissing (List.getElem?_eq_none_iff.mp hi)
      exact agrees_missing hat₁ hget htable (List.getElem?_eq_none_iff.mp hi)
    | some e => exact agrees_element hat₁ hget htable hi fun w₂ hat₂ => hrest e w₂ hi hat₂
  · cases isLast with
    | false => simp [execute, executePEEK, hat.frame, Frame.peek, hstack, Frame.withResval]
    | true => simp [execute, executeRES, hat.frame, Frame.pop, hstack, Frame.withResval]
  · cases isLast <;> rfl
  · cases isLast <;> exact (by simp)

/-- A default is used where the tuple is too short. -/
theorem agrees_choice {value : ExpressionTree} {ps : List Piece} (hat : S.At w k f)
    (hstack : f.stack = a :: stack) (hobj : a ≠ .none) (htable : tupleOf f.store a = some table)
    (hfirst : i = 0 → table ≠ [])
    (hlies : S.Lies k ([.own ⟨.PEEK, .noArg⟩, .own ⟨.TGTE, .val (.int (i + 1))⟩,
      .own ⟨.IFN, .val (.int 3)⟩, .own ⟨if isLast then .RES else .PEEK, .noArg⟩,
      .own ⟨.TGET, .val (.int i)⟩, .own ⟨.JMP, .val (.int (lower value).code.length)⟩,
      .part (lower value).code] ++ ps))
    (hrest : ∀ e w' f', f'.resval = e →
      S.At w' (k + 6 + (lower value).code.length) f' → (isLast = false → f'.stack = a :: stack) →
      f.store.Keeps f'.store → S.Agrees env ((arg, .value e) :: sources) w') :
    S.Agrees env ((arg, (table[i]?).elim .default .value) :: sources) w := by
  obtain ⟨hpeek, htest, hif, hpop, hget, hjump, hlies⟩ := hlies
  apply agrees_next hat hpeek (x := f.withResval a)
    (by simp [execute, executePEEK, hat.frame, Frame.peek, hstack]) (fun _ => rfl) rfl
    (by simp)
  intro w₁ hat₁
  apply agrees_next hat₁ htest
    (x := f.withResval (if i < table.length then .int 1 else .none)) ?_ (fun _ => rfl) rfl
    (by simp)
  · intro w₂ hat₂
    by_cases hlt : i < table.length
    · rw [if_pos hlt] at hat₂
      apply agrees_next hat₂ hif (x := f.withResval (.int 1))
        (by simp [execute, executeIF, hat₂.frame, Frame.withResval, Entity.isNone, Entity.int])
        (fun _ => rfl) rfl (by simp)
      intro w₃ hat₃
      refine agrees_get hat₃ (by exact hstack) (by exact htable) ⟨hpop, hget, trivial⟩ (by omega) ?_
      intro e w₅ he hat₅
      apply agrees_jump hat₅ hjump (j := k + 6 + (lower value).code.length)
        (by simp only [execute, executeJMP, hat₅.frame]; rfl) (by push_cast; omega) rfl
        (by simp)
      intro w₆ hat₆
      rw [he]
      exact hrest e w₆ _ rfl hat₆ (fun hlast => by simp [hlast]) (.refl _)
    · rw [if_neg hlt] at hat₂
      have hnone : table[i]? = none := List.getElem?_eq_none_iff.mpr (by omega)
      apply agrees_jump hat₂ hif (j := k + 6)
        (by simp [execute, executeIF, hat₂.frame, Frame.withResval, Entity.isNone]; rfl)
        (by push_cast; omega) rfl (by simp)
      intro w₃ hat₃
      rw [hnone]
      apply agrees_part hat₃ hlies
      intro w₄ f₄ hat₄ hstack₄ hkeeps
      refine hrest f₄.resval w₄ f₄ rfl hat₄ (fun _ => ?_) hkeeps
      rw [hstack₄]
      exact hstack
  · by_cases hi : i = 0
    · have hlt : 0 < table.length := List.length_pos_of_ne_nil (hfirst hi)
      have hone : a.isNone = false := by
        cases a with
        | none => exact absurd rfl hobj
        | _ => rfl
      simp [execute, executeTGTE, hat₁.frame, hi, hlt, hone, Frame.withResval]
    · have hne : ¬ ((i : Int) + 1 = 1) := by omega
      simp only [execute, executeTGTE, hat₁.frame, if_neg hne, Frame.withResval, htable]
      congr 4
      simp only [eq_iff_iff]
      omega

/-- One round of the loop of `produce_all_arguments`. -/
theorem agrees_tuple (hat : S.At w k f) (hstack : f.stack = a :: stack) (hobj : a ≠ .none)
    (htable : tupleOf f.store a = some table)
    (hfirst : i = 0 → arg.hasDefault = true → table ≠ []) (harg : arg.WellFormed)
    (hlies : S.Lies k (arg.tuplePieces i isLast))
    (hrest : ∀ w' f', S.At w' (k + Piece.size (arg.tuplePieces i isLast)) f' →
      (isLast = false → f'.stack = a :: stack) → f.store.Keeps f'.store →
        S.Agrees env sources w') :
    S.Agrees env ((arg, (table[i]?).elim (arg.fallback .missing) .value) :: sources) w := by
  cases hvalue : arg.defaultValue with
  | none =>
    simp only [Argument.tuplePieces, hvalue] at hlies hrest
    rw [lies_append] at hlies
    have hfallback : arg.fallback .missing = .missing := by
      simp [Argument.fallback, Argument.hasDefault, hvalue]
    rw [hfallback]
    refine agrees_get hat hstack htable hlies.1 ?_ ?_
    · intro hle
      rw [List.getElem?_eq_none hle]
      exact ⟨arg, sources, rfl⟩
    · intro e w₁ he hat₁
      rw [he]
      apply agrees_bind hat₁ hlies.2 harg.name
      intro w₂ f₂ hat₂ hstack₂ hkeeps
      refine hrest w₂ f₂ ?_ (fun hlast => ?_) hkeeps
      · rw [Piece.size_append, ← Nat.add_assoc]
        exact hat₂
      · rw [hstack₂, if_neg (by simp [hlast])]
  | some value =>
    simp only [Argument.tuplePieces, hvalue] at hlies hrest
    have hdefault : arg.hasDefault = true := by simp [Argument.hasDefault, hvalue]
    have hfallback : arg.fallback .missing = .default := by
      simp [Argument.fallback, hdefault]
    rw [hfallback]
    have hbind := (lies_append.mp hlies).2
    apply agrees_choice hat hstack hobj htable (fun hi => hfirst hi hdefault) hlies
    intro e w₁ f₁ hresval hat₁ hstack₁ hkeeps₁
    subst hresval
    have hpos : k + 6 + (lower value).code.length =
        k + Piece.size ([.own ⟨.PEEK, .noArg⟩, .own ⟨.TGTE, .val (.int (i + 1))⟩,
          .own ⟨.IFN, .val (.int 3)⟩] ++ [.own ⟨if isLast then .RES else .PEEK, .noArg⟩,
          .own ⟨.TGET, .val (.int i)⟩] ++
          [.own ⟨.JMP, .val (.int (lower value).code.length)⟩, .part (lower value).code]) := by
      simp
      omega
    rw [hpos] at hat₁
    apply agrees_bind hat₁ hbind harg.name
    intro w₂ f₂ hat₂ hstack₂ hkeeps₂
    refine hrest w₂ f₂ ?_ (fun hlast => hstack₂.trans (hstack₁ hlast)) (hkeeps₁.trans hkeeps₂)
    rw [Piece.size_append, ← Nat.add_assoc]
    exact hat₂

theorem agrees_end {all : List Piece} (hholds : S.Holds all) (hat : S.At w (Piece.size all) f) :
    S.Agrees env [] w := by
  have hstop := hholds.at_end env hat
  apply iff_of_true
  · apply Always.intro
    · exact ⟨by unfold Follows; trivial, fun _ => by simp [Completes]⟩
    · intro e w' hstep
      exact absurd hstep (hstop.2 e w')
  · apply Always.intro
    · rintro ⟨k', f', ins, hat', hnext, -⟩
      cases hat.position_unique hat'
      have hlt := (List.getElem?_eq_some_iff.mp hnext.ins).1
      rw [hholds.code] at hlt
      exact absurd hlt (Nat.lt_irrefl _)
    · intro e w' hstep
      exact absurd hstep (hstop.2 e w')

/-- The loop of `produce_all_arguments`. Induction on the arguments that are left: the tuple is
on the operand stack until the last one. -/
theorem agrees_all (env : Env) {all : List Piece} (hholds : S.Holds all) {args : List Argument} {i k : Nat}
    {w : World} {f : Frame} (hat : S.At w k f) (hstack : args ≠ [] → f.stack = a :: stack)
    (hobj : a ≠ .none) (htable : tupleOf f.store a = some table)
    (hfirst : ∀ arg ∈ args.head?, i = 0 → arg.hasDefault = true → table ≠ [])
    (hargs : ∀ arg ∈ args, arg.WellFormed) (hlies : S.Lies k (allPieces i args))
    (hend : k + Piece.size (allPieces i args) = Piece.size all) :
    S.Agrees env (args.mapIdx fun j arg =>
      (arg, (table[i + j]?).elim (arg.fallback .missing) .value)) w := by
  induction args generalizing i k w f with
  | nil =>
    have hk : k = Piece.size all := hend
    subst hk
    exact agrees_end hholds hat
  | cons arg rest ih =>
    rw [allPieces, lies_append] at hlies
    rw [allPieces, Piece.size_append, ← Nat.add_assoc] at hend
    rw [List.mapIdx_cons]
    apply agrees_tuple hat (hstack (by simp)) hobj (by simpa using htable)
      (fun hi => hfirst arg (by simp) (by simpa using hi)) (hargs arg (by simp)) hlies.1
    intro w₁ f₁ hat₁ hstack₁ hkeeps
    have hrec := ih (i := i + 1) hat₁ ?_ (hkeeps.tuples a table htable) ?_
      (fun x hx => hargs x (List.mem_cons_of_mem _ hx)) hlies.2 hend
    · simpa only [Nat.add_assoc, Nat.add_comm 1] using hrec
    · intro hne
      exact hstack₁ (by simpa using hne)
    · intro x _ hi
      omega

/-! ## One value for all parameters -/

/-- One round of the loop over the parameters after the first. -/
theorem agrees_default (hat : S.At w k f) (harg : arg.WellFormed)
    (hlies : S.Lies k arg.defaultPieces)
    (hrest : ∀ w' f', S.At w' (k + Piece.size arg.defaultPieces) f' → S.Agrees env sources w') :
    S.Agrees env ((arg, arg.fallback (.value .none)) :: sources) w := by
  cases hvalue : arg.defaultValue with
  | none =>
    simp only [Argument.defaultPieces, hvalue] at hlies hrest
    have hfallback : arg.fallback (.value .none) = .value .none := by
      simp [Argument.fallback, Argument.hasDefault, hvalue]
    rw [hfallback]
    apply agrees_next hat hlies.1 (x := f.withResval .none)
      (by simp [execute, executeRNIL, hat.frame]) (fun _ => rfl) rfl (by simp)
    intro w₁ hat₁
    apply agrees_bind hat₁ hlies.2 harg.name
    intro w₂ f₂ hat₂ _ _
    apply hrest w₂ f₂
    rw [Piece.size_own, ← Nat.add_assoc]
    exact hat₂
  | some value =>
    simp only [Argument.defaultPieces, hvalue] at hlies hrest
    have hfallback : arg.fallback (.value .none) = .default := by
      simp [Argument.fallback, Argument.hasDefault, hvalue]
    rw [hfallback]
    apply agrees_part hat hlies
    intro w₁ f₁ hat₁ _ _
    apply agrees_bind hat₁ hlies.2 harg.name
    intro w₂ f₂ hat₂ _ _
    apply hrest w₂ f₂
    rw [Piece.size_part, ← Nat.add_assoc]
    exact hat₂

theorem agrees_defaults {args : List Argument} (hat : S.At w k f)
    (hargs : ∀ arg ∈ args, arg.WellFormed) (hlies : S.Lies k (defaultsPieces args))
    (hrest : ∀ w' f', S.At w' (k + Piece.size (defaultsPieces args)) f' → S.Agrees env [] w') :
    S.Agrees env (args.map fun arg => (arg, arg.fallback (.value .none))) w := by
  induction args generalizing k w f with
  | nil => exact hrest w f hat
  | cons arg args ih =>
    have hcons : defaultsPieces (arg :: args) = arg.defaultPieces ++ defaultsPieces args := rfl
    rw [hcons, lies_append] at hlies
    rw [hcons, Piece.size_append, ← Nat.add_assoc] at hrest
    rw [List.map_cons]
    apply agrees_default hat (hargs arg List.mem_cons_self) hlies.1
    intro w₁ f₁ hat₁
    exact ih hat₁ (fun x hx => hargs x (List.mem_cons_of_mem _ hx)) hlies.2 hrest

/-! ## Values that do not arrive -/

theorem not_follows_binding {source : Source} {self : ObjectId} {e : Entity}
    (hne : source ≠ .value e) : ¬ Follows self ((arg, source) :: sources) [arg.binding self e] := by
  unfold Argument.binding
  cases source with
  | value e' =>
    have hne' : e ≠ e' := fun h => hne (by rw [h])
    split <;> rename_i hfield <;> simp [Follows, Argument.binding, hfield, hne']
  | default => split <;> simp [Follows]
  | missing => split <;> simp [Follows]

/-- A parameter that is bound to something else than its source. -/
theorem not_binds_bind {source : Source} (hat : S.At w k f) (hlies : S.Lies k arg.bindPieces)
    (hname : arg.argName.isName = true) (hne : source ≠ .value f.resval) :
    ¬ S.Binds env ((arg, source) :: sources) w := by
  obtain ⟨w₁, hquiet, hbind⟩ := bind_cases env hat hlies hname
  rw [hquiet.binds]
  rcases hbind with ⟨hstop, -⟩ | ⟨-, w₂, f₂, g, -⟩
  · exact not_binds_stuck hstop
  · intro h
    have hfollows := (h.after ((g.step _ _).mpr ⟨rfl, rfl⟩)).now.1
    exact not_follows_binding hne hfollows

/-! ## Several parameters -/

theorem equalityResult_length (n : Nat) :
    equalityResult .EQ (.int n) (.int (-1)) = .none := by
  have hne : (n : Int) ≠ -1 := by omega
  simp [equalityResult, Primitive.equals, Primitive.isFloat, Primitive.isInt, Primitive.intOf, hne]

/-- The test whether the value is a tuple. -/
theorem tuple_test (env : Env) {ps : List Piece} (hat : S.At w k f)
    (hlies : S.Lies k ([.own ⟨.PUSH, .noArg⟩, .own ⟨.TLEN, .noArg⟩, .own ⟨.PUSH, .noArg⟩,
      .own ⟨.PUSH, .val (.int (-1))⟩, .own ⟨.EQ, .noArg⟩] ++ ps)) :
    ∃ w', S.Quiet env w w' ∧ S.At w' (k + 5)
      ⟨f.store, if (tupleOf f.store f.resval).isSome then .none else .int 1,
        f.resval :: f.stack⟩ := by
  obtain ⟨hpush, hlen, hpush', hminus, heq, -⟩ := hlies
  obtain ⟨w₁, hquiet₁, hat₁⟩ := hat.quiet env hpush (x := f.push f.resval)
    (by simp [execute, executePUSH, hat.frame]) (fun _ => rfl) rfl (by simp)
  obtain ⟨n, hn, hquiet₂⟩ : ∃ n : Int,
      (equalityResult .EQ (.int n) (.int (-1)) =
        if (tupleOf f.store f.resval).isSome then .none else .int 1) ∧
      ∃ w₂, S.Quiet env w₁ w₂ ∧ S.At w₂ (k + 2) ((f.push f.resval).withResval (.int n)) := by
    cases htable : tupleOf f.store f.resval with
    | none =>
      refine ⟨-1, by decide, ?_⟩
      exact hat₁.quiet env hlen (by simp [execute, executeTLEN, hat₁.frame, Frame.peek, Frame.push,
        htable]) (fun _ => rfl) rfl (by simp)
    | some table =>
      refine ⟨table.length, equalityResult_length table.length, ?_⟩
      exact hat₁.quiet env hlen (by simp [execute, executeTLEN, hat₁.frame, Frame.peek, Frame.push,
        htable]) (fun _ => rfl) rfl (by simp)
  obtain ⟨w₂, hquiet₂, hat₂⟩ := hquiet₂
  obtain ⟨w₃, hquiet₃, hat₃⟩ := hat₂.quiet env hpush'
    (x := ((f.push f.resval).withResval (.int n)).push (.int n))
    (by simp [execute, executePUSH, hat₂.frame, Frame.withResval]) (fun _ => rfl) rfl
    (by simp)
  obtain ⟨w₄, hquiet₄, hat₄⟩ := hat₃.quiet env hminus
    (x := (((f.push f.resval).withResval (.int n)).push (.int n)).push (.int (-1)))
    (by simp [execute, executePUSH, hat₃.frame, Entity.int]) (fun _ => rfl) rfl (by simp)
  obtain ⟨w₅, hquiet₅, hat₅⟩ := hat₄.quiet env heq
    (x := (f.push f.resval).withResval (equalityResult .EQ (.int n) (.int (-1))))
    (by simp [execute, executeEQ, hat₄.frame, Frame.push, Frame.withResval, Entity.int,
      equalityOfPrimitives]) (fun _ => rfl) rfl (by simp)
  rw [hn] at hat₅
  exact ⟨w₅, hquiet₁.trans (hquiet₂.trans (hquiet₃.trans (hquiet₄.trans hquiet₅))), hat₅⟩

/-- An empty tuple is taken apart even when the first parameter has a default. -/
theorem not_binds_empty (hat : S.At w k f) (hstack : f.stack = a :: stack)
    (htable : tupleOf f.store a = some []) (hdefault : arg.hasDefault = true)
    (hlies : S.Lies k (arg.tuplePieces 0 isLast)) :
    ¬ S.Binds env ((arg, .default) :: sources) w := by
  obtain ⟨value, hvalue⟩ := Option.isSome_iff_exists.mp hdefault
  simp only [Argument.tuplePieces, hvalue] at hlies
  obtain ⟨hpeek, htest, hif, hpop, hget, -⟩ := hlies
  have hone : a.isNone = false := by
    cases a with
    | none => cases htable
    | _ => rfl
  obtain ⟨w₁, hquiet₁, hat₁⟩ := hat.quiet env hpeek (x := f.withResval a)
    (by simp [execute, executePEEK, hat.frame, Frame.peek, hstack]) (fun _ => rfl) rfl
    (by simp)
  obtain ⟨w₂, hquiet₂, hat₂⟩ := hat₁.quiet env htest (x := f.withResval (.int 1))
    (by simp [execute, executeTGTE, hat₁.frame, Frame.withResval, hone]) (fun _ => rfl) rfl
    (by simp)
  obtain ⟨w₃, hquiet₃, hat₃⟩ := hat₂.quiet env hif (x := f.withResval (.int 1))
    (by simp [execute, executeIF, hat₂.frame, Frame.withResval, Entity.isNone, Entity.int])
    (fun _ => rfl) rfl (by simp)
  obtain ⟨w₄, hquiet₄, hat₄⟩ := hat₃.quiet env hpop
    (x := ⟨f.store, a, if isLast then stack else a :: stack⟩)
    (by cases isLast <;> simp [execute, executePEEK, executeRES, hat₃.frame, Frame.peek, Frame.pop,
          hstack, Frame.withResval])
    (fun _ => rfl) (by cases isLast <;> rfl) (by cases isLast <;> exact (by simp))
  have hexec : ∃ f' err, execute env w₄ S.task S.context ⟨.TGET, .val (.int (0 : Nat))⟩ =
      some (.raise f' err) := by
    have hle : (((0 : Nat) : Int) < 0 ∨ (([] : List Entity).length : Int) ≤ ((0 : Nat) : Int)) :=
      .inr (Int.le_refl 0)
    simp only [execute, executeTGET, hat₄.frame, htable, if_pos hle, raiseError]
    exact ⟨_, _, rfl⟩
  obtain ⟨f', err, hexec⟩ := hexec
  obtain ⟨w₅, hraise, -⟩ := hat₄.goes_raise hget hexec rfl
  rw [hquiet₁.binds, hquiet₂.binds, hquiet₃.binds, hquiet₄.binds]
  intro h
  have hfollows := (h.after ((hraise _ _).mpr ⟨rfl, rfl⟩)).now.1
  simp [Follows] at hfollows

/-- The value is bound to the first parameter, and the others get their defaults. -/
theorem agrees_single (env : Env) {args : Arguments} (hholds : S.Holds args.pieces) (hat : S.At w k f)
    (hstack : f.stack = a :: stack) (hargs : ∀ arg ∈ args.all, arg.WellFormed) {n : Nat}
    (hlies : S.Lies k (.own ⟨.RES, .noArg⟩ :: args.first.bindPieces ++ defaultsPieces args.rest ++
      [.own ⟨.JMP, .val (.int n)⟩]))
    (hend : k + Piece.size (.own ⟨.RES, .noArg⟩ :: args.first.bindPieces ++
      defaultsPieces args.rest) + 1 + n = Piece.size args.pieces) :
    S.Agrees env ((args.first, .value a) ::
      args.rest.map fun arg => (arg, arg.fallback (.value .none))) w := by
  simp only [List.cons_append, List.append_assoc, Piece.size_own, Piece.size_append] at hlies hend
  obtain ⟨hres, hlies⟩ := hlies
  rw [lies_append, lies_append] at hlies
  obtain ⟨hbind, hdefaults, hjump, -⟩ := hlies
  apply agrees_next hat hres (x := ⟨f.store, a, stack⟩)
    (by simp [execute, executeRES, hat.frame, Frame.pop, hstack, Frame.withResval])
    (fun _ => rfl) rfl (by simp)
  intro w₁ hat₁
  apply agrees_bind hat₁ hbind (hargs args.first List.mem_cons_self).name
  intro w₂ f₂ hat₂ _ _
  apply agrees_defaults hat₂ (fun arg hmem => hargs arg (List.mem_cons_of_mem _ hmem)) hdefaults
  intro w₃ f₃ hat₃
  apply agrees_jump hat₃ hjump (j := Piece.size args.pieces)
    (by simp only [execute, executeJMP, hat₃.frame]; rfl) (by omega) rfl (by simp)
  intro w₄ hat₄
  exact agrees_end hholds hat₄

theorem sources_of_table {args : Arguments} (hne : args.rest ≠ []) (hobj : a ≠ .none) :
    args.sources a (some table) = args.all.mapIdx fun i arg =>
      (arg, (table[i]?).elim (arg.fallback .missing) .value) := by
  simp [Arguments.sources, hne, hobj]

theorem sources_of_single {args : Arguments} (hne : args.rest ≠ [])
    (hfirst : args.first.hasDefault = true → a ≠ .none) :
    args.sources a none = (args.first, .value a) ::
      args.rest.map fun arg => (arg, arg.fallback (.value .none)) := by
  by_cases hobj : a = .none
  · have hdefault : args.first.hasDefault = false := by
      cases h : args.first.hasDefault with
      | false => rfl
      | true => exact absurd hobj (hfirst h)
    simp [Arguments.sources, hobj, Arguments.all, Argument.fallback, hdefault]
  · simp [Arguments.sources, hne, hobj]

theorem tuple_iff {args : Arguments} (hholds : S.Holds args.pieces) (hat : S.At w k f)
    (hstack : f.stack = a :: stack) (hobj : a ≠ .none) (htable : tupleOf f.store a = some table)
    (hargs : ∀ arg ∈ args.all, arg.WellFormed) (hlies : S.Lies k (allPieces 0 args.all))
    (hend : k + Piece.size (allPieces 0 args.all) = Piece.size args.pieces) :
    S.Binds env (args.all.mapIdx fun i arg =>
      (arg, (table[i]?).elim (arg.fallback .missing) .value)) w ↔
        S.NoConstTurn env w ∧ (args.first.hasDefault = true → table ≠ []) := by
  by_cases hempty : args.first.hasDefault = true ∧ table = []
  · obtain ⟨hdefault, rfl⟩ := hempty
    refine iff_of_false ?_ fun h => h.2 hdefault rfl
    simp only [Arguments.all, List.mapIdx_cons, List.getElem?_nil, Option.elim_none,
      Argument.fallback, hdefault, if_true]
    rw [Arguments.all, allPieces, lies_append] at hlies
    exact not_binds_empty hat hstack htable hdefault hlies.1
  · have hne : args.first.hasDefault = true → table ≠ [] := fun hdefault h => hempty ⟨hdefault, h⟩
    have hagrees := agrees_all env hholds hat (fun _ => hstack) hobj htable
      (fun arg hmem _ => by
        simp only [Arguments.all, List.head?_cons, Option.mem_some_iff] at hmem
        rw [← hmem]
        exact hne) hargs hlies hend
    simp only [Nat.zero_add] at hagrees
    unfold Agrees at hagrees
    rw [hagrees]
    exact (and_iff_left hne).symm

theorem single_iff {args : Arguments} (hne : args.rest ≠ []) (hholds : S.Holds args.pieces)
    (hat : S.At w k f) (hstack : f.stack = a :: stack)
    (hargs : ∀ arg ∈ args.all, arg.WellFormed) {n : Nat}
    (hlies : S.Lies k (.own ⟨.RES, .noArg⟩ :: args.first.bindPieces ++ defaultsPieces args.rest ++
      [.own ⟨.JMP, .val (.int n)⟩]))
    (hend : k + Piece.size (.own ⟨.RES, .noArg⟩ :: args.first.bindPieces ++
      defaultsPieces args.rest) + 1 + n = Piece.size args.pieces) :
    S.Binds env (args.sources a none) w ↔
      S.NoConstTurn env w ∧ (args.first.hasDefault = true → a ≠ .none) := by
  by_cases hnone : args.first.hasDefault = true ∧ a = .none
  · obtain ⟨hdefault, rfl⟩ := hnone
    refine iff_of_false ?_ fun h => h.2 hdefault rfl
    have hsources : args.sources .none none = (args.first, .default) ::
        args.rest.map fun arg => (arg, arg.fallback (.value .none)) := by
      simp [Arguments.sources, Arguments.all, Argument.fallback, hdefault]
    rw [hsources]
    simp only [List.cons_append, List.append_assoc] at hlies
    obtain ⟨hres, hlies⟩ := hlies
    obtain ⟨w₁, hquiet₁, hat₁⟩ := hat.quiet env hres (x := ⟨f.store, .none, stack⟩)
      (by simp [execute, executeRES, hat.frame, Frame.pop, hstack, Frame.withResval])
      (fun _ => rfl) rfl (by simp)
    rw [hquiet₁.binds]
    exact not_binds_bind hat₁ (lies_append.mp hlies).1 (hargs args.first List.mem_cons_self).name
      (by simp)
  · have hfirst : args.first.hasDefault = true → a ≠ .none := fun hdefault h =>
      hnone ⟨hdefault, h⟩
    have hagrees := agrees_single env hholds hat hstack hargs hlies hend
    unfold Agrees at hagrees
    rw [sources_of_single hne hfirst, hagrees]
    exact (and_iff_left hfirst).symm

theorem several_iff {args : Arguments} (hne : args.rest ≠ []) (hholds : S.Holds args.pieces)
    (hat : S.At w 0 f) (hargs : ∀ arg ∈ args.all, arg.WellFormed) :
    S.Binds env (args.sources f.resval (tupleOf f.store f.resval)) w ↔
      S.NoConstTurn env w ∧ (args.first.hasDefault = true →
        f.resval ≠ .none ∧ tupleOf f.store f.resval ≠ some []) := by
  have hlies := hholds.lies
  have hpieces : Piece.size args.pieces = Piece.size args.pieces := rfl
  simp only [Arguments.pieces, if_neg hne] at hlies
  conv_rhs at hpieces => simp only [Arguments.pieces, if_neg hne]
  rw [List.append_assoc, List.append_assoc, lies_append, ← List.append_assoc, lies_append] at hlies
  obtain ⟨htest, hsingle, htuple⟩ := hlies
  have hif := htest.2.2.2.2.2.1
  obtain ⟨w₅, hquiet₅, hat₅⟩ := tuple_test env hat htest
  rw [hquiet₅.binds, hquiet₅.noConstTurn]
  rw [Piece.size_append] at htuple
  generalize hs : Piece.own ⟨.RES, .noArg⟩ :: args.first.bindPieces ++
    defaultsPieces args.rest = single at *
  simp only [Piece.size_append, Piece.size_own, Piece.size_nil] at hpieces htuple
  cases htable : tupleOf f.store f.resval with
  | some table =>
    have hobj : f.resval ≠ .none := by
      intro h
      rw [h] at htable
      cases htable
    rw [htable] at hat₅
    obtain ⟨w₆, hquiet₆, hat₆⟩ := hat₅.quiet_jump env hif
      (j := 7 + Piece.size single)
      (by simp only [execute, executeIF, hat₅.frame]; rfl) (by push_cast; omega) rfl (by simp)
    rw [hquiet₆.binds, hquiet₆.noConstTurn, sources_of_table hne hobj]
    have hlies' : S.Lies (7 + Piece.size single) (allPieces 0 args.all) := by
      convert htuple using 1
      omega
    rw [tuple_iff hholds hat₆ rfl hobj htable hargs hlies' (by omega)]
    simp [hobj]
  | none =>
    rw [htable] at hat₅
    obtain ⟨w₆, hquiet₆, hat₆⟩ := hat₅.quiet env hif (x := ⟨f.store, .int 1,
      f.resval :: f.stack⟩) (by simp [execute, executeIF, hat₅.frame, Entity.isNone, Entity.int])
      (fun _ => rfl) rfl (by simp)
    rw [hquiet₆.binds, hquiet₆.noConstTurn]
    subst hs
    rw [single_iff hne hholds hat₆ rfl hargs hsingle (by omega)]
    simp

/-! ## One parameter -/

/-- `TGET 0` leaves the value as it is. -/
def Plain (s : Store) (e : Entity) : Prop :=
  ∀ table, tupleOf s e = some table → table[0]? = some e

/-- The only value that the code evaluates before it binds anything is plain. -/
def PlainDefault (env : Env) (S : Site) : World → Prop :=
  Always (S.Step env) fun tr w => tr = [] → ∀ w' k len f f', (k, len) ∈ S.parts →
    S.Evaluates w w' k len f f' → Plain f'.store f'.resval

theorem Quiet.plainDefault {w' : World} (h : S.Quiet env w w') :
    PlainDefault env S w ↔ PlainDefault env S w' := by
  induction h with
  | refl => exact Iff.rfl
  | @head w w₁ w' k f g _ _ ih =>
    rw [← ih]
    unfold PlainDefault
    rw [Always.unique g.step]
    refine and_iff_right ?_
    intro _ w₂ k₂ len f₂ f₃ hmem heval
    have hone := (g.step _ _).mp (.part hmem heval)
    cases hone.1

theorem plainDefault_part {is : List Instruction} {ps : List Piece} (hat : S.At w k f)
    (hlies : S.Lies k (.part is :: ps)) :
    PlainDefault env S w ↔
      ∀ w' f', S.Evaluates w w' k is.length f f' → Plain f'.store f'.resval := by
  constructor
  · intro h w' f' heval
    exact h.now rfl w' k is.length f f' hlies.1.1 heval
  · intro h
    apply Always.intro
    · intro _ w' k' len f₁ f₂ hmem heval
      cases hat.position_unique heval.start
      cases hat.frame_unique heval.start
      cases hlies.1.2 len hmem
      exact h w' f₂ heval
    · intro e w' hstep tr w'' _ hnil
      obtain ⟨f', -, rfl⟩ := (part_step_iff hat hlies e w').mp hstep
      cases hnil

/-- `TGET 0` and the binding of the only parameter. -/
theorem only_get_iff {all : List Piece} (hholds : S.Holds all) (hat : S.At w k f)
    (hlies : S.Lies k (.own ⟨.TGET, .val (.int 0)⟩ :: arg.bindPieces))
    (hname : arg.argName.isName = true)
    (hend : k + Piece.size (.own ⟨.TGET, .val (.int 0)⟩ :: arg.bindPieces) = Piece.size all) :
    S.Binds env [(arg, .value f.resval)] w ↔
      S.NoConstTurn env w ∧ Plain f.store f.resval := by
  obtain ⟨hget, hbind⟩ := hlies
  rw [Piece.size_own, ← Nat.add_assoc] at hend
  have hdone : ∀ w₂ f₂, S.At w₂ (k + 1 + Piece.size arg.bindPieces) f₂ → S.Agrees env [] w₂ := by
    intro w₂ f₂ hat₂
    rw [hend] at hat₂
    exact agrees_end hholds hat₂
  cases htable : tupleOf f.store f.resval with
  | none =>
    have hplain : Plain f.store f.resval := fun table h => by rw [htable] at h; cases h
    rw [and_iff_left hplain]
    apply agrees_next hat hget (x := f) (by simp [execute, executeTGET, hat.frame, htable])
      (fun _ => rfl) rfl (by simp)
    intro w₁ hat₁
    exact agrees_bind hat₁ hbind hname fun w₂ f₂ hat₂ _ _ => hdone w₂ f₂ hat₂
  | some table =>
    cases table with
    | nil =>
      refine iff_of_false ?_ fun h => ?_
      · have hexec : ∃ f' err, execute env w S.task S.context ⟨.TGET, .val (.int 0)⟩ =
            some (.raise f' err) := by
          simp only [execute, executeTGET, hat.frame, htable, List.length_nil, raiseError]
          exact ⟨_, _, rfl⟩
        obtain ⟨f', err, hexec⟩ := hexec
        obtain ⟨w₁, hraise, -⟩ := hat.goes_raise hget hexec rfl
        intro h
        have hfollows := (h.after ((hraise _ _).mpr ⟨rfl, rfl⟩)).now.1
        simp only [Option.toList_some, List.append_nil, Follows, Argument.binding] at hfollows
        split at hfollows <;> simp at hfollows
      · have hfirst := h.2 [] htable
        cases hfirst
    | cons e table =>
      obtain ⟨w₁, hquiet₁, hat₁⟩ := hat.quiet env hget (x := f.withResval e)
        (by simp [execute, executeTGET, hat.frame, htable]) (fun _ => rfl) rfl
        (by simp)
      rw [hquiet₁.binds, hquiet₁.noConstTurn]
      by_cases he : e = f.resval
      · subst he
        have hplain : Plain f.store f.resval := fun table' h => by
          rw [htable] at h
          cases h
          rfl
        rw [and_iff_left hplain]
        exact agrees_bind hat₁ hbind hname fun w₂ f₂ hat₂ _ _ => hdone w₂ f₂ hat₂
      · refine iff_of_false ?_ fun h => ?_
        · exact not_binds_bind hat₁ hbind hname fun h => he (Source.value.inj h).symm
        · have hfirst := h.2 _ htable
          exact he (Option.some.inj hfirst)

theorem only_iff {args : Arguments} (hone : args.rest = []) (hholds : S.Holds args.pieces)
    (hat : S.At w 0 f) (hargs : ∀ arg ∈ args.all, arg.WellFormed) :
    S.Binds env (args.sources f.resval (tupleOf f.store f.resval)) w ↔
      S.NoConstTurn env w ∧ (args.first.hasDefault = true →
        if f.resval = .none then PlainDefault env S w else Plain f.store f.resval) := by
  have hlies := hholds.lies
  have hname := (hargs args.first List.mem_cons_self).name
  have hsize : Piece.size args.pieces = Piece.size args.first.onlyPieces := by
    rw [Arguments.pieces, if_pos hone]
  rw [Arguments.pieces, if_pos hone] at hlies
  cases hvalue : args.first.defaultValue with
  | none =>
    have hdefault : args.first.hasDefault = false := by simp [Argument.hasDefault, hvalue]
    have hsources : args.sources f.resval (tupleOf f.store f.resval) =
        [(args.first, .value f.resval)] := by
      by_cases hnone : f.resval = .none
      · simp [Arguments.sources, hnone, Arguments.all, hone, Argument.fallback, hdefault]
      · simp [Arguments.sources, hnone, hone]
    simp only [Argument.onlyPieces, hvalue] at hlies hsize
    rw [hsources, hdefault]
    refine Iff.trans ?_ (and_iff_left nofun).symm
    apply agrees_bind hat hlies hname
    intro w₁ f₁ hat₁ _ _
    rw [Nat.zero_add, ← hsize] at hat₁
    exact agrees_end hholds hat₁
  | some value =>
    have hdefault : args.first.hasDefault = true := by simp [Argument.hasDefault, hvalue]
    simp only [Argument.onlyPieces, hvalue] at hlies hsize
    obtain ⟨hpush, htest, hif, hpart, hjump, hres, hget⟩ := hlies
    have hlies : S.Lies 3 (.part (lower value).code :: []) := ⟨hpart, trivial⟩
    simp only [List.cons_append, List.nil_append, Piece.size_own, Piece.size_part] at hsize
    obtain ⟨w₁, hquiet₁, hat₁⟩ := hat.quiet env hpush (x := f.push f.resval)
      (by simp [execute, executePUSH, hat.frame]) (fun _ => rfl) rfl (by simp)
    obtain ⟨w₂, hquiet₂, hat₂⟩ := hat₁.quiet env htest
      (x := (f.push f.resval).withResval (if f.resval.isNone then .none else .int 1))
      (by simp [execute, executeTGTE, hat₁.frame, Frame.push]) (fun _ => rfl) rfl (by simp)
    rw [hquiet₁.binds, hquiet₂.binds, hquiet₁.noConstTurn, hquiet₂.noConstTurn,
      hquiet₁.plainDefault, hquiet₂.plainDefault, hdefault]
    by_cases hnone : f.resval = .none
    · have hsources : args.sources f.resval (tupleOf f.store f.resval) =
          [(args.first, .default)] := by
        simp [Arguments.sources, hnone, Arguments.all, hone, Argument.fallback, hdefault]
      rw [hsources, if_pos hnone]
      rw [hnone] at hat₂
      obtain ⟨w₃, hquiet₃, hat₃⟩ := hat₂.quiet env hif
        (x := ⟨f.store, .none, f.resval :: f.stack⟩)
        (by simp [execute, executeIF, hat₂.frame, Frame.withResval, Frame.push, Entity.isNone,
          hnone]) (fun _ => rfl) rfl (by simp)
      rw [hquiet₃.binds, hquiet₃.noConstTurn, hquiet₃.plainDefault, binds_part hat₃ hlies,
        noConstTurn_part hat₃ hlies, plainDefault_part hat₃ hlies]
      have heach : ∀ w' f', S.Evaluates w₃ w' 3 (lower value).code.length
          ⟨f.store, .none, f.resval :: f.stack⟩ f' →
            (S.Binds env [(args.first, .value f'.resval)] w' ↔
              S.NoConstTurn env w' ∧ Plain f'.store f'.resval) := by
        intro w' f' heval
        obtain ⟨w₄, hquiet₄, hat₄⟩ := heval.finish.quiet_jump env hjump
          (j := 3 + (lower value).code.length + 1 + 1)
          (by simp only [execute, executeJMP, heval.finish.frame]; rfl) (by push_cast; omega) rfl
          (by simp)
        rw [hquiet₄.binds, hquiet₄.noConstTurn]
        exact only_get_iff hholds hat₄ hget hname (by simp only [Piece.size_own]; omega)
      constructor
      · intro h
        exact ⟨fun w' f' heval => ((heach w' f' heval).mp (h w' f' heval)).1,
          fun _ w' f' heval => ((heach w' f' heval).mp (h w' f' heval)).2⟩
      · rintro ⟨hturn, hplain⟩ w' f' heval
        exact (heach w' f' heval).mpr ⟨hturn w' f' heval, hplain rfl w' f' heval⟩
    · have hsources : args.sources f.resval (tupleOf f.store f.resval) =
          [(args.first, .value f.resval)] := by
        simp [Arguments.sources, hnone, hone]
      rw [hsources, if_neg hnone]
      have htrue : f.resval.isNone = false := by
        cases h : f.resval with
        | none => exact absurd h hnone
        | _ => rfl
      rw [htrue] at hat₂
      obtain ⟨w₃, hquiet₃, hat₃⟩ := hat₂.quiet_jump env hif
        (j := 3 + (lower value).code.length + 1)
        (by simp only [execute, executeIF, hat₂.frame]; rfl) (by push_cast; omega) rfl
        (by simp)
      obtain ⟨w₄, hquiet₄, hat₄⟩ := hat₃.quiet env hres (x := f)
        (by simp [execute, executeRES, hat₃.frame, Frame.pop, Frame.push, Frame.withResval])
        (fun _ => rfl) rfl (by simp)
      rw [hquiet₃.binds, hquiet₄.binds, hquiet₃.noConstTurn, hquiet₄.noConstTurn,
        only_get_iff hholds hat₄ hget hname (by simp only [Piece.size_own]; omega)]
      simp

end Site

/-! ## Binding of all parameters -/

/-- What must hold when the first parameter has a default: an only parameter gets a plain value,
and of several parameters the first one gets an argument. -/
def Arguments.Suits (args : Arguments) (env : Env) (S : Site) (w : World) (f : Frame) : Prop :=
  args.first.hasDefault = true →
    if args.rest = [] then
      if f.resval = .none then Site.PlainDefault env S w else Site.Plain f.store f.resval
    else f.resval ≠ .none ∧ tupleOf f.store f.resval ≠ some []

/-- The code of `produce_arguments` binds the parameters as it should exactly when no const
parameter gets its turn and the value suits a default of the first parameter. -/
theorem arguments_bound_iff (env : Env) (args : Arguments) (n : Int) (tape : Tape) (S : Site)
    (w : World) (f : Frame) (hproduce : produceArguments args Tape.create = some (n, tape))
    (hargs : ∀ arg ∈ args.all, arg.WellFormed) (hcode : S.code = tape.ins)
    (hparts : S.parts = Piece.parts 0 args.pieces) (hat : S.At w 0 f) :
    S.Binds env (args.sources f.resval (tupleOf f.store f.resval)) w ↔
      S.NoConstTurn env w ∧ args.Suits env S w f := by
  have hholds : S.Holds args.pieces := by
    refine ⟨?_, hparts, ?_⟩
    · rw [hcode, (Generates.create (generates_arguments args) hproduce).2, codeAll_pieces]
    · exact args.solid hargs
  unfold Arguments.Suits
  by_cases hone : args.rest = []
  · rw [if_pos hone]
    exact Site.only_iff hone hholds hat hargs
  · rw [if_neg hone]
    exact Site.several_iff hone hholds hat hargs

/-- `(x = 1, y = 2)` -/
def twoDefaults : Arguments where
  token := ⟨.LPAREN, 1, 5, "("⟩
  first := ⟨false, false, ⟨.WORD, 1, 6, "x"⟩, some (.constant ⟨.INTEGER, 1, 10, "1"⟩)⟩
  rest := [⟨false, false, ⟨.WORD, 1, 13, "y"⟩, some (.constant ⟨.INTEGER, 1, 17, "2"⟩)⟩]

theorem twoDefaults_wellFormed : ∀ arg ∈ twoDefaults.all, arg.WellFormed := by
  intro arg hmem
  simp only [twoDefaults, Arguments.all, List.mem_cons, List.not_mem_nil, or_false] at hmem
  rcases hmem with rfl | rfl
  · exact ⟨by decide, fun value h => by cases h; simp [lower, tokenCode]⟩
  · exact ⟨by decide, fun value h => by cases h; simp [lower, tokenCode]⟩

def twoDefaultsSite : Site := codeSite (lowerArguments twoDefaults).code
  (Piece.parts 0 twoDefaults.pieces) (Runs (processStep noNatives))

/-- A call with the value `e`. -/
def twoDefaultsWorld (e : Entity) : World :=
  codeWorld (lowerArguments twoDefaults).code (fun _ => ⟨.Object, .empty, .none⟩) e []

theorem twoDefaults_produced : ∃ n tape, produceArguments twoDefaults Tape.create = some (n, tape) ∧
    twoDefaultsSite.code = tape.ins := by
  cases hproduce : produceArguments twoDefaults Tape.create with
  | none => exact absurd hproduce (by decide)
  | some r =>
    obtain ⟨n, tape⟩ := r
    exact ⟨n, tape, rfl, (Generates.create (generates_arguments twoDefaults) hproduce).2.symm⟩

/-- A call with one number. -/
theorem arguments_bound_number : ∃ n tape,
    produceArguments twoDefaults Tape.create = some (n, tape) ∧
      (twoDefaultsSite.Binds noNatives (twoDefaults.sources (.int 7) none)
        (twoDefaultsWorld (.int 7)) ↔
          twoDefaultsSite.NoConstTurn noNatives (twoDefaultsWorld (.int 7)) ∧
            twoDefaults.Suits noNatives twoDefaultsSite (twoDefaultsWorld (.int 7))
              ⟨(twoDefaultsWorld (.int 7)).store, .int 7, []⟩) := by
  obtain ⟨n, tape, hproduce, hcode⟩ := twoDefaults_produced
  exact ⟨n, tape, hproduce, arguments_bound_iff noNatives twoDefaults n tape twoDefaultsSite
    (twoDefaultsWorld (.int 7)) _ hproduce twoDefaults_wellFormed hcode rfl (codeWorld_at ..)⟩

/-- A call without arguments: the first parameter does not get its default. -/
theorem not_arguments_bound : ¬ ∀ (env : Env) (args : Arguments) (n : Int) (tape : Tape)
    (S : Site) (w : World) (f : Frame), produceArguments args Tape.create = some (n, tape) →
    (∀ arg ∈ args.all, arg.WellFormed) → S.code = tape.ins →
    S.parts = Piece.parts 0 args.pieces → S.At w 0 f →
      S.Binds env (args.sources f.resval (tupleOf f.store f.resval)) w := by
  intro h
  obtain ⟨n, tape, hproduce, hcode⟩ := twoDefaults_produced
  have hbinds := h noNatives twoDefaults n tape twoDefaultsSite (twoDefaultsWorld .none) _ hproduce
    twoDefaults_wellFormed hcode rfl (codeWorld_at ..)
  have hholds : twoDefaultsSite.Holds twoDefaults.pieces :=
    ⟨(codeAll_pieces twoDefaults).symm, rfl, twoDefaults.solid twoDefaults_wellFormed⟩
  have hsuits := (Site.several_iff (by decide) hholds (codeWorld_at ..)
    twoDefaults_wellFormed).mp hbinds
  exact (hsuits.2 rfl).1 rfl

end JeffVm
