import JeffVm.Files
import JeffVm.Optimizer
import JeffVm.Site
import JeffVm.StringMethods

/-!
# A string in a string

`String.__in__` compares what `find` gives with `None`. `NEQ` compares with a primitive, or
calls a method of its left side, which here is no object.
-/

set_option autoImplicit false

namespace JeffVm

namespace Membership

/-! ## The method -/

def findCall : ExpressionTree :=
  .postfixExpression (.identifier ⟨.WORD, 87, 4, "find"⟩)
    [.fncall ⟨.LPAREN, 87, 8, "("⟩ (some (.identifier ⟨.WORD, 87, 9, "sub"⟩))]

/-- `find(sub) != None` -/
def inBody : ExpressionTree :=
  .biExpression .equality findCall
    [⟨⟨.NEQUIV, 87, 14, "!="⟩, .neq, .identifier ⟨.WORD, 87, 17, "None"⟩⟩]

/-- `String.__in__` -/
def inMethod : FunctionDef :=
  ⟨⟨.METHOD, 86, 2, "method"⟩, some ⟨.WORD, 86, 9, "__in__"⟩, .NONE, false,
    some ⟨⟨.LPAREN, 86, 15, "("⟩, ⟨false, false, ⟨.WORD, 86, 16, "sub"⟩, none⟩, []⟩, inBody⟩

/-- The code of the method, as it is produced or optimized. -/
inductive Compiled : List Instruction → Prop where
  | produced {n : Int} {tape : Tape} (h : produceFunction inMethod Tape.create = some (n, tape)) :
      Compiled tape.ins
  | optimized {n : Int} {tape tape' : Tape}
      (h : produceFunction inMethod Tape.create = some (n, tape))
      (hoptimize : optimize tape = some tape') : Compiled tape'.ins

/-- The call of `find` is a part. -/
def inPieces : List Piece :=
  [.own ⟨.LET, .id "sub"⟩,
    .part [⟨.RES, .id "find"⟩, ⟨.PUSH, .noArg⟩, ⟨.RES, .id "sub"⟩, ⟨.CALL, .noArg⟩],
    .own ⟨.PUSH, .noArg⟩, .own ⟨.RNIL, .noArg⟩, .own ⟨.PUSH, .noArg⟩, .own ⟨.NEQ, .noArg⟩,
    .own ⟨.RET, .noArg⟩]

theorem produced_in : (produceFunction inMethod Tape.create).map (fun p => p.2.ins) =
    some (Piece.codeAll inPieces) := by
  decide

theorem optimized_in : ((produceFunction inMethod Tape.create).bind
    fun p => (optimize p.2).map Tape.ins) = some (Piece.codeAll inPieces) := by
  decide

/-- No pass changes the method. -/
theorem Compiled.eq {code : List Instruction} (h : Compiled code) :
    code = Piece.codeAll inPieces := by
  cases h with
  | produced h =>
    have heq := produced_in
    rw [h] at heq
    exact Option.some.inj heq
  | optimized h hoptimize =>
    have heq := optimized_in
    rw [h] at heq
    simp only [Option.bind_some, hoptimize, Option.map_some] at heq
    exact Option.some.inj heq

/-! ## Runs -/

/-- A value that is no object, as the VM has it. -/
def Value.entity : Value → Option Entity
  | .none => some .none
  | .prim pri => some (.prim pri)
  | _ => Option.none

variable {env : Env} {S : Site} {w : World} {k : Nat} {f : Frame} {findStr : FindStr}
variable {str sub : List Char}

/-- Where `find(sub)` is evaluated, the result is what `_string_find` gives from index 0. -/
def Finds (findStr : FindStr) (str sub : List Char) (S : Site) : Prop :=
  ∀ w w' k len f f', S.Evaluates w w' k len f f' → ∃ address v,
    stringFind findStr str (.tuple address [.string sub, .int 0]) = .ok v ∧
      Value.entity v = some f'.resval

/-- The method comes to its end, and its value is true if the string is in the other one. -/
def Tells (env : Env) (S : Site) (w : World) (str sub : List Char) : Prop :=
  ∃ tr w' k f', Traced (S.Step env) w tr w' ∧ S.At w' k f' ∧
    S.code[k]? = some ⟨.RET, .noArg⟩ ∧ (f'.resval ≠ .none ↔ sub <:+: str)

/-- No run comes to the end of the method. -/
def NeverEnds (env : Env) (S : Site) (w : World) : Prop :=
  Always (S.Step env) (fun _ w' => ∀ k f', S.At w' k f' → S.code[k]? ≠ some ⟨.RET, .noArg⟩) w

theorem not_tells_of_neverEnds (h : NeverEnds env S w) : ¬ Tells env S w str sub := by
  rintro ⟨tr, w', k, f', hrun, hat, hret, -⟩
  exact h tr w' hrun k f' hat hret

/-- A task that is nowhere in the code has raised an error. -/
theorem neverEnds_of_not_at (h : ∀ k f, ¬ S.At w k f) : NeverEnds env S w := by
  apply Always.intro
  · intro k f hat
    exact absurd hat (h k f)
  · intro e w' hstep
    exact absurd hstep ((Site.stops_of_not_at h).2 e w')

theorem neverEnds_next {ins : Instruction} {x : Frame} (hat : S.At w k f)
    (hnext : S.Next k ins) (hne : ins ≠ ⟨.RET, .noArg⟩)
    (hexec : execute env w S.task S.context ins = some (.next x))
    (htapes : ∀ m, (x.store.modules m).tape = (f.store.modules m).tape)
    (h : ∀ w', S.At w' (k + 1) x → NeverEnds env S w') : NeverEnds env S w := by
  obtain ⟨w', hat', hstep⟩ := hat.goes_next env hnext hexec htapes
  rw [NeverEnds, Always.unique hstep]
  refine ⟨?_, h w' hat'⟩
  intro k' f' hat'' hret
  cases hat.position_unique hat''
  rw [hnext.ins] at hret
  exact hne (Option.some.inj hret)

theorem neverEnds_raise {ins : Instruction} {x : Frame} {err : ObjectId} (hat : S.At w k f)
    (hnext : S.Next k ins) (hne : ins ≠ ⟨.RET, .noArg⟩)
    (hexec : execute env w S.task S.context ins = some (.raise x err)) :
    NeverEnds env S w := by
  obtain ⟨w', hstep, herror⟩ := hat.goes_error hnext hexec
  rw [NeverEnds, Always.unique hstep]
  refine ⟨?_, neverEnds_of_not_at herror⟩
  intro k' f' hat' hret
  cases hat.position_unique hat'
  rw [hnext.ins] at hret
  exact hne (Option.some.inj hret)

theorem neverEnds_part {len : Nat} (hat : S.At w k f) (hpart : (k, len) ∈ S.parts)
    (hlength : ∀ len', (k, len') ∈ S.parts → len' = len)
    (hret : S.code[k]? ≠ some ⟨.RET, .noArg⟩)
    (h : ∀ w' f', S.Evaluates w w' k len f f' → NeverEnds env S w') : NeverEnds env S w := by
  apply Always.intro
  · intro k' f' hat' hend
    cases hat.position_unique hat'
    exact hret hend
  · intro e w' hstep
    cases hstep with
    | own hat' _ hown =>
      cases hat.position_unique hat'
      exact absurd rfl (hown _ hpart)
    | part hmem heval =>
      cases hat.position_unique heval.start
      cases hat.frame_unique heval.start
      cases hlength _ hmem
      exact h w' _ heval

/-- `None` on the right side is an error, whatever is on the left side. -/
theorem neverEnds_compare {e : Entity} {rest : List Entity} (hat : S.At w k f)
    (hnext : S.Next k ⟨.NEQ, .noArg⟩) (hstack : f.stack = .none :: e :: rest)
    (he : ∀ o, e ≠ .obj o) : NeverEnds env S w := by
  have hexec : execute env w S.task S.context ⟨.NEQ, .noArg⟩ =
      some (raiseError w S.task { f with stack := rest } "RHS for op 'EQ' must be primitive.") := by
    simp only [execute, hat.frame, executeEQ, hstack]
    cases e with
    | obj o => exact absurd rfl (he o)
    | prim p => rfl
    | none => rfl
  exact neverEnds_raise hat hnext (by decide) hexec

theorem Value.entity_ne_obj {v : Value} {e : Entity} (h : Value.entity v = some e) (o : ObjectId) :
    e ≠ .obj o := by
  rintro rfl
  cases v <;> cases h

theorem solid_inPieces : Piece.Solid inPieces := by
  intro hmem
  cases hmem with
  | tail _ hmem =>
    cases hmem with
    | tail _ hmem =>
      rcases hmem with _ | ⟨_, _ | ⟨_, _ | ⟨_, _ | ⟨_, _ | ⟨_, hmem⟩⟩⟩⟩⟩
      cases hmem

theorem execute_push {k : Nat} {f : Frame} (hat : S.At w k f) :
    execute env w S.task S.context ⟨.PUSH, .noArg⟩ = some (.next (f.push f.resval)) := by
  simp only [execute, executePUSH, hat.frame]

/-- The comparison is the last instruction of every run that comes to it. -/
theorem neverEnds_in (hcode : Compiled S.code) (hparts : S.parts = Piece.parts 0 inPieces)
    (hfinds : Finds findStr str sub S) (hat : S.At w 0 f) : NeverEnds env S w := by
  have hholds : S.Holds inPieces := ⟨hcode.eq, hparts, solid_inPieces⟩
  obtain ⟨hlet, ⟨hpart, hlength⟩, hpush, hnil, hpush', hneq, -⟩ := hholds.lies
  have hexec : execute env w S.task S.context ⟨.LET, .id "sub"⟩ =
      some (.next { f with store := contextLet f.store w.contexts S.context "sub" f.resval }) := by
    simp only [execute, executeLET, hat.frame]
  refine neverEnds_next hat hlet (by decide) hexec (fun _ => rfl) fun w₁ hat₁ => ?_
  have hret : S.code[1]? ≠ some ⟨.RET, .noArg⟩ := by
    rw [hcode.eq]
    decide
  refine neverEnds_part hat₁ hpart hlength hret fun w₂ f₂ heval => ?_
  obtain ⟨address, v, -, hv⟩ := hfinds _ _ _ _ _ _ heval
  refine neverEnds_next heval.finish hpush (by decide) (execute_push heval.finish)
    (fun _ => rfl) fun w₃ hat₃ => ?_
  have hexec₃ : execute env w₃ S.task S.context ⟨.RNIL, .noArg⟩ =
      some (.next ((f₂.push f₂.resval).withResval .none)) := by
    simp only [execute, executeRNIL, hat₃.frame]
  refine neverEnds_next hat₃ hnil (by decide) hexec₃ (fun _ => rfl) fun w₄ hat₄ => ?_
  refine neverEnds_next hat₄ hpush' (by decide) (execute_push hat₄) (fun _ => rfl) fun w₅ hat₅ => ?_
  exact neverEnds_compare hat₅ hneq rfl (Value.entity_ne_obj hv)

/-- `p in s` is an error for all strings. -/
theorem in_never (env : Env) (findStr : FindStr) (str sub : List Char) (S : Site) (w : World)
    (f : Frame) (hcode : Compiled S.code) (hparts : S.parts = Piece.parts 0 inPieces)
    (hfinds : Finds findStr str sub S) (hat : S.At w 0 f) : ¬ Tells env S w str sub :=
  not_tells_of_neverEnds (neverEnds_in hcode hparts hfinds hat)

/-- A call of `find` leaves the index 0. -/
def inSite : Site :=
  codeSite (Piece.codeAll inPieces) (Piece.parts 0 inPieces) fun _ w' =>
    (w'.frame 0).resval = .int 0

def inWorld : World := codeWorld (Piece.codeAll inPieces) (fun _ => ⟨.Object, .empty, .none⟩) .none []

theorem compiled_inSite : Compiled inSite.code := by
  obtain ⟨⟨n, tape⟩, hproduce, hins⟩ := Option.map_eq_some_iff.mp produced_in
  have hcode : inSite.code = tape.ins := hins.symm
  rw [hcode]
  exact .produced hproduce

theorem finds_inSite : Finds firstOccurrence ['a', 'b'] ['a'] inSite := by
  intro w w' k len f f' heval
  refine ⟨0, .int 0, rfl, ?_⟩
  have hresval : (w'.frame 0).resval = .int 0 := heval.through
  have hframe : w'.frame 0 = f' := heval.finish.frame
  rw [← hframe, hresval]
  rfl

/-- `'a' in 'ab'` -/
theorem in_never_prefix : ¬ Tells noNatives inSite inWorld ['a', 'b'] ['a'] :=
  in_never noNatives firstOccurrence ['a', 'b'] ['a'] inSite inWorld _ compiled_inSite rfl
    finds_inSite (codeWorld_at ..)

theorem not_in : ¬ ∀ (env : Env) (findStr : FindStr) (str sub : List Char) (S : Site) (w : World)
    (f : Frame), FindsFirst findStr → Compiled S.code → S.parts = Piece.parts 0 inPieces →
    Finds findStr str sub S → S.At w 0 f → Tells env S w str sub := by
  intro h
  exact not_tells_of_neverEnds
    (neverEnds_in compiled_inSite rfl finds_inSite (codeWorld_at ..))
    (h noNatives firstOccurrence ['a', 'b'] ['a'] inSite inWorld _ findsFirst_firstOccurrence
      compiled_inSite rfl finds_inSite (codeWorld_at ..))

end Membership

end JeffVm
