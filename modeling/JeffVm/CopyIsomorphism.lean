import JeffVm.DeepCopy
import JeffVm.Site

/-!
# Copies are isomorphic

What one call of `entity_copy` leaves: the objects that were there are unchanged, the map has
grown, and every object that is new in it has its finished copy. The copy that is being built is
new before the calls for what it refers to, so none of them touches it.
-/

set_option autoImplicit false

namespace JeffVm

/-! ## Renaming -/

/-- The copy of an object, once it is in the map. -/
def copyOf (m : ObjectId → Option ObjectId) (o : ObjectId) : ObjectId := (m o).getD o

/-- What the entity refers to has a copy. -/
def Known (m : ObjectId → Option ObjectId) (e : Entity) : Prop :=
  ∀ o ∈ e.objects, (m o).isSome = true

section

variable {m m' : ObjectId → Option ObjectId} {e : Entity} {es : List Entity} {o : ObjectId}

theorem Known.mono (h : Known m e) (hle : Memo.Le m m') : Known m' e :=
  fun o ho => hle.isSome (h o ho)

theorem renamed_stable (h : Known m e) (hle : Memo.Le m m') :
    e.renamed (copyOf m') = e.renamed (copyOf m) := by
  cases e with
  | obj o =>
    have hsome := h o List.mem_cons_self
    rw [Entity.renamed, Entity.renamed, copyOf, copyOf, hle.getD_eq hsome]
  | _ => rfl

theorem map_renamed_stable (h : ∀ e ∈ es, Known m e) (hle : Memo.Le m m') :
    es.map (Entity.renamed (copyOf m')) = es.map (Entity.renamed (copyOf m)) :=
  List.map_congr_left fun e he => renamed_stable (h e he) hle

theorem internal_renamed_stable {internal : Internal}
    (h : ∀ e ∈ internal.elements, Known m e) (hle : Memo.Le m m') :
    internal.renamed (copyOf m') = internal.renamed (copyOf m) := by
  cases internal with
  | array table => exact congrArg Internal.array (map_renamed_stable h hle)
  | tuple table => exact congrArg Internal.tuple (map_renamed_stable h hle)
  | _ => rfl

theorem object_renamed_eq {obj obj' : Object} {f : ObjectId → ObjectId} (hcls : obj'.cls = obj.cls)
    (hmembers : obj'.members.entries =
      obj.members.entries.map fun member => (member.1, member.2.renamed f))
    (hinternal : obj'.internal = obj.internal.renamed f) : obj' = obj.renamed f := by
  cases obj'
  cases hcls
  cases hinternal
  rw [Object.renamed, Object.mk.injEq]
  exact ⟨rfl, KeyedList.ext hmembers, rfl⟩

theorem known_contents {s : Store} (h : ∀ o' ∈ s.contents o, (m o').isSome = true) :
    (∀ member ∈ (s.objects o).members.entries, Known m member.2) ∧
      ∀ e ∈ (s.internal o).elements, Known m e :=
  ⟨fun member hmember o' ho' =>
      h o' (List.mem_append_left _ (List.mem_flatMap.mpr ⟨member, hmember, ho'⟩)),
    fun e he o' ho' => h o' (List.mem_append_right _ (List.mem_flatMap.mpr ⟨e, he, ho'⟩))⟩

theorem contents_known {s : Store}
    (hmembers : ∀ member ∈ (s.objects o).members.entries, Known m member.2)
    (helements : ∀ e ∈ (s.internal o).elements, Known m e) :
    ∀ o' ∈ s.contents o, (m o').isSome = true := by
  intro o' ho'
  rcases List.mem_append.mp ho' with ho' | ho'
  · obtain ⟨member, hmember, ho'⟩ := List.mem_flatMap.mp ho'
    exact hmembers member hmember o' ho'
  · obtain ⟨e, he, ho'⟩ := List.mem_flatMap.mp ho'
    exact helements e he o' ho'

theorem object_renamed_stable {s : Store} (h : ∀ o' ∈ s.contents o, (m o').isSome = true)
    (hle : Memo.Le m m') :
    (s.objects o).renamed (copyOf m') = (s.objects o).renamed (copyOf m) := by
  obtain ⟨hmembers, helements⟩ := known_contents h
  refine object_renamed_eq rfl ?_ (internal_renamed_stable helements hle)
  refine List.map_congr_left fun member hmember => ?_
  rw [renamed_stable (hmembers member hmember) hle]

end

/-! ## States and steps -/

namespace CopyState

/-- A state in the middle of a copy of objects of `s` that have `P`. -/
structure Sound (s : Store) (P : ObjectId → Prop) (st : CopyState) : Prop where
  source : ∀ o, o < s.nextObject → st.store.objects o = s.objects o
  newer : s.nextObject ≤ st.store.nextObject
  reached : ∀ o c, st.copyMap o = some c → P o
  created : ∀ o c, st.copyMap o = some c → s.nextObject ≤ c ∧ c < st.store.nextObject
  injective : ∀ o o' c, st.copyMap o = some c → st.copyMap o' = some c → o = o'
  onto : ∀ c, s.nextObject ≤ c → c < st.store.nextObject → ∃ o, st.copyMap o = some c
  tables : st.store.classes = s.classes ∧ st.store.functions = s.functions ∧
    st.store.modules = s.modules ∧ st.store.builtin = s.builtin

/-- `c` is a copy of `o`, and what `o` refers to has copies. -/
structure Finished (s : Store) (st : CopyState) (o c : ObjectId) : Prop where
  object : st.store.objects c = (s.objects o).renamed (copyOf st.copyMap)
  contents : ∀ o' ∈ s.contents o, (st.copyMap o').isSome = true
  hasData : s.HasData o

/-- What copying does to the state, with the changes of `target`. -/
structure Step (s : Store) (target : Option ObjectId) (st st' : CopyState) : Prop where
  map : Memo.Le st.copyMap st'.copyMap
  next : st.store.nextObject ≤ st'.store.nextObject
  frame : ∀ c, c < st.store.nextObject → some c ≠ target →
    st'.store.objects c = st.store.objects c
  fresh : ∀ o c, st.copyMap o = none → st'.copyMap o = some c → st.store.nextObject ≤ c
  finished : ∀ o c, st.copyMap o = none → st'.copyMap o = some c → st'.Finished s o c

section

variable {s : Store} {P : ObjectId → Prop} {target : Option ObjectId} {st st' st'' : CopyState}
  {o c : ObjectId}

theorem Finished.mono (h : st.Finished s o c) (hle : Memo.Le st.copyMap st'.copyMap)
    (hsame : st'.store.objects c = st.store.objects c) : st'.Finished s o c where
  object := by rw [hsame, h.object, object_renamed_stable h.contents hle]
  contents o' ho' := hle.isSome (h.contents o' ho')
  hasData := h.hasData

theorem Step.refl (st : CopyState) : Step s target st st where
  map := Memo.Le.refl _
  next := Nat.le_refl _
  frame _ _ _ := rfl
  fresh o c hnone hsome := by
    rw [hnone] at hsome
    cases hsome
  finished o c hnone hsome := by
    rw [hnone] at hsome
    cases hsome

theorem Step.weaken (h : Step s none st st') : Step s target st st' :=
  { h with frame := fun c hc _ => h.frame c hc (Option.some_ne_none c) }

theorem Step.trans (h : Step s target st st') (h' : Step s target st' st'')
    (hsound : st'.Sound s P) (htarget : ∀ c ∈ target, c < st.store.nextObject) :
    Step s target st st'' where
  map := h.map.trans h'.map
  next := Nat.le_trans h.next h'.next
  frame c hc hne := by rw [h'.frame c (Nat.lt_of_lt_of_le hc h.next) hne, h.frame c hc hne]
  fresh o c hnone hsome := by
    cases hmid : st'.copyMap o with
    | none => exact Nat.le_trans h.next (h'.fresh o c hmid hsome)
    | some c' =>
      obtain rfl : c' = c := Option.some.inj ((h'.map o c' hmid).symm.trans hsome)
      exact h.fresh o c' hnone hmid
  finished o c hnone hsome := by
    cases hmid : st'.copyMap o with
    | none => exact h'.finished o c hmid hsome
    | some c' =>
      obtain rfl : c' = c := Option.some.inj ((h'.map o c' hmid).symm.trans hsome)
      -- The target was there before, and the copy of `o` is newer.
      have hne : some c' ≠ target := by
        rintro rfl
        exact absurd (htarget c' rfl) (Nat.not_lt.mpr (h.fresh o c' hnone hmid))
      exact (h.finished o c' hnone hmid).mono h'.map
        (h'.frame c' (hsound.created o c' hmid).2 hne)

theorem Sound.modify (h : st.Sound s P) (hc : s.nextObject ≤ c) (f : Object → Object) :
    Sound s P { st with store := st.store.modify c f } :=
  { h with
    source := fun o ho => by
      rw [← h.source o ho]
      exact Store.modify_objects_ne _ _ (Nat.ne_of_lt (Nat.lt_of_lt_of_le ho hc)) }

theorem Step.modify (f : Object → Object) :
    Step s (some c) st { st with store := st.store.modify c f } where
  map := Memo.Le.refl _
  next := Nat.le_refl _
  frame c' _ hne := Store.modify_objects_ne _ _ fun heq => hne (congrArg some heq)
  fresh o c' hnone hsome := by
    rw [hnone] at hsome
    cases hsome
  finished o c' hnone hsome := by
    rw [hnone] at hsome
    cases hsome

end

/-! ## Loops -/

/-- The calls in states with at most `k` objects left to copy: they return the copy, or meet an
object without data. -/
def Copies (s : Store) (P : ObjectId → Prop) (k : Nat)
    (copy : CopyState → Entity → Option (Entity × CopyState)) : Prop :=
  ∀ st e, st.Sound s P → (∀ o ∈ e.objects, P o) →
    (Memo.unvisited (Finset.range s.nextObject) st.copyMap).card ≤ k →
      (∃ st', copy st e = some (e.renamed (copyOf st'.copyMap), st') ∧ st'.Sound s P ∧
        Step s none st st' ∧ Known st'.copyMap e) ∨
      copy st e = none ∧ ∃ o, P o ∧ ¬ s.HasData o

section

variable {s : Store} {P : ObjectId → Prop} {k : Nat} {c : ObjectId} {es : List Entity}
  {copy : CopyState → Entity → Option (Entity × CopyState)} (get : Store → Nat → Option Entity)
  (put : Store → Nat → Entity → Option Store) (Shape : List Entity → Object → Prop)

/-- A loop that puts the copies of `es` into `c`, whose shape with some of them is `Shape`. -/
theorem copyEach_copies (hcopy : Copies s P k copy) (hc : s.nextObject ≤ c)
    (hes : ∀ e ∈ es, ∀ o ∈ e.objects, P o)
    (hget : ∀ (st : CopyState) i, st.Sound s P → get st.store i = es[i]?)
    (hput : ∀ (st : CopyState) copies e, st.Sound s P → copies.length < es.length →
      Shape copies (st.store.objects c) → ∃ obj, Shape (copies ++ [e]) obj ∧
        put st.store copies.length e = some (st.store.modify c fun _ => obj)) :
    ∀ (rest before : List Entity) (st : CopyState), es = before ++ rest → st.Sound s P →
      (Memo.unvisited (Finset.range s.nextObject) st.copyMap).card ≤ k →
        c < st.store.nextObject → (∀ e ∈ before, Known st.copyMap e) →
          Shape (before.map (Entity.renamed (copyOf st.copyMap))) (st.store.objects c) →
      (∃ st', copyEach copy get put rest.length before.length st = some st' ∧ st'.Sound s P ∧
        Step s (some c) st st' ∧ (∀ e ∈ es, Known st'.copyMap e) ∧
          Shape (es.map (Entity.renamed (copyOf st'.copyMap))) (st'.store.objects c)) ∨
      copyEach copy get put rest.length before.length st = none ∧ ∃ o, P o ∧ ¬ s.HasData o
  | [], before, st, hall, hsound, _, _, hknown, hshape => by
    rw [List.append_nil] at hall
    subst hall
    exact .inl ⟨st, rfl, hsound, .refl st, hknown, hshape⟩
  | e :: rest, before, st, hall, hsound, hk, hlt, hknown, hshape => by
    have he : e ∈ es := by simp [hall]
    have hread : get st.store before.length = some e := by
      rw [hget st _ hsound, hall, List.getElem?_append_right (Nat.le_refl _), Nat.sub_self]
      rfl
    rcases hcopy st e hsound (hes e he) hk with ⟨st₁, hcopied, hsound₁, hstep, hknown₁⟩ |
      ⟨hnone, hlacks⟩
    · have hframe : st₁.store.objects c = st.store.objects c :=
        hstep.frame c hlt (Option.some_ne_none c)
      have hbefore := map_renamed_stable hknown hstep.map
      obtain ⟨obj, hobj, hstored⟩ := hput st₁ (before.map (Entity.renamed (copyOf st₁.copyMap)))
        (e.renamed (copyOf st₁.copyMap)) hsound₁ (by simp [hall]) (by rwa [hframe, hbefore])
      rw [List.length_map] at hstored
      have hstep₁ : Step s (some c) st { st₁ with store := st₁.store.modify c fun _ => obj } :=
        hstep.weaken.trans (.modify _) hsound₁ (by simpa using hlt)
      have hrest := copyEach_copies hcopy hc hes hget hput rest (before ++ [e])
        { st₁ with store := st₁.store.modify c fun _ => obj } (by rw [hall, List.append_assoc]; rfl)
        (hsound₁.modify hc _) (Nat.le_trans (Memo.unvisited_le hstep.map) hk)
        (Nat.lt_of_lt_of_le hlt hstep.next) ?_ ?_
      · rw [List.length_append, List.length_singleton] at hrest
        simp only [List.length_cons, copyEach, hread, hcopied, hstored]
        rcases hrest with ⟨st', hloop, hsound', hstep', hrest⟩ | hrest
        · exact .inl ⟨st', hloop, hsound',
            hstep₁.trans hstep' (hsound₁.modify hc _) (by simpa using hlt), hrest⟩
        · exact .inr hrest
      · intro e' he'
        rcases List.mem_append.mp he' with he' | he'
        · exact (hknown e' he').mono hstep.map
        · cases List.mem_singleton.mp he'
          exact hknown₁
      · rw [List.map_append, List.map_singleton]
        simpa using hobj
    · simp only [List.length_cons, copyEach, hread, hnone]
      exact .inr ⟨trivial, hlacks⟩

end

/-! ## Objects -/

theorem modify_congr (s : Store) {o : ObjectId} {f g : Object → Object}
    (h : f (s.objects o) = g (s.objects o)) : s.modify o f = s.modify o g := by
  rw [Store.modify, Store.modify, h]

section

variable {s : Store} {P : ObjectId → Prop} {k : Nat} {o c : ObjectId} {st : CopyState}
  {copy : CopyState → Entity → Option (Entity × CopyState)}

theorem Sound.internal (h : st.Sound s P) (ho : o < s.nextObject) :
    st.store.internal o = s.internal o := congrArg Object.internal (h.source o ho)

theorem Sound.cls (h : st.Sound s P) (ho : o < s.nextObject) : st.store.cls o = s.cls o :=
  congrArg Object.cls (h.source o ho)

/-- The data of `o` has been copied to `c`, whose members are not set yet. -/
structure DataCopied (s : Store) (P : ObjectId → Prop) (o c : ObjectId) (st st' : CopyState) :
    Prop where
  sound : st'.Sound s P
  step : Step s (some c) st st'
  known : ∀ e ∈ (s.internal o).elements, Known st'.copyMap e
  object : st'.store.objects c =
    ⟨s.cls o, .empty, (s.internal o).renamed (copyOf st'.copyMap)⟩

theorem arrayCopy_copies {table : List Entity} (hcopy : Copies s P k copy)
    (ho : o < s.nextObject) (hcls : s.cls o = .Array) (hinternal : s.internal o = .array table)
    (helements : ∀ e ∈ table, ∀ o' ∈ e.objects, P o') (hsound : st.Sound s P)
    (hk : (Memo.unvisited (Finset.range s.nextObject) st.copyMap).card ≤ k)
    (hc : s.nextObject ≤ c) (hlt : c < st.store.nextObject)
    (hnew : st.store.objects c = ⟨.Array, .empty, .array []⟩) :
    (∃ st', arrayCopy copy c o st = some st' ∧ DataCopied s P o c st st') ∨
      arrayCopy copy c o st = none ∧ ∃ o, P o ∧ ¬ s.HasData o := by
  have hread : st.store.internal o = .array table := (hsound.internal ho).trans hinternal
  simp only [arrayCopy, hread]
  have hloop := copyEach_copies (fun s i => (s.arrayTable o)[i]?)
    (fun s _ e => some (s.arrayAdd c e)) (fun copies obj => obj = ⟨.Array, .empty, .array copies⟩)
    hcopy hc helements ?_ ?_ table [] st rfl hsound hk hlt nofun hnew
  · rcases hloop with ⟨st', hloop, hsound', hstep, hknown, hshape⟩ | hloop
    · refine .inl ⟨st', hloop, hsound', hstep, ?_, ?_⟩
      · rw [hinternal]
        exact hknown
      · rw [hshape, hcls, hinternal]
        rfl
    · exact .inr hloop
  · intro st i hsound
    rw [Store.arrayTable, hsound.internal ho, hinternal]
  · intro st copies e _ _ hshape
    refine ⟨_, rfl, ?_⟩
    rw [Store.arrayAdd, Store.setInternal]
    refine congrArg some (modify_congr _ ?_)
    rw [Store.arrayTable, Store.internal, hshape]

theorem tupleCopy_copies {table : List Entity} (hcopy : Copies s P k copy)
    (ho : o < s.nextObject) (hcls : s.cls o = .Tuple) (hinternal : s.internal o = .tuple table)
    (helements : ∀ e ∈ table, ∀ o' ∈ e.objects, P o') (hsound : st.Sound s P)
    (hk : (Memo.unvisited (Finset.range s.nextObject) st.copyMap).card ≤ k)
    (hc : s.nextObject ≤ c) (hlt : c < st.store.nextObject)
    (hnew : st.store.objects c = ⟨.Tuple, .empty, .none⟩) :
    (∃ st', tupleCopy copy c o st = some st' ∧ DataCopied s P o c st st') ∨
      tupleCopy copy c o st = none ∧ ∃ o, P o ∧ ¬ s.HasData o := by
  have hread : st.store.internal o = .tuple table := (hsound.internal ho).trans hinternal
  simp only [tupleCopy, hread]
  have hloop := copyEach_copies (fun s i => (s.tupleTable o)[i]?)
    (fun s i e => s.tupleSet c i e)
    (fun copies obj => obj = ⟨.Tuple, .empty,
      .tuple (copies ++ List.replicate (table.length - copies.length) .none)⟩) hcopy hc helements
    ?_ ?_ table [] ⟨st.store.setInternal c (.tuple (List.replicate table.length .none)), st.copyMap⟩
    rfl (hsound.modify hc _) hk hlt nofun ?_
  · rcases hloop with ⟨st', hloop, hsound', hstep, hknown, hshape⟩ | hloop
    · refine .inl ⟨st', hloop, hsound', ?_, ?_, ?_⟩
      · exact (Step.modify _).trans hstep (hsound.modify hc _) (by simpa using hlt)
      · rw [hinternal]
        exact hknown
      · rw [List.length_map, Nat.sub_self, List.replicate_zero, List.append_nil] at hshape
        rw [hshape, hcls, hinternal]
        rfl
    · exact .inr hloop
  · intro st i hsound
    rw [Store.tupleTable, hsound.internal ho, hinternal]
  · intro st copies e _ hshort hshape
    obtain ⟨n, hn⟩ : ∃ n, table.length - copies.length = n + 1 :=
      ⟨table.length - copies.length - 1, by omega⟩
    have htable : st.store.tupleTable c = copies ++ List.replicate (n + 1) .none := by
      rw [Store.tupleTable, Store.internal, hshape, hn]
    refine ⟨⟨.Tuple, .empty, .tuple (copies ++ e :: List.replicate n .none)⟩, ?_, ?_⟩
    · have hleft : table.length - (copies ++ [e]).length = n := by
        rw [List.length_append, List.length_singleton]
        omega
      rw [hleft, List.append_assoc, List.singleton_append]
    · have hin : copies.length < (copies ++ List.replicate (n + 1) Entity.none).length := by simp
      rw [Store.tupleSet, htable, if_pos hin]
      refine congrArg some (modify_congr _ ?_)
      rw [hshape, List.set_append_right _ _ (Nat.le_refl _), Nat.sub_self]
      rfl
  · rw [Store.setInternal, Store.modify_objects_self, hnew]
    rfl

/-- The copy function of the class fills a new object, unless it meets an object without data. -/
theorem copyFn_copies (hcopy : Copies s P k copy) (ho : o < s.nextObject) (hP : P o)
    (hcopyable : s.Copyable o) (hcontents : ∀ o' ∈ s.contents o, P o') (hsound : st.Sound s P)
    (hk : (Memo.unvisited (Finset.range s.nextObject) st.copyMap).card ≤ k)
    (hc : s.nextObject ≤ c) (hlt : c < st.store.nextObject)
    (hnew : st.store.objects c = ⟨s.cls o, .empty, (s.cls o).init⟩) :
    (∃ st', copyFn copy c o st = some st' ∧ DataCopied s P o c st st' ∧ s.HasData o) ∨
      copyFn copy c o st = none ∧ ∃ o, P o ∧ ¬ s.HasData o := by
  have helements : ∀ e ∈ (s.internal o).elements, ∀ o' ∈ e.objects, P o' := fun e he o' ho' =>
    hcontents o' (List.mem_append_right _ (List.mem_flatMap.mpr ⟨e, he, ho'⟩))
  have hread := hsound.internal ho
  rw [copyFn, hsound.cls ho]
  cases hcopyable with
  | plain hplain hinternal =>
    have hdata : s.HasData o := by
      rintro (hcls | hcls) <;>
      · rw [hcls] at hplain
        cases hplain
    have hinit : (s.cls o).init = .none := by
      revert hplain
      cases s.cls o <;> first | exact fun _ => rfl | exact nofun
    have hsame : copyFn copy c o st = some st := by
      rw [copyFn, hsound.cls ho]
      revert hplain
      cases s.cls o <;> first | exact fun _ => rfl | exact nofun
    rw [copyFn, hsound.cls ho] at hsame
    refine .inl ⟨st, hsame, ⟨hsound, .refl st, ?_, ?_⟩, hdata⟩
    · rw [hinternal]
      exact nofun
    · rw [hnew, hinit, hinternal]
      rfl
  | array table hcls hinternal =>
    rw [hinternal] at helements
    rw [hcls] at hnew ⊢
    have hdata : s.HasData o := by
      rintro (h | h) <;>
      · rw [hcls] at h
        cases h
    rcases arrayCopy_copies hcopy ho hcls hinternal helements hsound hk hc hlt hnew with
      ⟨st', hcopied, hdone⟩ | hlacks
    · exact .inl ⟨st', hcopied, hdone, hdata⟩
    · exact .inr hlacks
  | tuple table hcls hinternal =>
    rw [hinternal] at helements
    rw [hcls] at hnew ⊢
    have hdata : s.HasData o := by
      intro _
      rw [hinternal]
      exact Internal.noConfusion
    rcases tupleCopy_copies hcopy ho hcls hinternal helements hsound hk hc hlt hnew with
      ⟨st', hcopied, hdone⟩ | hlacks
    · exact .inl ⟨st', hcopied, hdone, hdata⟩
    · exact .inr hlacks
  | string table hcls hinternal =>
    rw [hcls] at hnew ⊢
    have hdata : s.HasData o := by
      intro _
      rw [hinternal]
      exact Internal.noConfusion
    refine .inl ⟨⟨st.store.setInternal c (.string table), st.copyMap⟩, ?_,
      ⟨hsound.modify hc _, Step.modify _, ?_, ?_⟩, hdata⟩
    · simp only [stringCopy, hread, hinternal]
    · rw [hinternal]
      exact nofun
    · rw [Store.setInternal, Store.modify_objects_self, hnew, hcls, hinternal]
      rfl
  | noData hcls hinternal =>
    have hlacks : ∃ o, P o ∧ ¬ s.HasData o := ⟨o, hP, fun h => h hcls hinternal⟩
    refine .inr ⟨?_, hlacks⟩
    rcases hcls with hcls | hcls
    · simp only [hcls, tupleCopy, hread, hinternal]
    · simp only [hcls, stringCopy, hread, hinternal]

/-- One more member under a new name. -/
theorem entries_insert_next {members : Members} {member : String × Entity}
    {before after : List (String × Entity)} {copies : List Entity} (e : Entity)
    (hnodup : ((before ++ member :: after).map Prod.fst).Nodup) (hlength : before.length = copies.length)
    (hmembers : members.entries = ((before ++ member :: after).map Prod.fst).zip copies) :
    (members.insert (member.1, e)).entries =
      ((before ++ member :: after).map Prod.fst).zip (copies ++ [e]) := by
  have hlength' : (before.map Prod.fst).length = copies.length := by rw [List.length_map, hlength]
  have hold : members.entries = (before.map Prod.fst).zip copies := by
    rw [hmembers, List.map_append, ← List.append_nil copies, List.zip_append hlength',
      List.zip_nil_right, List.append_nil, List.append_nil]
  have hkey : member.1 ∉ members.keys := by
    rw [KeyedList.keys, hold, List.map_fst_zip (Nat.le_of_eq hlength')]
    rw [List.map_append, List.map_cons, List.nodup_append] at hnodup
    exact fun hmem => hnodup.2.2 _ hmem _ List.mem_cons_self rfl
  rw [KeyedList.entries_insert_of_notMem (a := (member.1, e)) hkey, hold, List.map_append,
    List.zip_append hlength', List.map_cons, List.zip_cons_cons, List.zip_nil_right]

/-- The members are copied in order, each under its name. -/
theorem copyMembers_copies {cls : ClassId} {internal : Internal} (hcopy : Copies s P k copy)
    (ho : o < s.nextObject) (hcontents : ∀ o' ∈ s.contents o, P o') (hsound : st.Sound s P)
    (hk : (Memo.unvisited (Finset.range s.nextObject) st.copyMap).card ≤ k)
    (hc : s.nextObject ≤ c) (hlt : c < st.store.nextObject)
    (hnew : st.store.objects c = ⟨cls, .empty, internal⟩) :
    (∃ st', copyMembers copy c o st = some st' ∧ st'.Sound s P ∧ Step s (some c) st st' ∧
      (∀ member ∈ (s.objects o).members.entries, Known st'.copyMap member.2) ∧
        (st'.store.objects c).cls = cls ∧ (st'.store.objects c).internal = internal ∧
          (st'.store.objects c).members.entries = (s.objects o).members.entries.map
            fun member => (member.1, member.2.renamed (copyOf st'.copyMap))) ∨
      copyMembers copy c o st = none ∧ ∃ o, P o ∧ ¬ s.HasData o := by
  have hlength : (st.store.objects o).members.entries.length =
      ((s.objects o).members.entries.map Prod.snd).length := by
    rw [hsound.source o ho, List.length_map]
  have helements : ∀ e ∈ (s.objects o).members.entries.map Prod.snd, ∀ o' ∈ e.objects, P o' := by
    intro e he o' ho'
    obtain ⟨member, hmember, rfl⟩ := List.mem_map.mp he
    exact hcontents o' (List.mem_append_left _ (List.mem_flatMap.mpr ⟨member, hmember, ho'⟩))
  have hloop := copyEach_copies
    (fun s i => (s.objects o).members.entries[i]?.map Prod.snd)
    (fun s i e => (s.objects o).members.entries[i]?.map fun member => s.setMember c member.1 e)
    (fun copies obj => obj.cls = cls ∧ obj.internal = internal ∧
      obj.members.entries = ((s.objects o).members.entries.map Prod.fst).zip copies)
    hcopy hc helements ?_ ?_ ((s.objects o).members.entries.map Prod.snd) [] st rfl hsound hk hlt
    nofun ?_
  · rw [copyMembers, hlength]
    rcases hloop with ⟨st', hloop, hsound', hstep, hknown, hcls, hinternal, hmembers⟩ | hloop
    · refine .inl ⟨st', hloop, hsound', hstep, ?_, hcls, hinternal, ?_⟩
      · exact fun member hmember => hknown member.2 (List.mem_map_of_mem hmember)
      · rw [hmembers, List.map_map, List.zip_map']
        rfl
    · exact .inr hloop
  · intro st i hsound
    rw [hsound.source o ho, List.getElem?_map]
  · rintro st copies e hsound hshort ⟨hcls, hinternal, hmembers⟩
    rw [List.length_map] at hshort
    have hread : (st.store.objects o).members.entries[copies.length]? =
        some ((s.objects o).members.entries[copies.length]) := by
      rw [hsound.source o ho]
      exact List.getElem?_eq_getElem hshort
    have hsplit := (List.take_append_drop copies.length (s.objects o).members.entries).symm
    rw [List.drop_eq_getElem_cons hshort] at hsplit
    have hlength : ((s.objects o).members.entries.take copies.length).length = copies.length :=
      List.length_take_of_le (Nat.le_of_lt hshort)
    have hnodup := (s.objects o).members.nodup
    rw [hsplit] at hnodup hmembers
    refine ⟨⟨(st.store.objects c).cls, (st.store.objects c).members.insert
      (((s.objects o).members.entries[copies.length]).1, e), (st.store.objects c).internal⟩,
      ⟨hcls, hinternal, ?_⟩, ?_⟩
    · have hnext := entries_insert_next e hnodup hlength hmembers
      rw [← hsplit] at hnext
      exact hnext
    · rw [hread, Option.map_some, Store.setMember]
      exact congrArg some (modify_congr _ rfl)
  · rw [hnew]
    exact ⟨rfl, rfl, List.zip_nil_right.symm⟩

end

/-- A new object is in the map for `o`. -/
def enter (st : CopyState) (o : ObjectId) : CopyState :=
  ⟨(st.store.heapNew (st.store.cls o)).2,
    Function.update st.copyMap o (some st.store.nextObject)⟩

section

variable {s : Store} {P : ObjectId → Prop} {k : Nat} {o : ObjectId} {st st' : CopyState}
  {e : Entity}

theorem enter_objects_ne {c : ObjectId} (hc : c ≠ st.store.nextObject) :
    (st.enter o).store.objects c = st.store.objects c :=
  Function.update_of_ne hc _ _

theorem enter_map_self : (st.enter o).copyMap o = some st.store.nextObject :=
  Function.update_self _ _ _

theorem enter_map_ne {o' : ObjectId} (h : o' ≠ o) : (st.enter o).copyMap o' = st.copyMap o' :=
  Function.update_of_ne h _ _

theorem Sound.enter (h : st.Sound s P) (hP : P o) (hnone : st.copyMap o = none) :
    (st.enter o).Sound s P where
  source o' ho' := by
    rw [enter_objects_ne (Nat.ne_of_lt (Nat.lt_of_lt_of_le ho' h.newer)), h.source o' ho']
  newer := Nat.le_succ_of_le h.newer
  reached o' c hc := by
    by_cases heq : o' = o
    · rw [heq]
      exact hP
    · rw [enter_map_ne heq] at hc
      exact h.reached o' c hc
  created o' c hc := by
    by_cases heq : o' = o
    · rw [heq, enter_map_self] at hc
      cases hc
      exact ⟨h.newer, Nat.lt_succ_self _⟩
    · rw [enter_map_ne heq] at hc
      exact ⟨(h.created o' c hc).1, Nat.lt_succ_of_lt (h.created o' c hc).2⟩
  injective o₁ o₂ c h₁ h₂ := by
    by_cases heq₁ : o₁ = o
    · by_cases heq₂ : o₂ = o
      · rw [heq₁, heq₂]
      · rw [heq₁, enter_map_self] at h₁
        rw [enter_map_ne heq₂] at h₂
        cases h₁
        exact absurd (h.created o₂ _ h₂).2 (Nat.lt_irrefl _)
    · rw [enter_map_ne heq₁] at h₁
      by_cases heq₂ : o₂ = o
      · rw [heq₂, enter_map_self] at h₂
        cases h₂
        exact absurd (h.created o₁ _ h₁).2 (Nat.lt_irrefl _)
      · rw [enter_map_ne heq₂] at h₂
        exact h.injective o₁ o₂ c h₁ h₂
  onto c hle hlt := by
    rcases Nat.lt_succ_iff_lt_or_eq.mp hlt with hlt | rfl
    · obtain ⟨o', ho'⟩ := h.onto c hle hlt
      have hne : o' ≠ o := by
        rintro rfl
        rw [hnone] at ho'
        cases ho'
      exact ⟨o', by rw [enter_map_ne hne, ho']⟩
    · exact ⟨o, enter_map_self⟩
  tables := h.tables

/-- Once the new object for `o` is finished, only new objects have changed. -/
theorem Step.of_enter (hnone : st.copyMap o = none)
    (h : Step s (some st.store.nextObject) (st.enter o) st')
    (hdone : st'.Finished s o st.store.nextObject) : Step s none st st' where
  map := (Memo.le_update hnone).trans h.map
  next := Nat.le_trans (Nat.le_succ _) h.next
  frame c hc _ := by
    have hne : c ≠ st.store.nextObject := Nat.ne_of_lt hc
    rw [h.frame c (Nat.lt_succ_of_lt hc) fun heq => hne (Option.some.inj heq), enter_objects_ne hne]
  fresh o' c hnone' hsome := by
    by_cases heq : o' = o
    · rw [heq, h.map o _ enter_map_self] at hsome
      cases hsome
      exact Nat.le_refl _
    · have hbefore : (st.enter o).copyMap o' = none := by rw [enter_map_ne heq, hnone']
      exact Nat.le_of_succ_le (h.fresh o' c hbefore hsome)
  finished o' c hnone' hsome := by
    by_cases heq : o' = o
    · rw [heq, h.map o _ enter_map_self] at hsome
      cases hsome
      rw [heq]
      exact hdone
    · exact h.finished o' c (by rw [enter_map_ne heq, hnone']) hsome

theorem known_obj {m : ObjectId → Option ObjectId} {o c : ObjectId} (h : m o = some c) :
    Known m (.obj o) := by
  intro o' ho'
  cases List.mem_singleton.mp ho'
  rw [h]
  rfl

/-- An entity that is no object, or an object that is in the map. -/
theorem entityCopy_known {n : Nat} {e : Entity} (hsound : st.Sound s P)
    (hmapped : ∀ o, e = .obj o → st.copyMap o ≠ none) :
    ∃ st', entityCopy (n + 1) st e = some (e.renamed (copyOf st'.copyMap), st') ∧
      st'.Sound s P ∧ Step s none st st' ∧ Known st'.copyMap e := by
  refine ⟨st, ?_, hsound, .refl st, ?_⟩
  · cases e with
    | none => rfl
    | prim p => rfl
    | obj o =>
      obtain ⟨c, hmap⟩ := Option.ne_none_iff_exists'.mp (hmapped o rfl)
      rw [entityCopy, hmap, Entity.renamed, copyOf, hmap]
      rfl
  · cases e with
    | none => exact List.forall_mem_nil _
    | prim p => exact List.forall_mem_nil _
    | obj o =>
      obtain ⟨c, hmap⟩ := Option.ne_none_iff_exists'.mp (hmapped o rfl)
      exact known_obj hmap

/-- An object that is not in the map yet. -/
theorem entityCopy_object (hcopy : Copies s P k (entityCopy (k + 1))) (ho : o < s.nextObject)
    (hP : P o) (hcopyable : s.Copyable o) (hcontents : ∀ o' ∈ s.contents o, P o')
    (hsound : st.Sound s P) (hnone : st.copyMap o = none)
    (hk : (Memo.unvisited (Finset.range s.nextObject) st.copyMap).card ≤ k + 1) :
    (∃ st', entityCopy (k + 2) st (.obj o) = some (.obj st.store.nextObject, st') ∧
      st'.Sound s P ∧ Step s none st st' ∧ st'.copyMap o = some st.store.nextObject) ∨
      entityCopy (k + 2) st (.obj o) = none ∧ ∃ o, P o ∧ ¬ s.HasData o := by
  have hentered := hsound.enter hP hnone
  have hfewer : (Memo.unvisited (Finset.range s.nextObject) (st.enter o).copyMap).card ≤ k :=
    Nat.le_of_lt_succ (Nat.lt_of_lt_of_le
      (Memo.unvisited_update (Finset.mem_range.mpr ho) hnone) hk)
  have hnew : (st.enter o).store.objects st.store.nextObject =
      ⟨s.cls o, .empty, (s.cls o).init⟩ := by
    rw [← hsound.cls ho]
    exact Function.update_self _ _ _
  have hrun : entityCopy (k + 2) st (.obj o) =
      (copyFn (entityCopy (k + 1)) st.store.nextObject o (st.enter o)).bind fun st₁ =>
        (copyMembers (entityCopy (k + 1)) st.store.nextObject o st₁).map fun st₂ =>
          (.obj st.store.nextObject, st₂) := by
    rw [entityCopy, hnone]
    rfl
  rw [hrun]
  rcases copyFn_copies hcopy ho hP hcopyable hcontents hentered hfewer hsound.newer
    (Nat.lt_succ_self _) hnew with ⟨st₁, hdata, hdone, hhas⟩ | ⟨hnone', hlacks⟩
  · rw [hdata, Option.bind_some]
    rcases copyMembers_copies hcopy ho hcontents hdone.sound
      (Nat.le_trans (Memo.unvisited_le hdone.step.map) hfewer) hsound.newer
      (Nat.lt_of_lt_of_le (Nat.lt_succ_self _) hdone.step.next) hdone.object with
      ⟨st₂, hmembers, hsound₂, hstep₂, hknown, hcls, hinternal, hentries⟩ | ⟨hnone', hlacks⟩
    · have hstep : Step s (some st.store.nextObject) (st.enter o) st₂ := by
        refine hdone.step.trans hstep₂ hdone.sound fun c hc => ?_
        cases hc
        exact Nat.lt_succ_self _
      have hfinished : st₂.Finished s o st.store.nextObject := by
        refine ⟨object_renamed_eq hcls hentries ?_, ?_, hhas⟩
        · rw [hinternal]
          exact (internal_renamed_stable hdone.known hstep₂.map).symm
        · exact contents_known hknown fun e he => (hdone.known e he).mono hstep₂.map
      rw [hmembers]
      exact .inl ⟨st₂, rfl, hsound₂, .of_enter hnone hstep hfinished,
        hstep.map o _ enter_map_self⟩
    · rw [hnone']
      exact .inr ⟨rfl, hlacks⟩
  · rw [hnone']
    exact .inr ⟨rfl, hlacks⟩

end

/-- What `entity_copy` does to every entity of a graph that can be copied. -/
theorem entityCopy_copies {s : Store} {P : ObjectId → Prop} (hexist : ∀ o, P o → o < s.nextObject)
    (hcopyable : ∀ o, P o → s.Copyable o) (hcontents : ∀ o, P o → ∀ o' ∈ s.contents o, P o') :
    ∀ k, Copies s P k (entityCopy (k + 1)) := by
  intro k
  induction k with
  | zero =>
    -- no object of the graph is left to be entered
    intro st e hsound he hk
    refine .inl (entityCopy_known hsound ?_)
    rintro o rfl hmap
    have hmem : o ∈ Memo.unvisited (Finset.range s.nextObject) st.copyMap :=
      Memo.mem_unvisited.mpr ⟨Finset.mem_range.mpr (hexist o (he o List.mem_cons_self)), hmap⟩
    exact absurd (Finset.card_pos.mpr ⟨o, hmem⟩) (Nat.not_lt.mpr hk)
  | succ k ih =>
    intro st e hsound he hk
    by_cases hmapped : ∀ o, e = .obj o → st.copyMap o ≠ none
    · exact .inl (entityCopy_known hsound hmapped)
    · push Not at hmapped
      obtain ⟨o, rfl, hmap⟩ := hmapped
      have hP := he o List.mem_cons_self
      rcases entityCopy_object ih (hexist o hP) hP (hcopyable o hP) (hcontents o hP) hsound hmap
        hk with ⟨st', hrun, hsound', hstep, hknown⟩ | hlacks
      · refine .inl ⟨st', ?_, hsound', hstep, ?_⟩
        · rw [hrun, Entity.renamed, copyOf, hknown]
          rfl
        · exact known_obj hknown
      · exact .inr hlacks

/-! ## Depth -/

section

variable {copy copy' : CopyState → Entity → Option (Entity × CopyState)} {target src : ObjectId}
  (hcopy : ∀ st e r, copy st e = some r → copy' st e = some r)

include hcopy

theorem copyEach_mono {get : Store → Nat → Option Entity}
    {put : Store → Nat → Entity → Option Store} : ∀ (n i : Nat) {st st' : CopyState},
    copyEach copy get put n i st = some st' → copyEach copy' get put n i st = some st'
  | 0, _, _, _, h => h
  | n + 1, i, st, st', h => by
    rw [copyEach] at h ⊢
    cases hget : get st.store i with
    | none =>
      rw [hget] at h
      cases h
    | some e =>
      simp only [hget] at h ⊢
      cases hcopied : copy st e with
      | none =>
        rw [hcopied] at h
        cases h
      | some r =>
        obtain ⟨member, st₁⟩ := r
        simp only [hcopied, hcopy st e _ hcopied] at h ⊢
        cases hput : put st₁.store i member with
        | none =>
          rw [hput] at h
          cases h
        | some store =>
          simp only [hput] at h ⊢
          exact copyEach_mono n (i + 1) h

theorem copyFn_mono {st st' : CopyState} (h : copyFn copy target src st = some st') :
    copyFn copy' target src st = some st' := by
  unfold copyFn at h ⊢
  split at h
  · unfold arrayCopy at h ⊢
    split at h
    · exact copyEach_mono hcopy _ _ h
    · cases h
  · unfold tupleCopy at h ⊢
    split at h
    · exact copyEach_mono hcopy _ _ h
    · cases h
  · exact h
  · unfold functionRefCopy at h ⊢
    split at h
    · cases hcopied : copy st (.obj _) with
      | none =>
        rw [hcopied] at h
        cases h
      | some r =>
        rw [hcopied] at h
        rw [hcopy _ _ _ hcopied]
        exact h
    · cases h
  · exact h

end

theorem entityCopy_succ : ∀ (n : Nat) {st : CopyState} {e : Entity} {r : Entity × CopyState},
    entityCopy n st e = some r → entityCopy (n + 1) st e = some r := by
  intro n
  induction n with
  | zero =>
    intro st e r h
    cases e with
    | obj o => cases h
    | _ => exact h
  | succ n ih =>
    intro st e r h
    cases e with
    | obj o =>
      rw [entityCopy] at h ⊢
      cases hmap : st.copyMap o with
      | some c =>
        rw [hmap] at h
        exact h
      | none =>
        simp only [hmap] at h ⊢
        obtain ⟨st₁, hfn, h⟩ := Option.bind_eq_some_iff.mp h
        obtain ⟨st₂, hmembers, rfl⟩ := Option.map_eq_some_iff.mp h
        rw [copyFn_mono (fun st e r => ih) hfn, Option.bind_some]
        rw [copyMembers] at hmembers ⊢
        rw [copyEach_mono (fun st e r => ih) _ _ hmembers, Option.map_some]
    | _ => exact h

theorem entityCopy_mono {n m : Nat} (hle : n ≤ m) {st : CopyState} {e : Entity}
    {r : Entity × CopyState} (h : entityCopy n st e = some r) : entityCopy m st e = some r := by
  induction hle with
  | refl => exact h
  | step _ ih => exact entityCopy_succ _ ih

end CopyState

/-! ## Whole copies -/

section

open CopyState

variable {s : Store} {e : Entity} {o o' : ObjectId} {st : CopyState}

theorem Store.Reaches.contents (h : s.Reaches e o) (ho' : o' ∈ s.contents o) : s.Reaches e o' :=
  .edge h (List.count_pos_iff.mpr ho')

/-- After a copy from the empty map every object that is reached has its copy. -/
theorem finished_of_reaches (hstep : Step s none ⟨s, fun _ => none⟩ st)
    (hknown : Known st.copyMap e) (ho : s.Reaches e o) :
    ∃ c, st.copyMap o = some c ∧ st.Finished s o c := by
  have hsome : (st.copyMap o).isSome = true := by
    refine ho.mem (S := fun o => (st.copyMap o).isSome = true) (fun a ha => hknown a ha)
      fun a b ha hab => ?_
    obtain ⟨c, hc⟩ := Option.isSome_iff_exists.mp ha
    exact (hstep.finished a c rfl hc).contents b (List.count_pos_iff.mp hab)
  obtain ⟨c, hc⟩ := Option.isSome_iff_exists.mp hsome
  exact ⟨c, hc, hstep.finished o c rfl hc⟩

theorem isomorphicCopy_of_step (hsound : st.Sound s (s.Reaches e))
    (hstep : Step s none ⟨s, fun _ => none⟩ st) (hknown : Known st.copyMap e) :
    IsomorphicCopy s st.store e (e.renamed (copyOf st.copyMap)) (copyOf st.copyMap) := by
  have hcopy : ∀ {o c}, st.copyMap o = some c → copyOf st.copyMap o = c := by
    intro o c hc
    rw [copyOf, hc, Option.getD_some]
  refine ⟨rfl, ?_, ?_, ?_, hsound.source, hsound.tables⟩
  · intro o ho
    obtain ⟨c, hc, hfinished⟩ := finished_of_reaches hstep hknown ho
    rw [hcopy hc, hfinished.object]
  · intro o o' ho ho'
    obtain ⟨c, hc, -⟩ := finished_of_reaches hstep hknown ho
    obtain ⟨c', hc', -⟩ := finished_of_reaches hstep hknown ho'
    refine ⟨fun heq => ?_, congrArg _⟩
    rw [hcopy hc, hcopy hc'] at heq
    exact hsound.injective o o' c hc (heq ▸ hc')
  · intro c
    constructor
    · rintro ⟨hle, hlt⟩
      obtain ⟨o, ho⟩ := hsound.onto c hle hlt
      exact ⟨o, hsound.reached o c ho, hcopy ho⟩
    · rintro ⟨o, ho, rfl⟩
      obtain ⟨c, hc, -⟩ := finished_of_reaches hstep hknown ho
      rw [hcopy hc]
      exact hsound.created o c hc

/-- Copying a graph of plain objects, Arrays, Tuples and Strings ends with an isomorphic copy exactly
when every Tuple and String in it has data. -/
theorem copiesDeeply_iff_hasData (h : s.CopyableGraph e) :
    CopiesDeeply s e ↔ ∀ o, s.Reaches e o → s.HasData o := by
  have hsound : (CopyState.mk s fun _ => none).Sound s (s.Reaches e) :=
    ⟨fun _ _ => rfl, Nat.le_refl _, nofun, nofun, nofun,
      fun c hle hlt => absurd hlt (Nat.not_lt.mpr hle), rfl, rfl, rfl, rfl⟩
  have hfew : (Memo.unvisited (Finset.range s.nextObject)
      (fun _ : ObjectId => (none : Option ObjectId))).card ≤ s.nextObject :=
    Nat.le_trans (Finset.card_filter_le _ _) (Nat.le_of_eq (Finset.card_range _))
  have hruns : ∀ k, s.nextObject ≤ k → _ := fun k hk =>
    entityCopy_copies h.exist h.copyable (fun _ ho _ ho' => ho.contents ho') k _ e hsound
      (fun o ho => .root ho) (Nat.le_trans hfew hk)
  constructor
  · rintro ⟨e', st, f, ⟨n, hn⟩, -⟩ o ho
    rcases hruns (max n s.nextObject) (Nat.le_max_right _ _) with
      ⟨st', -, -, hstep, hknown⟩ | ⟨hnone, -⟩
    · obtain ⟨c, -, hfinished⟩ := finished_of_reaches hstep hknown ho
      exact hfinished.hasData
    · have hsome := hn (max n s.nextObject + 1) (Nat.le_succ_of_le (Nat.le_max_left _ _))
      rw [hnone] at hsome
      cases hsome
  · intro hdata
    rcases hruns s.nextObject (Nat.le_refl _) with ⟨st', hrun, hsound', hstep, hknown⟩ |
      ⟨-, o, ho, hlacks⟩
    · exact ⟨_, st', copyOf st'.copyMap, ⟨_, fun m hm => entityCopy_mono hm hrun⟩,
        isomorphicCopy_of_step hsound' hstep hknown⟩
    · exact absurd (hdata o ho) hlacks

end

/-- An Array with an object in it twice, which refers to the Array. -/
def sharedStore : Store :=
  (codeWorld [] (fun o => if o = 1 then ⟨.Array, .empty, .array [.obj 2, .obj 2]⟩
    else ⟨.user 0, ⟨[("list", .obj 1)], List.nodup_singleton _⟩, .none⟩) .none []).store

theorem reaches_sharedStore {o : ObjectId} (h : sharedStore.Reaches (.obj 1) o) :
    o = 1 ∨ o = 2 := by
  refine h.mem (S := fun o => o = 1 ∨ o = 2) (fun a ha => .inl (List.mem_singleton.mp ha)) ?_
  rintro a b (rfl | rfl) hb
  · have hmem : b ∈ [2, 2] := List.count_pos_iff.mp hb
    simp only [List.mem_cons, List.not_mem_nil, or_false, or_self] at hmem
    exact .inr hmem
  · have hmem : b ∈ [1] := List.count_pos_iff.mp hb
    exact .inl (List.mem_singleton.mp hmem)

theorem copiesDeeply_shared : CopiesDeeply sharedStore (.obj 1) := by
  refine (copiesDeeply_iff_hasData ⟨fun o ho => ?_, fun o ho => ?_⟩).mpr fun o ho => ?_
  · rcases reaches_sharedStore ho with rfl | rfl <;> decide
  · rcases reaches_sharedStore ho with rfl | rfl
    · exact .array [.obj 2, .obj 2] rfl rfl
    · exact .plain rfl rfl
  · rcases reaches_sharedStore ho with rfl | rfl <;> exact nofun

/-- An Array with what `String()` gives. -/
def noDataStore : Store :=
  (codeWorld [] (fun o => if o = 1 then ⟨.Array, .empty, .array [.obj 2]⟩
    else ⟨.String, .empty, .none⟩) .none []).store

/-- `string_copy` reads the bytes of a String that has none. -/
theorem not_copiesDeeply : ¬ ∀ (s : Store) (e : Entity), s.CopyableGraph e → CopiesDeeply s e := by
  intro hall
  have hreaches : ∀ o, noDataStore.Reaches (.obj 1) o → o = 1 ∨ o = 2 := by
    intro o ho
    refine ho.mem (S := fun o => o = 1 ∨ o = 2) (fun a ha => .inl (List.mem_singleton.mp ha)) ?_
    rintro a b (rfl | rfl) hb
    · have hmem : b ∈ [2] := List.count_pos_iff.mp hb
      exact .inr (List.mem_singleton.mp hmem)
    · have hmem : b ∈ [] := List.count_pos_iff.mp hb
      cases hmem
  obtain ⟨e', st, f, ⟨n, hn⟩, -⟩ := hall noDataStore (.obj 1) ⟨fun o ho => by
    rcases hreaches o ho with rfl | rfl <;> decide, fun o ho => by
    rcases hreaches o ho with rfl | rfl
    · exact .array [.obj 2] rfl rfl
    · exact .noData (.inr rfl) rfl⟩
  have hnone : CopyState.entityCopy (n + 2) ⟨noDataStore, fun _ => none⟩ (.obj 1) = none := rfl
  have hsome := hn (n + 2) (Nat.le_add_right n 2)
  rw [hnone] at hsome
  cases hsome

end JeffVm
