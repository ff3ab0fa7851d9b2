import JeffVm.IteratorConstructors
import JeffVm.Lib.Cursors

/-!
# What iterators enumerate

Iterators of arrays, tuples and maps run in any order, between other code that leaves them and
what they iterate over alone. Each of them stands at its own place in its container.
-/

set_option autoImplicit false

namespace JeffVm

namespace Iterators

open Cursors

/-! ## Items -/

/-- The values of `next`, where `value m k` is `m[k]`. -/
def items {L : Library} (value : ObjectId → Entity → Entity) (x : ObjectId) :
    Contents L → List (Entity × Entity)
  | .indexed table => table.zipIdx.map fun (e, i) => (.int i, e)
  | .keyed _ table _ => table.map fun k => (k, value x k)

theorem length_items {L : Library} (value : ObjectId → Entity → Entity) (x : ObjectId)
    (given : Contents L) :
    (items value x given).length = given.table.length := by
  cases given with
  | indexed table => simp [items, Contents.table]
  | keyed keys table support => simp [items, Contents.table]

/-! ## Runs -/

/-- The process with the iterators that `iter` has made, in order. -/
structure State where
  heap : Heap
  iterators : List ObjectId

/-- A call of `iter`, `has_next` or `next` that returns, from any context, or other code. -/
inductive Step (L : Library) (mapIndex : MapIndex) (xs : ObjectId → Option (Contents L)) :
    State → Option (Cursors.Event ObjectId (Entity × Entity)) → State → Prop where
  | opened {h h' : Heap} {its : List ObjectId} {x it : ObjectId} (hx : (xs x).isSome)
      (hiter : iter L h x = some (it, h')) :
      Step L mapIndex xs ⟨h, its⟩ (some (.opened x)) ⟨h', its ++ [it]⟩
  | asked {h h' : Heap} {its : List ObjectId} {j : Nat} {it : ObjectId} {caller : ContextId}
      {e : Entity} (hit : its[j]? = some it) (hask : hasNext L mapIndex h caller it = some (e, h')) :
      Step L mapIndex xs ⟨h, its⟩ (some (.asked j (!e.isNone))) ⟨h', its⟩
  | gave {h h' : Heap} {its : List ObjectId} {j : Nat} {it : ObjectId} {caller : ContextId}
      {e : Entity} {k v : Entity} (hit : its[j]? = some it)
      (hnext : next L mapIndex h caller it = some (e, h')) (hpair : tupleOf h'.store e = some [k, v]) :
      Step L mapIndex xs ⟨h, its⟩ (some (.gave j (k, v))) ⟨h', its⟩
  | other {h h' : Heap} {its : List ObjectId} (hl : Leaves L xs (fun _ => False) h h') :
      Step L mapIndex xs ⟨h, its⟩ none ⟨h', its⟩

/-- What an iterator over `x` is to give. -/
def itemsOf {L : Library} (xs : ObjectId → Option (Contents L)) (value : ObjectId → Entity → Entity) (x : ObjectId) :
    List (Entity × Entity) :=
  match xs x with
  | some given => items value x given
  | none => []

/-- `it` is an iterator over `x` that has given `count` items; `root` has its counters. -/
inductive Tracks (L : Library) (xs : ObjectId → Option (Contents L)) (h : Heap) :
    ObjectId → ObjectId → ObjectId → Nat → Prop where
  | indexed {it x : ObjectId} {table : List Entity} {count : Nat} (hx : xs x = some (.indexed table))
      (hcount : count ≤ table.length)
      (hcur : IndexCursor L h.store.nextObject h it x table.length count) :
      Tracks L xs h it it x count
  | keyed {it root x keys : ObjectId} {table : List Entity} {support : Support L} {count : Nat}
      (hx : xs x = some (.keyed keys table support)) (hcount : count ≤ table.length)
      (hcur : KeyedCursor L h.store.nextObject h it root x keys table.length count) :
      Tracks L xs h it root x count

structure Tracked where
  object : ObjectId
  root : ObjectId
  cursor : Cursor ObjectId

/-- The iterators stand where the cursors do, and no two of them share their counters. -/
structure Represents (L : Library) (xs : ObjectId → Option (Contents L)) (s : State)
    (ts : List Tracked) : Prop where
  loaded : Loaded L s.heap.store
  contents : ∀ x given, xs x = some given → Holds L s.heap x given
  iterators : s.iterators = ts.map Tracked.object
  tracked : ∀ (j : Nat) (t : Tracked), ts[j]? = some t →
    Tracks L xs s.heap t.object t.root t.cursor.source t.cursor.count
  roots : ∀ (j k : Nat) (t u : Tracked), ts[j]? = some t → ts[k]? = some u → t.root = u.root → j = k

section Simulation

variable {L : Library} {xs : ObjectId → Option (Contents L)} {p : ObjectId → Prop}
variable {h h' : Heap} {it root x : ObjectId} {count : Nat} {s s' : State} {ts : List Tracked}
variable {mapIndex : MapIndex} {value : ObjectId → Entity → Entity}

theorem Tracks.root_spec (ht : Tracks L xs h it root x count) :
    root < h.store.nextObject ∧ h.store.cls root = .user L.indexIterator := by
  cases ht with
  | indexed _ _ hcur => exact ⟨hcur.bound, hcur.cls⟩
  | keyed _ _ hcur => exact ⟨hcur.root.bound, hcur.root.cls⟩

/-- No iterator is the counters of another one. -/
theorem Tracks.ne_root (ht : Tracks L xs h it root x count) (hL : L.Proper) {root' : ObjectId}
    (hcls : h.store.cls root' = .user L.indexIterator) (hne : root ≠ root') : it ≠ root' := by
  cases ht with
  | indexed _ _ hcur => exact hne
  | keyed _ _ hcur =>
    rintro rfl
    exact hL.iterators (ClassId.user.inj (hcls.symm.trans hcur.cls))

theorem Tracks.leaves (ht : Tracks L xs h it root x count) (hl : Leaves L xs p h h')
    (hp : ∀ o < h.store.nextObject, p o → L.IsIterator (h.store.cls o)) (hit : ¬ p it)
    (hroot : ¬ p root) : Tracks L xs h' it root x count := by
  cases ht with
  | indexed hx hcount hcur =>
    exact .indexed hx hcount ((hcur.leaves hl hp hit).mono hl.nextObject (Nat.le_refl _))
  | keyed hx hcount hcur =>
    exact .keyed hx hcount ((hcur.leaves hl hp hit hroot).mono hl.nextObject (Nat.le_refl _))

/-- `iter` makes an iterator at the start. -/
theorem iter_spec {given : Contents L} (hL : L.Proper) (hloaded : Loaded L h.store)
    (hx : xs x = some given) (hholds : Holds L h x given) :
    ∃ it root h', iter L h x = some (it, h') ∧ h.store.nextObject ≤ root ∧
      (∀ p, Leaves L xs p h h') ∧ Tracks L xs h' it root x 0 := by
  cases given with
  | indexed table =>
    obtain ⟨ht⟩ := hholds
    rcases ht.kind with ⟨hcls, -⟩ | ⟨hcls, -⟩
    · obtain ⟨it, h', hiter, hle, hl, hcur⟩ := arrayIter_spec xs hL hloaded ht hcls
      refine ⟨it, it, h', ?_, hle, hl, .indexed hx (Nat.zero_le _) hcur⟩
      simp only [iter, hcls, hiter]
    · obtain ⟨it, h', hiter, hle, hl, hcur⟩ := tupleIter_spec xs hL hloaded ht
      refine ⟨it, it, h', ?_, hle, hl, .indexed hx (Nat.zero_le _) hcur⟩
      simp only [iter, hcls, hiter]
  | keyed keys table support =>
    have hcls : h.store.cls x = .user L.map := by
      obtain _ | ⟨-, hcls, -, -, -, -⟩ := hholds
      exact hcls
    obtain ⟨it, root, h', hiter, -, hle, hl, hcur⟩ := mapIter_spec xs hL hloaded hholds
    refine ⟨it, root, h', ?_, hle, hl, .keyed hx (Nat.zero_le _) hcur⟩
    simp only [iter, hcls, if_true, hiter]

theorem Tracks.hasNext_spec {given : Contents L} (ht : Tracks L xs h it root x count)
    (mapIndex : MapIndex) (hL : L.Proper) (hloaded : Loaded L h.store) (hx : xs x = some given)
    (caller : ContextId) :
    ∃ h', hasNext L mapIndex h caller it =
        some (if (count : Int) - 1 < wrap32 (wrap32 given.table.length - 1) then .int 1 else .none,
          h') ∧
      ∀ p, Leaves L xs p h h' := by
  cases ht with
  | indexed hx' _ hcur =>
    cases hx.symm.trans hx'
    exact hcur.hasNext_spec mapIndex hL hloaded hcur.isIterator.ne_class hcur.hasNextField caller
  | keyed hx' _ hcur =>
    cases hx.symm.trans hx'
    exact hcur.root.hasNext_spec mapIndex hL hloaded hcur.isIterator.ne_class hcur.hasNextField caller

theorem getElem_indexed (value : ObjectId → Entity → Entity) (x : ObjectId) (table : List Entity)
    (i : Nat) :
    (items value x (.indexed table : Contents L))[i]? = table[i]?.map fun e => (.int i, e) := by
  rw [items, List.getElem?_map, List.getElem?_zipIdx, Option.map_map, Nat.zero_add]
  rfl

theorem getElem_keyed (value : ObjectId → Entity → Entity) (x keys : ObjectId)
    (table : List Entity) (support : Support L) (i : Nat) :
    (items value x (.keyed keys table support))[i]? = table[i]?.map fun k => (k, value x k) := by
  rw [items, List.getElem?_map]

theorem Tracks.next_spec {given : Contents L} {v : Entity × Entity}
    (ht : Tracks L xs h it root x count) (hL : L.Proper) (hloaded : Loaded L h.store)
    (hreads : Reads L xs mapIndex value) (hx : xs x = some given) (hholds : Holds L h x given)
    (hfits : given.table.length < 2 ^ 31) (hv : (items value x given)[count]? = some v)
    (caller : ContextId) :
    ∃ o h', next L mapIndex h caller it = some (.obj o, h') ∧
      tupleOf h'.store (.obj o) = some [v.1, v.2] ∧ Leaves L xs (fun o => o = root) h h' ∧
      Tracks L xs h' it root x (count + 1) := by
  have hlt : count < (items value x given).length := (List.getElem?_eq_some_iff.mp hv).1
  rw [length_items] at hlt
  have hcount : count < 2 ^ 31 := Nat.lt_trans hlt hfits
  cases ht with
  | indexed hx' _ hcur =>
    cases hx.symm.trans hx'
    rw [getElem_indexed] at hv
    obtain ⟨e, he, rfl⟩ := Option.map_eq_some_iff.mp hv
    obtain ⟨htable⟩ := hholds
    obtain ⟨r, o, h', hfield, hcall, -, htuple, hl, hcur'⟩ := hcur.next_spec xs hL hloaded
      (bodies_next mapIndex hL) htable he hcount caller
    refine ⟨o, h', ?_, htuple, hl, .indexed hx hlt (hcur'.mono hl.nextObject (Nat.le_refl _))⟩
    rw [next, callField, hfield]
    exact hcall
  | keyed hx' _ hcur =>
    cases hx.symm.trans hx'
    rw [getElem_keyed] at hv
    obtain ⟨e, he, rfl⟩ := Option.map_eq_some_iff.mp hv
    obtain ⟨o, h', hnext, htuple, hl, hcur'⟩ := hcur.next_spec hL hloaded hreads hx hholds he hcount
      (Nat.le_refl _) caller
    exact ⟨o, h', hnext, htuple, hl, .keyed hx hlt (hcur'.mono hl.nextObject (Nat.le_refl _))⟩

theorem Tracks.next_end {given : Contents L} (ht : Tracks L xs h it root x count)
    (mapIndex : MapIndex) (hL : L.Proper)
    (hloaded : Loaded L h.store) (hx : xs x = some given) (hholds : Holds L h x given)
    (hfits : given.table.length < 2 ^ 31) (hv : (items value x given)[count]? = none)
    (caller : ContextId) : next L mapIndex h caller it = none := by
  have hge := List.getElem?_eq_none_iff.mp hv
  rw [length_items] at hge
  cases ht with
  | indexed hx' hle hcur =>
    cases hx.symm.trans hx'
    obtain ⟨htable⟩ := hholds
    obtain ⟨r, hfield, hnone⟩ := hcur.next_end hloaded (bodies_next mapIndex hL)
      htable hge (Nat.le_of_lt (Nat.lt_of_le_of_lt hle hfits)) caller
    rw [next, callField, hfield]
    exact hnone
  | keyed hx' hle hcur =>
    cases hx.symm.trans hx'
    exact hcur.next_end mapIndex hL hloaded hholds.isTable hge (Nat.le_of_lt (Nat.lt_of_le_of_lt hle hfits)) caller

/-- With positions that are ints, `has_next` compares the numbers of items. -/
theorem last_eq {size : Nat} (hfits : size < 2 ^ 31) :
    wrap32 (wrap32 size - 1) = (size : Int) - 1 := by
  unfold wrap32
  rw [Int.bmod_def, Int.bmod_def]
  omega

theorem Tracks.given_exists (ht : Tracks L xs h it root x count) : ∃ given, xs x = some given := by
  cases ht with
  | indexed hx _ _ => exact ⟨_, hx⟩
  | keyed hx _ _ => exact ⟨_, hx⟩

theorem itemsOf_eq {given : Contents L} (hx : xs x = some given) :
    itemsOf xs value x = items value x given := by
  rw [itemsOf, hx]

theorem Represents.object {its : List ObjectId} {j : Nat} (hr : Represents L xs ⟨h, its⟩ ts)
    (hit : its[j]? = some it) : ∃ t, ts[j]? = some t ∧ t.object = it := by
  have heq := hr.iterators
  simp only at heq
  rw [heq, List.getElem?_map] at hit
  exact Option.map_eq_some_iff.mp hit

/-- Code that leaves the iterators alone leaves each of them where it is. -/
theorem Represents.leaves {its : List ObjectId} (hr : Represents L xs ⟨h, its⟩ ts)
    (hl : Leaves L xs (fun _ => False) h h') : Represents L xs ⟨h', its⟩ ts where
  loaded := hl.loaded hr.loaded
  contents := fun x given hx => hl.contents x given hx (hr.contents x given hx)
  iterators := hr.iterators
  tracked := fun j t ht => (hr.tracked j t ht).leaves hl (fun _ _ hfalse => hfalse.elim) id id
  roots := hr.roots

/-- A new iterator has counters of its own. -/
theorem Represents.opened {its : List ObjectId} (hr : Represents L xs ⟨h, its⟩ ts)
    (hl : ∀ p, Leaves L xs p h h') (hle : h.store.nextObject ≤ root)
    (ht : Tracks L xs h' it root x 0) :
    Represents L xs ⟨h', its ++ [it]⟩ (ts ++ [⟨it, root, ⟨x, 0⟩⟩]) := by
  have hr' := hr.leaves (hl _)
  have hcases : ∀ (j : Nat) (t : Tracked), (ts ++ [⟨it, root, ⟨x, 0⟩⟩])[j]? = some t →
      ts[j]? = some t ∨ j = ts.length ∧ t = ⟨it, root, ⟨x, 0⟩⟩ := by
    intro j t hj
    rcases Nat.lt_or_ge j ts.length with hlt | hge
    · rw [List.getElem?_append_left hlt] at hj
      exact .inl hj
    · have hbound := (List.getElem?_eq_some_iff.mp hj).1
      rw [List.length_append, List.length_singleton] at hbound
      have heq : j = ts.length := by omega
      rw [List.getElem?_append_right hge] at hj
      exact .inr ⟨heq, List.mem_singleton.mp (List.mem_of_getElem? hj)⟩
  constructor
  · exact hr'.loaded
  · exact hr'.contents
  · have heq := hr.iterators
    simp only at heq
    rw [heq, List.map_append]
    rfl
  · intro j t hj
    rcases hcases j t hj with hold | ⟨-, rfl⟩
    · exact hr'.tracked j t hold
    · exact ht
  · intro j k t u hj hk heq
    rcases hcases j t hj with hold | ⟨hlast, rfl⟩
    · have hbound := (hr.tracked j t hold).root_spec.1
      rcases hcases k u hk with hold' | ⟨-, rfl⟩
      · exact hr.roots j k t u hold hold' heq
      · rw [heq] at hbound
        exact absurd hbound (Nat.not_lt.mpr hle)
    · rcases hcases k u hk with hold' | ⟨hlast', -⟩
      · have hbound := (hr.tracked k u hold').root_spec.1
        rw [← heq] at hbound
        exact absurd hbound (Nat.not_lt.mpr hle)
      · rw [hlast, hlast']

/-- One iterator has moved; the others have not, because its counters are its own. -/
theorem Represents.gave {its : List ObjectId} {j : Nat} {t : Tracked}
    (hr : Represents L xs ⟨h, its⟩ ts) (hL : L.Proper) (hj : ts[j]? = some t)
    (hl : Leaves L xs (fun o => o = t.root) h h')
    (ht : Tracks L xs h' t.object t.root t.cursor.source (t.cursor.count + 1)) :
    Represents L xs ⟨h', its⟩
      (ts.set j ⟨t.object, t.root, ⟨t.cursor.source, t.cursor.count + 1⟩⟩) := by
  have hlt : j < ts.length := (List.getElem?_eq_some_iff.mp hj).1
  have hcls := (hr.tracked j t hj).root_spec.2
  have hp : ∀ o < h.store.nextObject, o = t.root → L.IsIterator (h.store.cls o) := by
    rintro o - rfl
    exact .inl hcls
  -- the counters of an entry are those it had
  have hroots : ∀ (k : Nat) (u : Tracked),
      (ts.set j ⟨t.object, t.root, ⟨t.cursor.source, t.cursor.count + 1⟩⟩)[k]? = some u →
        ∃ u', ts[k]? = some u' ∧ u.root = u'.root := by
    intro k u hk
    by_cases hkj : k = j
    · subst hkj
      rw [List.getElem?_set_self hlt] at hk
      cases hk
      exact ⟨t, hj, rfl⟩
    · rw [List.getElem?_set_ne (Ne.symm hkj)] at hk
      exact ⟨u, hk, rfl⟩
  constructor
  · exact hl.loaded hr.loaded
  · exact fun x given hx => hl.contents x given hx (hr.contents x given hx)
  · have heq := hr.iterators
    simp only at heq
    have hobject : (ts.map Tracked.object)[j]? = some t.object := by
      rw [List.getElem?_map, hj, Option.map_some]
    obtain ⟨hbound, hget⟩ := List.getElem?_eq_some_iff.mp hobject
    rw [heq, List.map_set, ← hget, List.set_getElem_self hbound]
  · intro k u hk
    by_cases hkj : k = j
    · subst hkj
      rw [List.getElem?_set_self hlt] at hk
      cases hk
      exact ht
    · rw [List.getElem?_set_ne (Ne.symm hkj)] at hk
      have hne : u.root ≠ t.root := fun heq => hkj (hr.roots k j u t hk hj heq)
      have hu := hr.tracked k u hk
      exact hu.leaves hl hp (hu.ne_root hL hcls hne) hne
  · intro k l u v hk hl' heq
    obtain ⟨u', hu', hroot⟩ := hroots k u hk
    obtain ⟨v', hv', hroot'⟩ := hroots l v hl'
    exact hr.roots k l u' v' hu' hv' (hroot.symm.trans (heq.trans hroot'))

/-- `has_next` of an iterator is true just while there are items left. -/
theorem Represents.asks {j : Nat} {t : Tracked} (hr : Represents L xs s ts) (mapIndex : MapIndex)
    (value : ObjectId → Entity → Entity) (hL : L.Proper)
    (hfits : ∀ x given, xs x = some given → given.table.length < 2 ^ 31) (hj : ts[j]? = some t)
    (caller : ContextId) :
    ∃ h', hasNext L mapIndex s.heap caller t.object =
        some (if t.cursor.count < (itemsOf xs value t.cursor.source).length then .int 1 else .none,
          h') ∧
      ∀ p, Leaves L xs p s.heap h' := by
  have ht := hr.tracked j t hj
  obtain ⟨given, hx⟩ := ht.given_exists
  obtain ⟨h', hask, hl⟩ := ht.hasNext_spec mapIndex hL hr.loaded hx caller
  refine ⟨h', hask.trans ?_, hl⟩
  rw [itemsOf_eq hx, length_items, last_eq (hfits _ given hx)]
  by_cases hlt : t.cursor.count < given.table.length
  · rw [if_pos (by omega), if_pos hlt]
  · rw [if_neg (by omega), if_neg hlt]

/-- `next` gives the item at the place of the iterator and moves no counters but its own. -/
theorem Represents.gives {j : Nat} {t : Tracked} {v : Entity × Entity} (hr : Represents L xs s ts)
    (hL : L.Proper) (hreads : Reads L xs mapIndex value)
    (hfits : ∀ x given, xs x = some given → given.table.length < 2 ^ 31) (hj : ts[j]? = some t)
    (hv : (itemsOf xs value t.cursor.source)[t.cursor.count]? = some v) (caller : ContextId) :
    ∃ o h', next L mapIndex s.heap caller t.object = some (.obj o, h') ∧
      tupleOf h'.store (.obj o) = some [v.1, v.2] ∧ Leaves L xs (fun o => o = t.root) s.heap h' ∧
      Tracks L xs h' t.object t.root t.cursor.source (t.cursor.count + 1) := by
  have ht := hr.tracked j t hj
  obtain ⟨given, hx⟩ := ht.given_exists
  rw [itemsOf_eq hx] at hv
  exact ht.next_spec hL hr.loaded hreads hx (hr.contents _ given hx) (hfits _ given hx) hv caller

theorem Represents.ends {j : Nat} {t : Tracked} (hr : Represents L xs s ts) (mapIndex : MapIndex)
    (hL : L.Proper) (hfits : ∀ x given, xs x = some given → given.table.length < 2 ^ 31)
    (hj : ts[j]? = some t) (hv : (itemsOf xs value t.cursor.source)[t.cursor.count]? = none)
    (caller : ContextId) : next L mapIndex s.heap caller t.object = none := by
  have ht := hr.tracked j t hj
  obtain ⟨given, hx⟩ := ht.given_exists
  rw [itemsOf_eq hx] at hv
  exact ht.next_end mapIndex hL hr.loaded hx (hr.contents _ given hx) (hfits _ given hx) hv caller

theorem getElem_cursors {j : Nat} {t : Tracked} (hj : ts[j]? = some t) :
    (ts.map Tracked.cursor)[j]? = some t.cursor := by
  rw [List.getElem?_map, hj, Option.map_some]

/-- A step of the iterators is a step of the cursors. -/
theorem Represents.step {e : Option (Cursors.Event ObjectId (Entity × Entity))} (hL : L.Proper)
    (hreads : Reads L xs mapIndex value)
    (hfits : ∀ x given, xs x = some given → given.table.length < 2 ^ 31)
    (hr : Represents L xs s ts) (hstep : Step L mapIndex xs s e s') :
    ∃ ts', Represents L xs s' ts' ∧ Cursors.Step (itemsOf xs value) (ts.map Tracked.cursor) e
      (ts'.map Tracked.cursor) := by
  cases hstep with
  | other hl => exact ⟨ts, hr.leaves hl, .silent _⟩
  | @opened h h' its x it hx hiter =>
    obtain ⟨given, hx⟩ := Option.isSome_iff_exists.mp hx
    obtain ⟨it', root, h'', hiter', hle, hl, ht⟩ := iter_spec hL hr.loaded hx (hr.contents x given hx)
    cases hiter.symm.trans hiter'
    refine ⟨_, hr.opened hl hle ht, ?_⟩
    rw [List.map_append]
    exact .opened _ x
  | @asked h h' its j it caller e hit hask =>
    obtain ⟨t, hj, rfl⟩ := hr.object hit
    obtain ⟨h'', hask', hl⟩ := hr.asks mapIndex value hL hfits hj caller
    have hresult := Option.some.inj (hask.symm.trans hask')
    have he : e = _ := congrArg Prod.fst hresult
    have hheap : h' = h'' := congrArg Prod.snd hresult
    subst hheap
    have hanswer : (!e.isNone) =
        decide (t.cursor.count < (itemsOf xs value t.cursor.source).length) := by
      rw [he]
      by_cases hlt : t.cursor.count < (itemsOf xs value t.cursor.source).length
      · rw [if_pos hlt, decide_eq_true hlt]
        rfl
      · rw [if_neg hlt, decide_eq_false hlt]
        rfl
    rw [hanswer]
    exact ⟨ts, hr.leaves (hl _), .asked (getElem_cursors hj)⟩
  | @gave h h' its j it caller e k v hit hnext hpair =>
    obtain ⟨t, hj, rfl⟩ := hr.object hit
    cases hv : (itemsOf xs value t.cursor.source)[t.cursor.count]? with
    | none => cases hnext.symm.trans (hr.ends mapIndex hL hfits hj hv caller)
    | some w =>
      obtain ⟨o, h'', hnext', hpair', hl, ht'⟩ := hr.gives hL hreads hfits hj hv caller
      cases hnext.symm.trans hnext'
      have hparts := Option.some.inj (hpair.symm.trans hpair')
      rw [List.cons.injEq, List.cons.injEq] at hparts
      obtain ⟨rfl, rfl, -⟩ := hparts
      refine ⟨_, hr.gave hL hj hl ht', ?_⟩
      rw [List.map_set]
      exact .gave (getElem_cursors hj) hv

theorem Represents.run {tr : List (Cursors.Event ObjectId (Entity × Entity))} (hL : L.Proper)
    (hreads : Reads L xs mapIndex value)
    (hfits : ∀ x given, xs x = some given → given.table.length < 2 ^ 31)
    (hr : Represents L xs s ts) (hrun : Traced (Step L mapIndex xs) s tr s') :
    ∃ ts', Represents L xs s' ts' ∧ Traced (Cursors.Step (itemsOf xs value))
      (ts.map Tracked.cursor) tr (ts'.map Tracked.cursor) := by
  induction hrun generalizing ts with
  | refl s => exact ⟨ts, hr, .refl _⟩
  | head hstep _ ih =>
    obtain ⟨ts₁, hr₁, hstep₁⟩ := hr.step hL hreads hfits hstep
    obtain ⟨ts₂, hr₂, hrun₂⟩ := ih hr₁
    exact ⟨ts₂, hr₂, .head hstep₁ hrun₂⟩

end Simulation

/-! ## Enumeration -/

/-- The iterator `it` has given these items of its container: it has more just when there are
more, and it gives the next one. -/
structure StandsAt (L : Library) (mapIndex : MapIndex) (h : Heap) (it : ObjectId)
    (all done : List (Entity × Entity)) : Prop where
  first : done = all.take done.length
  asks : ∀ caller, ∃ h', hasNext L mapIndex h caller it =
    some (if done.length < all.length then .int 1 else .none, h')
  gives : ∀ caller v, all[done.length]? = some v → ∃ e h',
    next L mapIndex h caller it = some (e, h') ∧ tupleOf h'.store e = some [v.1, v.2]

/-- In every state of every run from `h`, each container can be iterated over once more, each
iterator stands at the number of items that it has given, and a loop that has come to its end has
seen all items. -/
def Enumerates (L : Library) (mapIndex : MapIndex) (xs : ObjectId → Option (Contents L))
    (value : ObjectId → Entity → Entity) (h : Heap) : Prop :=
  ∀ tr s, Traced (Step L mapIndex xs) ⟨h, []⟩ tr s →
    (∀ x, (xs x).isSome → ∃ it h', iter L s.heap x = some (it, h')) ∧
    ∀ j x, (sources tr)[j]? = some x →
      (∃ it, s.iterators[j]? = some it ∧
        StandsAt L mapIndex s.heap it (itemsOf xs value x) (given j tr)) ∧
      ∀ vs, tr.filter (Event.on j) = loopEvents j vs → vs = itemsOf xs value x

section Enumeration

variable {L : Library} {xs : ObjectId → Option (Contents L)} {h : Heap} {s : State}
variable {ts : List Tracked} {mapIndex : MapIndex} {value : ObjectId → Entity → Entity}

theorem represents_start (hloaded : Loaded L h.store)
    (hholds : ∀ x given, xs x = some given → Holds L h x given) :
    Represents L xs ⟨h, []⟩ [] where
  loaded := hloaded
  contents := hholds
  iterators := rfl
  tracked := by
    intro j t ht
    cases ht
  roots := by
    intro j k t u ht
    cases ht

theorem Represents.standsAt {j : Nat} {t : Tracked} {done : List (Entity × Entity)} (hL : L.Proper)
    (hreads : Reads L xs mapIndex value)
    (hfits : ∀ x given, xs x = some given → given.table.length < 2 ^ 31)
    (hr : Represents L xs s ts) (hj : ts[j]? = some t) (hcount : done.length = t.cursor.count)
    (hfirst : done = (itemsOf xs value t.cursor.source).take done.length) :
    StandsAt L mapIndex s.heap t.object (itemsOf xs value t.cursor.source) done where
  first := hfirst
  asks := by
    intro caller
    rw [hcount]
    obtain ⟨h', hask, -⟩ := hr.asks mapIndex value hL hfits hj caller
    exact ⟨h', hask⟩
  gives := by
    intro caller v hv
    rw [hcount] at hv
    obtain ⟨o, h', hnext, hpair, -, -⟩ := hr.gives hL hreads hfits hj hv caller
    exact ⟨.obj o, h', hnext, hpair⟩

/-- Iterators enumerate containers whose positions are ints, in any interleaving; the keys of a map
stand in the order of their insertion. -/
theorem enumerates (hL : L.Proper) (hreads : Reads L xs mapIndex value)
    (hloaded : Loaded L h.store) (hholds : ∀ x given, xs x = some given → Holds L h x given)
    (hfits : ∀ x given, xs x = some given → given.table.length < 2 ^ 31) :
    Enumerates L mapIndex xs value h ∧
      ∀ diff hasher m ops m' vs, StructMap.run diff hasher m ops = some (m', vs) →
        ∃ new, m'.keys = m.keys ++ new ∧
          new.Sublist ((StructMap.storesOf ops).map Prod.fst) := by
  refine ⟨?_, fun _ _ _ _ _ _ hrun => StructMap.run_keys hrun⟩
  intro tr s hrun
  obtain ⟨ts, hr, hcursors⟩ := (represents_start hloaded hholds).run hL hreads hfits hrun
  have hconsistent : Consistent (itemsOf xs value) tr (ts.map Tracked.cursor) :=
    (consistent_nil (itemsOf xs value)).run hcursors
  constructor
  · intro x hx
    obtain ⟨given, hx⟩ := Option.isSome_iff_exists.mp hx
    obtain ⟨it, -, h', hiter, -⟩ := iter_spec hL hr.loaded hx (hr.contents x given hx)
    exact ⟨it, h', hiter⟩
  · intro j x hj
    have hsources := hconsistent.sources_eq
    rw [hsources, List.getElem?_map] at hj
    obtain ⟨c, hc, rfl⟩ := Option.map_eq_some_iff.mp hj
    have hc' := hc
    rw [List.getElem?_map] at hc'
    obtain ⟨t, ht, rfl⟩ := Option.map_eq_some_iff.mp hc'
    have hcount := hconsistent.count_eq hc
    refine ⟨⟨t.object, ?_, ?_⟩, fun vs hloop => hconsistent.loop hc hloop⟩
    · rw [hr.iterators, List.getElem?_map, ht, Option.map_some]
    · apply hr.standsAt hL hreads hfits ht hcount
      rw [hcount]
      exact (hconsistent.given_eq j _ hc).1

/-! ## Two heaps -/

def Body.number : Body → Nat
  | .arrayIter => 0
  | .tupleIter => 1
  | .mapIter => 2
  | .iteratorNew => 3
  | .indexIteratorNew => 4
  | .hasNext => 5
  | .next => 6
  | .kvIteratorNew => 7
  | .kvNext => 8

def Body.anon : Body → String
  | .hasNext => "$anon_270_8"
  | .next => "$anon_271_8"
  | _ => "$anon_283_8"

/-- The library with the classes and functions numbered in order. -/
def numbered : Library := ⟨0, 1, 2, Body.number, Body.anon⟩

theorem proper_numbered : numbered.Proper where
  anon := by
    intro b
    cases b <;> rfl
  names := by decide
  functions := by
    intro b b' h
    cases b <;> cases b' <;> first | rfl | cases h
  iterators := by decide
  map := ⟨by decide, by decide⟩

theorem not_previous_none (c p : Nat) (h : (none : Option ContextId) = some p) : p < c := by
  cases h

/-- The tables of the library, with these objects. -/
def libraryHeap (objects : ObjectId → Object) (next : ObjectId) : Heap where
  store :=
    { objects := objects
      nextObject := next
      classes := fun c => ⟨"", [], if c = .user 0 then
          (KeyedList.empty.insert ("$anon_270_8", 5)).insert ("$anon_271_8", 6)
        else if c = .user 1 then KeyedList.empty.insert ("$anon_283_8", 8) else .empty, 0⟩
      functions := fun f => ⟨"", 0, false, f == 5 || f == 6 || f == 8, false, false, 0, 0⟩
      modules := fun _ => ⟨"builtin", [], .empty, .empty, 0, true⟩
      builtin := 0 }
  contexts := ⟨fun _ => ⟨0, none, 0, 0, 0, none, 0, none, -1⟩, 0, not_previous_none⟩
  nextTask := 0

theorem loaded_libraryHeap (objects : ObjectId → Object) (n : ObjectId) :
    Loaded numbered (libraryHeap objects n).store where
  closures := by
    rintro b (rfl | rfl | rfl) <;> rfl
  hasNext := by rfl
  next := by rfl
  kvNext := by rfl
  tuples := ⟨List.not_mem_nil, List.not_mem_nil⟩

/-- An array, and a map with one key: its array of keys, and its table of one bucket with one
pair. -/
def smallObjects : ObjectId → Object := fun o =>
  if o = 0 then ⟨.Array, .empty, .array [.int 7, .int 9]⟩
  else if o = 1 then
    ⟨.user 2, (KeyedList.empty.insert ("keys", .obj 2)).insert ("table", .obj 3), .none⟩
  else if o = 2 then ⟨.Array, .empty, .array [.int 5]⟩
  else if o = 3 then ⟨.Array, .empty, .array [.obj 4]⟩
  else if o = 4 then ⟨.Array, .empty, .array [.obj 5]⟩
  else ⟨.Tuple, .empty, .tuple [.int 5, .int 8]⟩

/-- The map and what its table leads to are as they were. -/
def smallSupport : Support numbered where
  holds := fun h => ∀ o ∈ [1, 3, 4, 5], o < h.store.nextObject ∧
    h.store.objects o = smallObjects o
  kept := by
    intro h h' hq hholds o ho
    obtain ⟨hbound, hobject⟩ := hholds o ho
    refine ⟨Nat.lt_of_lt_of_le hbound hq.nextObject, (hq.objects o hbound ?_).trans hobject⟩
    rintro ⟨-, hcase⟩
    have hcls : ∀ o ∈ [1, 3, 4, 5], (smallObjects o).cls ≠ .user 0 ∧
        (smallObjects o).cls ≠ .user 1 ∧ (smallObjects o).cls ≠ .Object := by decide
    obtain ⟨hindex, hkeyed, hplain⟩ := hcls o ho
    rw [Store.cls, hobject] at hcase
    rcases hcase with (heq | heq) | ⟨heq, -⟩
    · exact hindex heq
    · exact hkeyed heq
    · exact hplain heq

def smallContents : ObjectId → Option (Contents numbered) := fun x =>
  if x = 0 then some (.indexed [.int 7, .int 9])
  else if x = 1 then some (.keyed 2 [.int 5] smallSupport) else none

/-- `m[k]` for a map with one bucket and keys that are ints. -/
def smallIndex : MapIndex := fun h m k => do
  let table ← h.store.get m "table"
  let bucket ← h.elementOf table (.int 0)
  let entries ← h.store.elements bucket
  match entries.find? fun entry => h.elementOf entry (.int 0) = some k with
  | some entry => (h.elementOf entry (.int 1)).map fun v => (v, h)
  | none => some (.none, h)

theorem smallIndex_reads {h : Heap} (hsupport : smallSupport.holds h) :
    smallIndex h 1 (.int 5) = some (.int 8, h) := by
  have hobject : ∀ o ∈ [1, 3, 4, 5], h.store.objects o = smallObjects o := fun o ho =>
    (hsupport o ho).2
  have htable : h.store.get 1 "table" = some (.obj 3) := by
    rw [Store.get, hobject 1 (by decide)]
    rfl
  have helements : ∀ o table, o ∈ [1, 3, 4, 5] →
      (smallObjects o).cls = .Array ∧ (smallObjects o).internal = .array table ∨
        (smallObjects o).cls = .Tuple ∧ (smallObjects o).internal = .tuple table →
      IsTable h o table := by
    intro o table ho hkind
    refine ⟨(hsupport o ho).1, ?_⟩
    rw [Store.cls, Store.internal, hobject o ho]
    exact hkind
  have hbuckets : IsTable h 3 [.obj 4] := helements 3 _ (by decide) (.inl ⟨rfl, rfl⟩)
  have hbucket : IsTable h 4 [.obj 5] := helements 4 _ (by decide) (.inl ⟨rfl, rfl⟩)
  have hentry : IsTable h 5 [.int 5, .int 8] := helements 5 _ (by decide) (.inr ⟨rfl, rfl⟩)
  have hpos : h.elementOf (.obj 3) (.int (0 : Nat)) = some (.obj 4) := elementOf_table hbuckets rfl
  have hkey : h.elementOf (.obj 5) (.int (0 : Nat)) = some (.int 5) := elementOf_table hentry rfl
  have hvalue : h.elementOf (.obj 5) (.int (1 : Nat)) = some (.int 8) :=
    elementOf_table hentry rfl
  simp only [Nat.cast_zero, Nat.cast_one] at hpos hkey hvalue
  simp only [smallIndex, htable, Option.bind_eq_bind, Option.bind_some, hpos, hbucket.elements,
    List.find?_cons, hkey, decide_true, hvalue, Option.map_some]

theorem enumerates_small :
    Enumerates numbered smallIndex smallContents (fun _ _ => .int 8) (libraryHeap smallObjects 6) ∧
      ∀ diff hasher m ops m' vs, StructMap.run diff hasher m ops = some (m', vs) →
        ∃ new, m'.keys = m.keys ++ new ∧
          new.Sublist ((StructMap.storesOf ops).map Prod.fst) := by
  apply enumerates proper_numbered
  · intro h m keys table support k _ hx hholds hk
    rw [smallContents] at hx
    split at hx
    · cases hx
    · split at hx
      · rename_i heq
        cases hx
        obtain _ | ⟨-, -, -, -, -, hsupport⟩ := hholds
        rw [heq, List.mem_singleton.mp hk]
        exact ⟨h, smallIndex_reads hsupport, Leaves.refl h⟩
      · cases hx
  · exact loaded_libraryHeap _ _
  · intro x given hx
    rw [smallContents] at hx
    split at hx
    · rename_i heq
      rw [heq, ← Option.some.inj hx]
      exact .indexed ⟨by decide, .inl ⟨rfl, rfl⟩⟩
    · split at hx
      · rename_i heq
        rw [heq, ← Option.some.inj hx]
        refine .keyed (by decide) rfl rfl rfl ⟨by decide, .inl ⟨rfl, rfl⟩⟩ ?_
        intro o ho
        have hbound : ∀ o ∈ [1, 3, 4, 5], o < 6 := by decide
        exact ⟨hbound o ho, rfl⟩
      · cases hx
  · intro x given hx
    rw [smallContents] at hx
    split at hx
    · rw [← Option.some.inj hx]
      decide
    · split at hx
      · rw [← Option.some.inj hx]
        decide
      · cases hx

/-- An array with one element more than there are indices. -/
def longTable : List Entity := List.replicate (2 ^ 31 + 1) .none

def longContents : ObjectId → Option (Contents numbered) := fun x =>
  if x = 0 then some (.indexed longTable) else none

def longHeap : Heap := libraryHeap (fun _ => ⟨.Array, .empty, .array longTable⟩) 1

/-- `len()` of a long array is negative, so that there is no first element. -/
theorem not_enumerates : ¬ ∀ (L : Library) (mapIndex : MapIndex) (xs : ObjectId → Option (Contents L))
    (value : ObjectId → Entity → Entity) (h : Heap), L.Proper → Reads L xs mapIndex value →
    Loaded L h.store → (∀ x given, xs x = some given → Holds L h x given) →
      Enumerates L mapIndex xs value h := by
  intro hall
  have hloaded : Loaded numbered longHeap.store := loaded_libraryHeap _ _
  have hholds : ∀ x given, longContents x = some given → Holds numbered longHeap x given := by
    intro x given hx
    rw [longContents] at hx
    split at hx
    · rename_i heq
      rw [heq, ← Option.some.inj hx]
      exact .indexed ⟨Nat.one_pos, .inl ⟨rfl, rfl⟩⟩
    · cases hx
  have hreads : Reads numbered longContents (fun _ _ _ => none) (fun _ _ => .none) := by
    intro h m keys table support k _ hx _ _
    rw [longContents] at hx
    split at hx
    · cases hx
    · cases hx
  have hx : longContents 0 = some (.indexed longTable) := rfl
  have henum := hall numbered (fun _ _ _ => none) longContents (fun _ _ => .none) longHeap
    proper_numbered hreads hloaded hholds
  obtain ⟨it, root, h', hiter, -, hl, ht⟩ := iter_spec proper_numbered hloaded hx (hholds 0 _ hx)
  have hrun : Traced (Step numbered (fun _ _ _ => none) longContents) ⟨longHeap, []⟩ [.opened 0]
      ⟨h', [it]⟩ := .head (Step.opened rfl hiter) (.refl _)
  obtain ⟨⟨it', hit, hplace⟩, -⟩ := (henum _ _ hrun).2 0 0 rfl
  cases Option.some.inj hit
  obtain ⟨h₁, hask⟩ := hplace.asks 0
  obtain ⟨h₂, hask', -⟩ := ht.hasNext_spec _ proper_numbered ((hl fun _ => False).loaded hloaded) hx 0
  have hlength : longTable.length = 2 ^ 31 + 1 := List.length_replicate
  have hmore : (given 0 [(.opened 0 : Cursors.Event ObjectId (Entity × Entity))]).length <
      (itemsOf longContents (fun _ _ => .none) 0).length := by
    rw [itemsOf_eq hx, length_items, Contents.table, hlength]
    exact Nat.succ_pos _
  rw [if_pos hmore] at hask
  have hnot : ¬ ((0 : Nat) : Int) - 1 < wrap32 (wrap32 (longTable.length : Nat) - 1) := by
    rw [hlength]
    decide
  rw [Contents.table, if_neg hnot] at hask'
  cases hask.symm.trans hask'

end Enumeration

end Iterators

end JeffVm
