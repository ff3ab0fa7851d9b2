import JeffVm.Lib.Traced

/-!
# Cursors over lists

Several readers, each over the items of its source and each with the number of items it has
given. They are opened, asked and read in any order, between steps that do not concern them.
-/

set_option autoImplicit false

universe u v

namespace JeffVm

namespace Cursors

structure Cursor (X : Type u) where
  source : X
  count : Nat

inductive Event (X : Type u) (α : Type v) where
  | opened (x : X)
  | asked (j : Nat) (answer : Bool)
  | gave (j : Nat) (v : α)

section

variable {X : Type u} {α : Type v}

/-- The event is one of reader `j`. -/
def Event.on (j : Nat) : Event X α → Bool
  | .opened _ => false
  | .asked k _ => k == j
  | .gave k _ => k == j

def Event.source? : Event X α → Option X
  | .opened x => some x
  | _ => none

def Event.value? (j : Nat) : Event X α → Option α
  | .gave k v => if k = j then some v else none
  | _ => none

/-- The sources of the readers, in the order in which they were opened. -/
def sources (tr : List (Event X α)) : List X := tr.filterMap Event.source?

/-- What reader `j` has given. -/
def given (j : Nat) (tr : List (Event X α)) : List α := tr.filterMap (Event.value? j)

/-- A loop over reader `j` that asks before it reads and ends when the answer is no. -/
def loopEvents (j : Nat) : List α → List (Event X α)
  | [] => [.asked j false]
  | v :: vs => .asked j true :: .gave j v :: loopEvents j vs

/-- A step of one reader, or one that does not concern the readers. -/
inductive Step (items : X → List α) :
    List (Cursor X) → Option (Event X α) → List (Cursor X) → Prop where
  | opened (cs : List (Cursor X)) (x : X) : Step items cs (some (.opened x)) (cs ++ [⟨x, 0⟩])
  | asked {cs : List (Cursor X)} {j : Nat} {c : Cursor X} (h : cs[j]? = some c) :
      Step items cs (some (.asked j (decide (c.count < (items c.source).length)))) cs
  | gave {cs : List (Cursor X)} {j : Nat} {c : Cursor X} {v : α} (h : cs[j]? = some c)
      (hv : (items c.source)[c.count]? = some v) :
      Step items cs (some (.gave j v)) (cs.set j ⟨c.source, c.count + 1⟩)
  | silent (cs : List (Cursor X)) : Step items cs none cs

/-- The answers in a trace: yes just while the reader has given less than its source has. -/
def Truthful (items : X → List α) (tr : List (Event X α)) : Prop :=
  ∀ before after j a, tr = before ++ .asked j a :: after →
    ∃ x, (sources before)[j]? = some x ∧ a = decide ((given j before).length < (items x).length)

/-- The readers after a trace. -/
structure Consistent (items : X → List α) (tr : List (Event X α)) (cs : List (Cursor X)) :
    Prop where
  sources_eq : sources tr = cs.map Cursor.source
  given_eq : ∀ j c, cs[j]? = some c → given j tr = (items c.source).take c.count ∧
    c.count ≤ (items c.source).length
  unopened : ∀ j, cs[j]? = none → given j tr = []
  truthful : Truthful items tr

variable {items : X → List α} {tr tr' : List (Event X α)} {cs cs' : List (Cursor X)} {j : Nat}

theorem given_append (j : Nat) (tr tr' : List (Event X α)) :
    given j (tr ++ tr') = given j tr ++ given j tr' := List.filterMap_append

theorem sources_append (tr tr' : List (Event X α)) :
    sources (tr ++ tr') = sources tr ++ sources tr' := List.filterMap_append

theorem given_asked (j k : Nat) (a : Bool) (tr : List (Event X α)) :
    given j (.asked k a :: tr) = given j tr := List.filterMap_cons_none rfl

theorem given_gave_self (j : Nat) (v : α) (tr : List (Event X α)) :
    given j (.gave j v :: tr) = v :: given j tr := List.filterMap_cons_some (if_pos rfl)

theorem given_gave_ne {j k : Nat} (h : k ≠ j) (v : α) (tr : List (Event X α)) :
    given j (.gave k v :: tr) = given j tr := List.filterMap_cons_none (if_neg h)

theorem Consistent.count_eq {c : Cursor X} (h : Consistent items tr cs) (hc : cs[j]? = some c) :
    (given j tr).length = c.count := by
  obtain ⟨hgiven, hle⟩ := h.given_eq j c hc
  rw [hgiven, List.length_take, Nat.min_eq_left hle]

theorem Consistent.source_eq {c : Cursor X} (h : Consistent items tr cs) (hc : cs[j]? = some c) :
    (sources tr)[j]? = some c.source := by
  rw [h.sources_eq, List.getElem?_map, hc, Option.map_some]

/-- One more event is an answer that is right, or no answer. -/
theorem Truthful.append (h : Truthful items tr) {e : Event X α}
    (hlast : ∀ j a, e = .asked j a → ∃ x, (sources tr)[j]? = some x ∧
      a = decide ((given j tr).length < (items x).length)) : Truthful items (tr ++ [e]) := by
  intro before after j a heq
  rcases List.eq_nil_or_concat after with rfl | ⟨after, last, rfl⟩
  · obtain ⟨rfl, he⟩ := List.append_inj' heq rfl
    exact hlast j a (List.head_eq_of_cons_eq he)
  · rw [List.concat_eq_append, ← List.cons_append, ← List.append_assoc] at heq
    exact h before after j a (List.append_inj' heq rfl).1

/-- What a step of one reader, or another step, does to what all of them have given. -/
theorem Consistent.step {e : Option (Event X α)} (h : Consistent items tr cs)
    (hstep : Step items cs e cs') : Consistent items (tr ++ e.toList) cs' := by
  cases hstep with
  | silent =>
    rw [Option.toList_none, List.append_nil]
    exact h
  | opened x =>
    have hgiven : ∀ j, given j (tr ++ [.opened x]) = given j tr := fun j => by
      rw [given_append]
      exact List.append_nil _
    constructor
    · rw [Option.toList_some, sources_append, h.sources_eq, List.map_append]
      rfl
    · intro j c hc
      rw [Option.toList_some, hgiven]
      rcases Nat.lt_or_ge j cs.length with hlt | hge
      · rw [List.getElem?_append_left hlt] at hc
        exact h.given_eq j c hc
      · rw [List.getElem?_append_right hge] at hc
        cases List.mem_singleton.mp (List.mem_of_getElem? hc)
        rw [h.unopened j (List.getElem?_eq_none hge)]
        exact ⟨rfl, Nat.zero_le _⟩
    · intro j hj
      rw [Option.toList_some, hgiven]
      apply h.unopened
      rw [List.getElem?_eq_none_iff, List.length_append] at hj
      exact List.getElem?_eq_none (by omega)
    · exact h.truthful.append fun j a he => by cases he
  | @asked j c hc =>
    have hgiven : ∀ k a, given k (tr ++ [.asked j a]) = given k tr := fun k a => by
      rw [given_append]
      exact List.append_nil _
    constructor
    · rw [Option.toList_some, sources_append, ← h.sources_eq]
      exact List.append_nil _
    · intro k c' hc'
      rw [Option.toList_some, hgiven]
      exact h.given_eq k c' hc'
    · intro k hk
      rw [Option.toList_some, hgiven]
      exact h.unopened k hk
    · apply h.truthful.append
      intro k a he
      cases he
      refine ⟨c.source, h.source_eq hc, ?_⟩
      rw [h.count_eq hc]
  | @gave j c v hc hv =>
    have hlt : j < cs.length := (List.getElem?_eq_some_iff.mp hc).1
    obtain ⟨hgivenj, -⟩ := h.given_eq j c hc
    have hself : given j (tr ++ [.gave j v]) = given j tr ++ [v] := by
      rw [given_append, given_gave_self]
      rfl
    have hother : ∀ k, k ≠ j → given k (tr ++ [.gave j v]) = given k tr := fun k hk => by
      rw [given_append, given_gave_ne (Ne.symm hk)]
      exact List.append_nil _
    constructor
    · rw [Option.toList_some, sources_append, h.sources_eq, List.map_set]
      have hsource : (cs.map Cursor.source)[j]? = some c.source := by
        rw [List.getElem?_map, hc, Option.map_some]
      obtain ⟨hbound, hget⟩ := List.getElem?_eq_some_iff.mp hsource
      rw [← hget, List.set_getElem_self hbound]
      exact List.append_nil _
    · intro k c' hc'
      rw [Option.toList_some]
      by_cases hk : k = j
      · subst hk
        rw [List.getElem?_set_self hlt] at hc'
        cases hc'
        rw [hself, hgivenj, List.take_add_one, hv]
        exact ⟨rfl, (List.getElem?_eq_some_iff.mp hv).1⟩
      · rw [List.getElem?_set_ne (Ne.symm hk)] at hc'
        rw [hother k hk]
        exact h.given_eq k c' hc'
    · intro k hk
      rw [List.getElem?_eq_none_iff, List.length_set] at hk
      rw [Option.toList_some, hother k (by omega)]
      exact h.unopened k (List.getElem?_eq_none hk)
    · exact h.truthful.append fun j a he => by cases he

theorem Consistent.run {start : List (Event X α)} (h : Consistent items start cs)
    (hrun : Traced (Step items) cs tr cs') : Consistent items (start ++ tr) cs' := by
  induction hrun generalizing start with
  | refl =>
    rw [List.append_nil]
    exact h
  | head hstep _ ih =>
    rw [← List.append_assoc]
    exact ih (h.step hstep)

theorem consistent_nil (items : X → List α) : Consistent items [] [] where
  sources_eq := rfl
  given_eq := by
    intro j c hc
    cases hc
  unopened := fun _ _ => rfl
  truthful := by
    intro before after j a heq
    cases before <;> cases heq

theorem given_loopEvents (j : Nat) (vs : List α) :
    given j (loopEvents (X := X) j vs) = vs := by
  induction vs with
  | nil => rfl
  | cons v vs ih =>
    rw [loopEvents, given_asked, given_gave_self, ih]

theorem given_filter (j : Nat) (tr : List (Event X α)) :
    given j (tr.filter (Event.on j)) = given j tr := by
  rw [given, given, List.filterMap_filter]
  congr 1
  funext e
  cases e with
  | opened x => rfl
  | asked k a => cases hk : k == j <;> simp [Event.on, Event.value?, hk]
  | gave k v => by_cases hk : k = j <;> simp [Event.on, Event.value?, hk]

theorem loopEvents_eq (j : Nat) (vs : List α) :
    ∃ rounds : List (Event X α), loopEvents j vs = rounds ++ [.asked j false] ∧
      given j rounds = vs := by
  induction vs with
  | nil => exact ⟨[], rfl, rfl⟩
  | cons v vs ih =>
    obtain ⟨rounds, heq, hgiven⟩ := ih
    refine ⟨.asked j true :: .gave j v :: rounds, ?_, ?_⟩
    · rw [loopEvents, heq]
      rfl
    · rw [given_asked, given_gave_self, hgiven]

/-- A loop that has come to its end has read all items, each of them once and in order. -/
theorem Consistent.loop {c : Cursor X} {vs : List α} (h : Consistent items tr cs)
    (hc : cs[j]? = some c) (hloop : tr.filter (Event.on j) = loopEvents j vs) :
    vs = items c.source := by
  obtain ⟨rounds, heq, hrounds⟩ := loopEvents_eq (X := X) j vs
  obtain ⟨before, rest, htr, hbefore, hrest⟩ := List.filter_eq_append_iff.mp (hloop.trans heq)
  obtain ⟨between, after, hsplit, hbetween, -, -⟩ := List.filter_eq_cons_iff.mp hrest
  have hgivenBetween : given j between = [] := by
    rw [← given_filter, List.filter_eq_nil_iff.mpr hbetween]
    rfl
  have hgiven : given j (before ++ between) = vs := by
    rw [given_append, hgivenBetween, List.append_nil, ← given_filter, hbefore, hrounds]
  have hcut : tr = (before ++ between) ++ .asked j false :: after := by
    rw [htr, hsplit, List.append_assoc]
  obtain ⟨x, hx, hanswer⟩ := h.truthful _ _ _ _ hcut
  have hsource : (sources tr)[j]? = some x := by
    rw [hcut, sources_append]
    exact List.getElem?_append_left (List.getElem?_eq_some_iff.mp hx).1 ▸ hx
  cases (h.source_eq hc).symm.trans hsource
  have hall : given j tr = vs := by
    rw [← given_filter, hloop, given_loopEvents]
  have hprefix := (h.given_eq j c hc).1
  rw [hall] at hprefix
  rw [hgiven] at hanswer
  have hge : (items c.source).length ≤ vs.length := Nat.not_lt.mp (of_decide_eq_false hanswer.symm)
  have htake : c.count = vs.length := (h.count_eq hc).symm.trans (congrArg List.length hall)
  rw [htake, List.take_of_length_le hge] at hprefix
  exact hprefix

end

end Cursors

end JeffVm
