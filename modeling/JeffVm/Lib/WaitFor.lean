import Mathlib.Data.Fintype.Card
import Mathlib.Data.Set.Finite.Basic
import Mathlib.Logic.Relation
import Mathlib.Order.WellFounded

/-!
# Wait-for graphs

A relation `r` where `r a b` says that `a` waits for `b`. In a finite set where each element
waits for one of the set, each leads to a cycle; and a cycle is kept by every change that keeps
the edges to elements that wait themselves.
-/

set_option autoImplicit false

namespace JeffVm

namespace WaitFor

universe u

variable {α : Type u} {r r' : α → α → Prop}

open Relation

/-- Nothing can wait in a finite set that leaves no way out, unless there is a cycle. -/
theorem exists_cycle {s : Set α} (hs : s.Finite) (hnext : ∀ a ∈ s, ∃ b ∈ s, r a b) {a : α}
    (ha : a ∈ s) : ∃ b, ReflTransGen r a b ∧ TransGen r b b := by
  by_contra hno
  have hirrefl : ∀ b, ReflTransGen r a b → ¬ TransGen r b b :=
    fun b hreach hcycle => hno ⟨b, hreach, hcycle⟩
  let reached : Set α := {b | b ∈ s ∧ ReflTransGen r a b}
  have hfinite : Finite reached := (hs.subset fun _ h => h.1).to_subtype
  let after (b c : reached) : Prop := TransGen r c.1 b.1
  have : IsTrans reached after := ⟨fun _ _ _ h h' => h'.trans h⟩
  have : Std.Irrefl after := ⟨fun b h => hirrefl b.1 b.2.2 h⟩
  -- An element that comes last still waits for one of the set.
  obtain ⟨last, -, hlast⟩ := (Finite.wellFounded_of_trans_of_irrefl after).has_min Set.univ
    ⟨⟨a, ha, .refl⟩, trivial⟩
  obtain ⟨b, hb, hwaits⟩ := hnext last.1 last.2.1
  exact hlast ⟨b, hb, last.2.2.tail hwaits⟩ trivial (.single hwaits)

/-- What is on a cycle waits for something. -/
theorem exists_next {a b : α} (h : TransGen r a b) : ∃ c, r a c := by
  obtain ⟨c, hac, -⟩ := TransGen.head'_iff.mp h
  exact ⟨c, hac⟩

theorem path_persists (hstep : ∀ a b c, r a b → r b c → r' a b) {a b c : α}
    (h : TransGen r a b) (hb : r b c) : TransGen r' a b := by
  induction h generalizing c with
  | single hab => exact .single (hstep _ _ _ hab hb)
  | tail _ hbc ih => exact (ih hbc).tail (hstep _ _ _ hbc hb)

/-- A cycle stays when the edges to what waits stay. -/
theorem cycle_persists (hstep : ∀ a b c, r a b → r b c → r' a b) {a : α}
    (h : TransGen r a a) : TransGen r' a a := by
  obtain ⟨b, hab⟩ := exists_next h
  exact path_persists hstep h hab

/-- There is no cycle where everything waits for something of higher rank. -/
theorem not_cycle_of_rank {β : Type u} [Preorder β] {rank : α → β}
    (hrank : ∀ a b, r a b → rank a < rank b) (a : α) : ¬ TransGen r a a := by
  intro h
  have hlt : ∀ b, TransGen r a b → rank a < rank b := by
    intro b hb
    induction hb with
    | single hab => exact hrank _ _ hab
    | tail _ hbc ih => exact ih.trans (hrank _ _ hbc)
  exact lt_irrefl _ (hlt a h)

end WaitFor

end JeffVm
