import Mathlib.Data.List.Basic
import Mathlib.Data.List.Count

/-!
# Memory graphs

Nodes with counted edges and roots. A collection deletes the nodes that no path of edges from
a root reaches, with their edges. Edges that are added before a collection and taken away
after it leave the counts of the edges between the nodes that stay.
-/

set_option autoImplicit false

universe u

structure MGraph (ν : Type u) where
  root : ν → Prop
  edges : ν → ν → Nat

namespace MGraph

variable {ν : Type u}

inductive Reachable (g : MGraph ν) : ν → Prop where
  | root {a : ν} : g.root a → Reachable g a
  | edge {a b : ν} : Reachable g a → 0 < g.edges a b → Reachable g b

/-- A set with the roots that edges do not leave has every reachable node. -/
theorem Reachable.mem {g : MGraph ν} {S : ν → Prop} (hroot : ∀ a, g.root a → S a)
    (hedge : ∀ a b, S a → 0 < g.edges a b → S b) {a : ν} (h : g.Reachable a) : S a := by
  induction h with
  | root h => exact hroot _ h
  | edge _ h ih => exact hedge _ _ ih h

open Classical in
/-- What is left after a collection. -/
noncomputable def collect (g : MGraph ν) : MGraph ν where
  root := g.root
  edges a b := if g.Reachable a ∧ g.Reachable b then g.edges a b else 0

variable [DecidableEq ν]

def inc (g : MGraph ν) (a b : ν) : MGraph ν :=
  { g with edges := fun x y => if x = a ∧ y = b then g.edges x y + 1 else g.edges x y }

def dec (g : MGraph ν) (a b : ν) : MGraph ν :=
  { g with edges := fun x y => if x = a ∧ y = b then g.edges x y - 1 else g.edges x y }

def incAll (g : MGraph ν) (es : List (ν × ν)) : MGraph ν := es.foldl (fun g e => g.inc e.1 e.2) g

def decAll (g : MGraph ν) (es : List (ν × ν)) : MGraph ν := es.foldl (fun g e => g.dec e.1 e.2) g

theorem count_cons_pair (e : ν × ν) (es : List (ν × ν)) (a b : ν) :
    (e :: es).count (a, b) = es.count (a, b) + if a = e.1 ∧ b = e.2 then 1 else 0 := by
  obtain ⟨x, y⟩ := e
  rw [List.count_cons]
  congr 1
  by_cases h : a = x ∧ b = y
  · obtain ⟨rfl, rfl⟩ := h
    simp
  · rw [if_neg h, if_neg]
    intro heq
    simp only [beq_iff_eq, Prod.mk.injEq] at heq
    exact h ⟨heq.1.symm, heq.2.symm⟩

theorem edges_incAll (g : MGraph ν) (es : List (ν × ν)) (a b : ν) :
    (g.incAll es).edges a b = g.edges a b + es.count (a, b) := by
  induction es generalizing g with
  | nil => rfl
  | cons e es ih =>
    rw [incAll, List.foldl_cons]
    refine (ih (g.inc e.1 e.2)).trans ?_
    rw [count_cons_pair]
    simp only [inc]
    split <;> omega

theorem edges_decAll (g : MGraph ν) (es : List (ν × ν)) (a b : ν) :
    (g.decAll es).edges a b = g.edges a b - es.count (a, b) := by
  induction es generalizing g with
  | nil => rfl
  | cons e es ih =>
    rw [decAll, List.foldl_cons]
    refine (ih (g.dec e.1 e.2)).trans ?_
    rw [count_cons_pair]
    simp only [dec]
    split <;> omega

@[simp] theorem root_incAll (g : MGraph ν) (es : List (ν × ν)) : (g.incAll es).root = g.root := by
  induction es generalizing g with
  | nil => rfl
  | cons e es ih => exact ih (g.inc e.1 e.2)

theorem edges_incAll_pos {g : MGraph ν} {es : List (ν × ν)} {a b : ν} :
    0 < (g.incAll es).edges a b ↔ 0 < g.edges a b ∨ (a, b) ∈ es := by
  rw [edges_incAll, ← List.count_pos_iff]
  omega

/-- A collection between the adding and the taking away of edges. -/
theorem edges_collect_between (g : MGraph ν) (es : List (ν × ν)) {a b : ν}
    (ha : (g.incAll es).Reachable a) (hb : (g.incAll es).Reachable b) :
    (((g.incAll es).collect).decAll es).edges a b = g.edges a b := by
  rw [edges_decAll, collect]
  simp only [ha, hb, and_self, if_true, edges_incAll]
  omega

theorem edges_collect_deleted (g : MGraph ν) (es : List (ν × ν)) {a b : ν}
    (h : ¬ ((g.incAll es).Reachable a ∧ (g.incAll es).Reachable b)) :
    (((g.incAll es).collect).decAll es).edges a b = 0 := by
  rw [edges_decAll, collect]
  simp only [if_neg h]
  omega

end MGraph
