import Mathlib.Data.Finset.Card
import Mathlib.Data.Finset.Filter
import Mathlib.Data.Finset.Range
import Mathlib.Logic.Function.Basic

/-!
# Memo tables

Results that are kept once they are found. Over a finite set the number of elements without a
result bounds how often a new one can be found.
-/

set_option autoImplicit false

namespace JeffVm

universe u v

/-- `m'` keeps the results of `m`. -/
def Memo.Le {α : Type u} {β : Type v} (m m' : α → Option β) : Prop :=
  ∀ a b, m a = some b → m' a = some b

namespace Memo

variable {α : Type u} {β : Type v} {m m' m'' : α → Option β} {a : α} {b : β}

theorem Le.refl (m : α → Option β) : Le m m := fun _ _ h => h

theorem Le.trans (h : Le m m') (h' : Le m' m'') : Le m m'' := fun a b hab => h' a b (h a b hab)

theorem Le.isSome (h : Le m m') (ha : (m a).isSome = true) : (m' a).isSome = true := by
  obtain ⟨b, hb⟩ := Option.isSome_iff_exists.mp ha
  rw [h a b hb]
  rfl

theorem Le.getD_eq (h : Le m m') (ha : (m a).isSome = true) : (m' a).getD b = (m a).getD b := by
  obtain ⟨b', hb⟩ := Option.isSome_iff_exists.mp ha
  rw [hb, h a b' hb]

theorem le_update [DecidableEq α] (ha : m a = none) : Le m (Function.update m a (some b)) := by
  intro a' b' h
  have hne : a' ≠ a := by
    rintro rfl
    rw [ha] at h
    cases h
  rw [Function.update_of_ne hne, h]

/-- The elements of `s` without a result. -/
def unvisited (s : Finset α) (m : α → Option β) : Finset α := s.filter fun a => (m a).isNone = true

theorem mem_unvisited {s : Finset α} : a ∈ unvisited s m ↔ a ∈ s ∧ m a = none := by
  rw [unvisited, Finset.mem_filter, Option.isNone_iff_eq_none]

theorem unvisited_le {s : Finset α} (h : Le m m') :
    (unvisited s m').card ≤ (unvisited s m).card := by
  apply Finset.card_le_card
  intro a ha
  rw [mem_unvisited] at ha ⊢
  refine ⟨ha.1, ?_⟩
  by_contra hm
  obtain ⟨b, hb⟩ := Option.ne_none_iff_exists'.mp hm
  rw [h a b hb] at ha
  cases ha.2

theorem unvisited_update [DecidableEq α] {s : Finset α} (hs : a ∈ s) (ha : m a = none) :
    (unvisited s (Function.update m a (some b))).card < (unvisited s m).card := by
  have hsub : unvisited s (Function.update m a (some b)) ⊆ unvisited s m := by
    intro a' ha'
    rw [mem_unvisited] at ha' ⊢
    refine ⟨ha'.1, ?_⟩
    by_cases heq : a' = a
    · rw [heq, ha]
    · rw [← ha'.2, Function.update_of_ne heq]
  have hnot : a ∉ unvisited s (Function.update m a (some b)) := by
    rw [mem_unvisited, Function.update_self]
    exact fun h => nomatch h.2
  exact Finset.card_lt_card
    (Finset.ssubset_iff_subset_ne.mpr ⟨hsub, fun heq => hnot (heq ▸ mem_unvisited.mpr ⟨hs, ha⟩)⟩)

end Memo

end JeffVm
