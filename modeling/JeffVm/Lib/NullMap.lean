import Mathlib.Order.Basic
import JeffVm.Lib.Association

/-!
# Maps that answer with a null value

A lookup of an absent key gives `null`, so absence is told from presence by comparing with it.
A key whose last stored value is `null` itself is taken for an absent one.
-/

set_option autoImplicit false

universe u v w

namespace JeffVm

open Association

/-- The operations of a map. -/
structure NullMap (κ : Type u) (ν : Type v) where
  Map : Type w
  empty : Map
  insert : Map → κ → ν → Map
  lookup : Map → κ → ν

namespace NullMap

variable {κ : Type u} {ν : Type v}

/-- An absent key is found as `null`, and an insert sets the value of its own key only. -/
structure Lawful (M : NullMap.{u, v, w} κ ν) (null : ν) : Prop where
  lookup_empty : ∀ k, M.lookup M.empty k = null
  lookup_insert : ∀ m k v, M.lookup (M.insert m k v) k = v
  lookup_insert_ne : ∀ m k k' v, k' ≠ k → M.lookup (M.insert m k v) k' = M.lookup m k'

/-- The map after a list of stores, in order. -/
def insertAll (M : NullMap.{u, v, w} κ ν) (m : M.Map) (stores : List (κ × ν)) : M.Map :=
  stores.foldl (fun m s => M.insert m s.1 s.2) m

variable {M : NullMap.{u, v, w} κ ν} {null : ν} {stores : List (κ × ν)}

theorem insertAll_append (m : M.Map) (k : κ) (v : ν) :
    M.insertAll m (stores ++ [(k, v)]) = M.insert (M.insertAll m stores) k v :=
  List.foldl_append

variable [DecidableEq κ]

/-- The value of the last store under `k`. -/
abbrev lastOf (k : κ) (stores : List (κ × ν)) : Option ν :=
  lastStored (fun k k' => decide (k = k')) k stores

theorem lastOf_append {k k' : κ} {v : ν} :
    lastOf k' (stores ++ [(k, v)]) = if k' = k then some v else lastOf k' stores := by
  rw [lastOf, lastStored_append]
  simp only [decide_eq_true_eq]

theorem lookup_insertAll (h : M.Lawful null) (k : κ) :
    M.lookup (M.insertAll M.empty stores) k = (lastOf k stores).getD null := by
  induction stores using List.reverseRecOn with
  | nil => exact h.lookup_empty k
  | append_singleton stores s ih =>
    obtain ⟨k', v⟩ := s
    rw [insertAll_append, lastOf_append]
    by_cases heq : k = k'
    · subst heq
      rw [h.lookup_insert, if_pos rfl]
      rfl
    · rw [h.lookup_insert_ne _ _ _ _ heq, if_neg heq, ih]

/-- Some value is stored under `k` exactly when a last one is. -/
theorem lastOf_isSome {k : κ} : (lastOf k stores).isSome = true ↔ ∃ v, (k, v) ∈ stores := by
  induction stores using List.reverseRecOn with
  | nil => exact ⟨fun h => absurd h Bool.false_ne_true, fun ⟨_, hv⟩ => absurd hv List.not_mem_nil⟩
  | append_singleton stores s ih =>
    obtain ⟨k', v⟩ := s
    rw [lastOf_append]
    by_cases heq : k = k'
    · subst heq
      rw [if_pos rfl]
      exact ⟨fun _ => ⟨v, List.mem_append_right _ List.mem_cons_self⟩, fun _ => rfl⟩
    · rw [if_neg heq, ih]
      constructor
      · intro ⟨w, hw⟩
        exact ⟨w, List.mem_append_left _ hw⟩
      · intro ⟨w, hw⟩
        rcases List.mem_append.mp hw with hold | hnew
        · exact ⟨w, hold⟩
        · cases List.mem_singleton.mp hnew
          exact absurd rfl heq

theorem mem_of_lastOf {k : κ} {v : ν} (h : lastOf k stores = some v) : (k, v) ∈ stores := by
  induction stores using List.reverseRecOn with
  | nil => cases h
  | append_singleton stores s ih =>
    obtain ⟨k', w⟩ := s
    rw [lastOf_append] at h
    by_cases heq : k = k'
    · subst heq
      rw [if_pos rfl] at h
      cases h
      exact List.mem_append_right _ List.mem_cons_self
    · rw [if_neg heq] at h
      exact List.mem_append_left _ (ih h)

/-- When the stored values grow, the last one under a key is the greatest. -/
theorem le_of_lastOf [Preorder ν] {k : κ} {v w : ν} (h : stores.Pairwise fun s s' => s.2 < s'.2)
    (hv : lastOf k stores = some v) (hw : (k, w) ∈ stores) : w ≤ v := by
  induction stores using List.reverseRecOn with
  | nil => cases hv
  | append_singleton stores s ih =>
    obtain ⟨k', u⟩ := s
    obtain ⟨hstores, -, hlast⟩ := List.pairwise_append.mp h
    rw [lastOf_append] at hv
    by_cases heq : k = k'
    · subst heq
      rw [if_pos rfl] at hv
      cases hv
      rcases List.mem_append.mp hw with hold | hnew
      · exact le_of_lt (hlast _ hold _ List.mem_cons_self)
      · cases List.mem_singleton.mp hnew
        exact le_rfl
    · rw [if_neg heq] at hv
      rcases List.mem_append.mp hw with hold | hnew
      · exact ih hstores hv hold
      · cases List.mem_singleton.mp hnew
        exact absurd rfl heq

/-- When the stored values grow from the null value on, a key is told from an absent one exactly
by the values above it. -/
theorem lookup_ne_null_iff [PartialOrder ν] (h : M.Lawful null)
    (hgrow : stores.Pairwise fun s s' => s.2 < s'.2) (hnull : ∀ s ∈ stores, null ≤ s.2) (k : κ) :
    M.lookup (M.insertAll M.empty stores) k ≠ null ↔ ∃ v, null < v ∧ (k, v) ∈ stores := by
  rw [lookup_insertAll h]
  constructor
  · intro hne
    cases hlast : lastOf k stores with
    | none =>
      rw [hlast] at hne
      exact absurd rfl hne
    | some v =>
      rw [hlast] at hne
      have hmem := mem_of_lastOf hlast
      exact ⟨v, lt_of_le_of_ne (hnull _ hmem) (Ne.symm hne), hmem⟩
  · intro ⟨v, hv, hmem⟩
    obtain ⟨w, hw⟩ := Option.isSome_iff_exists.mp (lastOf_isSome.mpr ⟨v, hmem⟩)
    rw [hw]
    exact ne_of_gt (lt_of_lt_of_le hv (le_of_lastOf hgrow hw hmem))

/-! ## Functions as maps -/

/-- The map that a function with `null` at the absent keys is. -/
def ofFun (null : ν) : NullMap κ ν where
  Map := κ → ν
  empty := fun _ => null
  insert := fun m k v k' => if k' = k then v else m k'
  lookup := fun m k => m k

theorem ofFun_lawful (null : ν) : (ofFun null : NullMap κ ν).Lawful null where
  lookup_empty _ := rfl
  lookup_insert _ _ _ := if_pos rfl
  lookup_insert_ne _ _ _ _ h := if_neg h

end NullMap

end JeffVm
