import Mathlib.Data.List.Basic
import Mathlib.Tactic.Common

/-!
# Editing lists

An edit keeps, changes or drops each element of a list by its index. What is kept moves to
the position that counts the kept elements before it, in the same order.
-/

set_option autoImplicit false

namespace JeffVm.Editing

universe u v

variable {α : Type u} {β : Type v}

/-- The elements that `f` keeps, each with the index it had; the first one has index `i`. -/
def edited (f : Nat → α → Option β) : Nat → List α → List (Nat × β)
  | _, [] => []
  | i, a :: as =>
    match f i a with
    | none => edited f (i + 1) as
    | some b => (i, b) :: edited f (i + 1) as

/-- The number of elements kept before index `i`. -/
def position (f : Nat → α → Option β) (as : List α) (i : Nat) : Nat :=
  (edited f 0 (as.take i)).length

variable {f : Nat → α → Option β}

theorem edited_cons_none {a : α} {as : List α} {i : Nat} (h : f i a = none) :
    edited f i (a :: as) = edited f (i + 1) as := by
  rw [edited, h]

theorem edited_cons_some {a : α} {as : List α} {i : Nat} {b : β} (h : f i a = some b) :
    edited f i (a :: as) = (i, b) :: edited f (i + 1) as := by
  rw [edited, h]

theorem edited_append (as bs : List α) (i : Nat) :
    edited f i (as ++ bs) = edited f i as ++ edited f (i + as.length) bs := by
  induction as generalizing i with
  | nil => rfl
  | cons a as ih =>
    have hlen : i + (a :: as).length = i + 1 + as.length := by
      rw [List.length_cons]
      omega
    rw [hlen]
    cases ha : f i a with
    | none => rw [List.cons_append, edited_cons_none ha, edited_cons_none ha, ih]
    | some b =>
      rw [List.cons_append, edited_cons_some ha, edited_cons_some ha, ih, List.cons_append]

@[simp] theorem position_zero (as : List α) : position f as 0 = 0 := rfl

theorem edited_split {as : List α} {i : Nat} {a : α} (h : as[i]? = some a) :
    edited f 0 as =
      edited f 0 (as.take i) ++ edited f i (a :: as.drop (i + 1)) := by
  obtain ⟨hi, rfl⟩ := List.getElem?_eq_some_iff.mp h
  have hlen : 0 + (as.take i).length = i := by
    rw [List.length_take]
    omega
  conv_lhs => rw [← List.take_append_drop i as, edited_append, hlen,
    List.drop_eq_getElem_cons hi]

theorem position_succ_none {as : List α} {i : Nat} {a : α} (h : as[i]? = some a)
    (hf : f i a = none) : position f as (i + 1) = position f as i := by
  obtain ⟨hi, rfl⟩ := List.getElem?_eq_some_iff.mp h
  have hlen : 0 + (as.take i).length = i := by
    rw [List.length_take]
    omega
  unfold position
  rw [List.take_succ_eq_append_getElem hi, edited_append, hlen, edited_cons_none hf]
  simp [edited]

theorem position_succ_some {as : List α} {i : Nat} {a : α} {b : β} (h : as[i]? = some a)
    (hf : f i a = some b) : position f as (i + 1) = position f as i + 1 := by
  obtain ⟨hi, rfl⟩ := List.getElem?_eq_some_iff.mp h
  have hlen : 0 + (as.take i).length = i := by
    rw [List.length_take]
    omega
  unfold position
  rw [List.take_succ_eq_append_getElem hi, edited_append, hlen, edited_cons_some hf]
  simp [edited]

/-- A kept element is found at its new position. -/
theorem getElem?_position {as : List α} {i : Nat} {a : α} {b : β} (h : as[i]? = some a)
    (hf : f i a = some b) : (edited f 0 as)[position f as i]? = some (i, b) := by
  rw [edited_split h, edited_cons_some hf]
  unfold position
  rw [List.getElem?_append_right (Nat.le_refl _), Nat.sub_self]
  rfl

theorem mem_edited {as : List α} {s i : Nat} {b : β} :
    (i, b) ∈ edited f s as ↔ ∃ a, s ≤ i ∧ as[i - s]? = some a ∧ f i a = some b := by
  induction as generalizing s with
  | nil => simp [edited]
  | cons a as ih =>
    have htail : (∃ a', s + 1 ≤ i ∧ as[i - (s + 1)]? = some a' ∧ f i a' = some b) ↔
        ∃ a', s < i ∧ (a :: as)[i - s]? = some a' ∧ f i a' = some b := by
      refine exists_congr fun a' => ⟨fun ⟨hle, ha, hb⟩ => ⟨hle, ?_, hb⟩,
        fun ⟨hlt, ha, hb⟩ => ⟨hlt, ?_, hb⟩⟩
      · have hsub : i - s = i - (s + 1) + 1 := by omega
        rw [hsub, List.getElem?_cons_succ]
        exact ha
      · have hsub : i - s = i - (s + 1) + 1 := by omega
        rw [hsub, List.getElem?_cons_succ] at ha
        exact ha
    have hhead : (∃ a', s ≤ i ∧ (a :: as)[i - s]? = some a' ∧ f i a' = some b) ↔
        (i = s ∧ f s a = some b) ∨ ∃ a', s < i ∧ (a :: as)[i - s]? = some a' ∧ f i a' = some b := by
      constructor
      · rintro ⟨a', hle, ha, hb⟩
        rcases Nat.eq_or_lt_of_le hle with rfl | hlt
        · rw [Nat.sub_self] at ha
          cases ha
          exact .inl ⟨rfl, hb⟩
        · exact .inr ⟨a', hlt, ha, hb⟩
      · rintro (⟨rfl, hb⟩ | ⟨a', hlt, ha, hb⟩)
        · exact ⟨a, Nat.le_refl _, by rw [Nat.sub_self]; rfl, hb⟩
        · exact ⟨a', Nat.le_of_lt hlt, ha, hb⟩
    rw [hhead, ← htail, ← ih]
    cases hf : f s a with
    | none =>
      rw [edited_cons_none hf]
      exact ⟨.inr, fun h => h.resolve_left fun h => nomatch h.2⟩
    | some b' =>
      rw [edited_cons_some hf, List.mem_cons, Prod.mk.injEq]
      refine or_congr_left ⟨fun ⟨hi, hb⟩ => ⟨hi, by rw [hb]⟩, fun ⟨hi, hb⟩ => ⟨hi, ?_⟩⟩
      exact (Option.some.inj hb).symm

/-- Indices increase along the edited list. -/
theorem edited_pairwise (as : List α) (s : Nat) :
    (edited f s as).Pairwise fun p q => p.1 < q.1 := by
  induction as generalizing s with
  | nil => exact .nil
  | cons a as ih =>
    cases hf : f s a with
    | none =>
      rw [edited_cons_none hf]
      exact ih (s + 1)
    | some b =>
      rw [edited_cons_some hf]
      refine List.pairwise_cons.mpr ⟨?_, ih (s + 1)⟩
      rintro ⟨i, c⟩ hmem
      obtain ⟨-, hle, -, -⟩ := mem_edited.mp hmem
      exact hle

theorem edited_nodup (as : List α) (s : Nat) : ((edited f s as).map Prod.fst).Nodup := by
  rw [List.nodup_iff_pairwise_ne, List.pairwise_map]
  exact (edited_pairwise as s).imp fun h => Nat.ne_of_lt h

/-- What stands at a position is the element that moved there. -/
theorem getElem?_edited {as : List α} {i j : Nat} {b : β} :
    (edited f 0 as)[j]? = some (i, b) ↔
      ∃ a, as[i]? = some a ∧ f i a = some b ∧ j = position f as i := by
  constructor
  · intro h
    obtain ⟨a, -, ha, hf⟩ := mem_edited.mp (List.mem_of_getElem? h)
    rw [Nat.sub_zero] at ha
    refine ⟨a, ha, hf, ?_⟩
    have hj : ((edited f 0 as).map Prod.fst)[j]? = some i := by rw [List.getElem?_map, h]; rfl
    have hp : ((edited f 0 as).map Prod.fst)[position f as i]? = some i := by
      rw [List.getElem?_map, getElem?_position ha hf]
      rfl
    have hlt := (List.getElem?_eq_some_iff.mp hj).1
    exact (List.getElem?_inj hlt (edited_nodup as 0)).mp (hj.trans hp.symm)
  · rintro ⟨a, ha, hf, rfl⟩
    exact getElem?_position ha hf

theorem position_eq_length {as : List α} {i : Nat} (h : as.length ≤ i) :
    position f as i = (edited f 0 as).length := by
  rw [position, List.take_of_length_le h]

theorem position_mono {as : List α} {i j : Nat} (h : i ≤ j) :
    position f as i ≤ position f as j := by
  obtain ⟨k, rfl⟩ := Nat.exists_eq_add_of_le h
  have htake : as.take (i + k) = as.take i ++ (as.drop i).take k := List.take_add
  rw [position, position, htake, edited_append, List.length_append]
  exact Nat.le_add_right _ _

/-- Index `k` of the edited list is that of the first element kept at or after index `i`, or the
end of the list when there is none. -/
def FirstKept (f : Nat → α → Option β) (as : List α) (i k : Nat) : Prop :=
  (∃ m b, i ≤ m ∧ (edited f 0 as)[k]? = some (m, b) ∧
    ∀ l a, i ≤ l → l < m → as[l]? = some a → f l a = none) ∨
  (k = (edited f 0 as).length ∧ ∀ l a, i ≤ l → as[l]? = some a → f l a = none)

theorem firstKept_position (as : List α) (i : Nat) : FirstKept f as i (position f as i) := by
  induction hn : as.length - i generalizing i with
  | zero =>
    refine .inr ⟨position_eq_length (Nat.le_of_sub_eq_zero hn), ?_⟩
    intro l a hl ha
    have hlt := (List.getElem?_eq_some_iff.mp ha).1
    omega
  | succ n ih =>
    have hi : i < as.length := by omega
    have hat : as[i]? = some as[i] := List.getElem?_eq_getElem hi
    cases hf : f i as[i] with
    | some b =>
      refine .inl ⟨i, b, Nat.le_refl i, getElem?_position hat hf, ?_⟩
      intro l a hl hlt
      exact absurd hlt (Nat.not_lt.mpr hl)
    | none =>
      have hdrop : ∀ l a, i ≤ l → as[l]? = some a → i + 1 ≤ l ∨ f l a = none := by
        intro l a hl ha
        rcases Nat.eq_or_lt_of_le hl with rfl | hlt
        · rw [hat] at ha
          cases ha
          exact .inr hf
        · exact .inl hlt
      have hrest := ih (i + 1) (by omega)
      rw [position_succ_none hat hf] at hrest
      rcases hrest with ⟨m, b, hm, hk, hnone⟩ | ⟨hk, hnone⟩
      · refine .inl ⟨m, b, Nat.le_of_succ_le hm, hk, ?_⟩
        intro l a hl hlt ha
        rcases hdrop l a hl ha with hle | hdropped
        · exact hnone l a hle hlt ha
        · exact hdropped
      · refine .inr ⟨hk, ?_⟩
        intro l a hl ha
        rcases hdrop l a hl ha with hle | hdropped
        · exact hnone l a hle ha
        · exact hdropped

end JeffVm.Editing
