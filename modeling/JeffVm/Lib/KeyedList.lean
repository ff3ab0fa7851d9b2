import Mathlib.Data.List.Basic
import Mathlib.Data.List.Nodup
import Mathlib.Logic.Basic

/-!
# Keyed lists

An insertion-ordered table in which no two entries share a key. The invariant is a field,
so iteration in insertion order and lookup by key never disagree. Inserting an entry whose
key is present overwrites the old entry in place.
-/

set_option autoImplicit false

namespace JeffVm

universe u v

structure KeyedList {α : Type u} {κ : Type v} (key : α → κ) where
  entries : List α
  nodup : (entries.map key).Nodup

namespace KeyedList

variable {α : Type u} {κ : Type v} {key : α → κ}

instance [DecidableEq α] : DecidableEq (KeyedList key) := fun l m =>
  decidable_of_iff (l.entries = m.entries) (by cases l; cases m; simp)

@[ext]
theorem ext {l m : KeyedList key} (h : l.entries = m.entries) : l = m := by
  cases l
  cases m
  cases h
  rfl

def empty : KeyedList key := ⟨[], List.nodup_nil⟩

instance : Inhabited (KeyedList key) := ⟨empty⟩

@[simp] theorem entries_empty : (empty : KeyedList key).entries = [] := rfl

def keys (l : KeyedList key) : List κ := l.entries.map key

variable [DecidableEq κ]

def lookup (l : KeyedList key) (k : κ) : Option α := l.entries.find? (fun a => key a = k)

@[simp] theorem lookup_empty (k : κ) : (empty : KeyedList key).lookup k = none := rfl

theorem mem_of_lookup {l : KeyedList key} {k : κ} {a : α} (h : l.lookup k = some a) :
    a ∈ l.entries :=
  List.mem_of_find?_eq_some h

theorem lookup_eq_none_iff {l : KeyedList key} {k : κ} : l.lookup k = none ↔ k ∉ l.keys := by
  simp [lookup, keys, List.find?_eq_none]

theorem find_of_mem {as : List α} {a : α} (nodup : (as.map key).Nodup) (h : a ∈ as) :
    as.find? (fun b => key b = key a) = some a := by
  induction as with
  | nil => cases h
  | cons b bs ih =>
    simp only [List.map_cons, List.nodup_cons, List.mem_map, not_exists, not_and] at nodup
    rcases List.mem_cons.mp h with rfl | hmem
    · simp
    · have hne : key b ≠ key a := fun heq => nodup.1 a hmem heq.symm
      rw [List.find?_cons_of_neg (by simpa using hne)]
      exact ih nodup.2 hmem

theorem lookup_of_mem {l : KeyedList key} {a : α} (h : a ∈ l.entries) : l.lookup (key a) = some a :=
  find_of_mem l.nodup h

/-- Overwrite the entry with the key of `a`, or append `a` when there is none. -/
def insertEntry (key : α → κ) (a : α) : List α → List α
  | [] => [a]
  | b :: bs => if key b = key a then a :: bs else b :: insertEntry key a bs

theorem map_insertEntry (a : α) (as : List α) :
    (insertEntry key a as).map key =
      if key a ∈ as.map key then as.map key else as.map key ++ [key a] := by
  induction as with
  | nil => simp [insertEntry]
  | cons b bs ih =>
    by_cases heq : key b = key a
    · simp [insertEntry, heq]
    · have hne : key a ≠ key b := fun h => heq h.symm
      simp only [insertEntry, heq, if_false, List.map_cons, ih, List.mem_cons, hne, false_or]
      split <;> simp

theorem nodup_insertEntry {a : α} {as : List α} (nodup : (as.map key).Nodup) :
    ((insertEntry key a as).map key).Nodup := by
  rw [map_insertEntry]
  split
  · exact nodup
  · rename_i hnot
    exact List.nodup_append.mpr ⟨nodup, List.nodup_singleton _, by
      intro x hx y hy
      rw [List.mem_singleton] at hy
      subst hy
      exact fun heq => hnot (heq ▸ hx)⟩

theorem insertEntry_of_notMem {a : α} {as : List α} (h : key a ∉ as.map key) :
    insertEntry key a as = as ++ [a] := by
  induction as with
  | nil => rfl
  | cons b bs ih =>
    rw [List.map_cons, List.mem_cons, not_or] at h
    have hne : key b ≠ key a := fun heq => h.1 heq.symm
    simp [insertEntry, hne, ih h.2]

theorem find_insertEntry (a : α) (as : List α) (k : κ) :
    (insertEntry key a as).find? (fun b => key b = k) =
      if key a = k then some a else as.find? (fun b => key b = k) := by
  induction as with
  | nil => by_cases hk : key a = k <;> simp [insertEntry, hk]
  | cons b bs ih =>
    by_cases heq : key b = key a
    · by_cases hk : key a = k <;> simp [insertEntry, heq, hk]
    · simp only [insertEntry, heq, if_false, List.find?_cons]
      by_cases hb : key b = k
      · have hk : key a ≠ k := fun h => heq (hb.trans h.symm)
        simp [hb, hk]
      · simp [hb, ih]

theorem mem_insertEntry {a b : α} {as : List α} (h : a ∈ insertEntry key b as) :
    a = b ∨ a ∈ as := by
  induction as with
  | nil => exact .inl (List.mem_singleton.mp h)
  | cons c cs ih =>
    rw [insertEntry] at h
    split at h
    · rcases List.mem_cons.mp h with heq | hmem
      · exact .inl heq
      · exact .inr (List.mem_cons_of_mem c hmem)
    · rcases List.mem_cons.mp h with heq | hmem
      · exact .inr (heq ▸ List.mem_cons_self)
      · rcases ih hmem with heq | hmem
        · exact .inl heq
        · exact .inr (List.mem_cons_of_mem c hmem)

variable (key) in
/-- How often `f` has the value `x` on the entries. -/
theorem count_map_insertEntry {β : Type*} [DecidableEq β] (f : α → β) (a : α) (as : List α)
    (x : β) :
    ((insertEntry key a as).map f).count x +
        (as.find? (fun b => key b = key a)).elim 0 (fun b => if f b = x then 1 else 0) =
      (as.map f).count x + if f a = x then 1 else 0 := by
  induction as with
  | nil => simp [insertEntry, List.count_cons]
  | cons b bs ih =>
    by_cases heq : key b = key a
    · simp only [insertEntry, heq, if_true, List.map_cons, List.count_cons, beq_iff_eq,
        List.find?_cons_of_pos, decide_true, Option.elim_some]
      omega
    · rw [List.find?_cons_of_neg (by simpa using heq)]
      simp only [insertEntry, heq, if_false, List.map_cons, List.count_cons]
      omega

def insert (l : KeyedList key) (a : α) : KeyedList key :=
  ⟨insertEntry key a l.entries, nodup_insertEntry l.nodup⟩

@[simp] theorem lookup_insert (l : KeyedList key) (a : α) (k : κ) :
    (l.insert a).lookup k = if key a = k then some a else l.lookup k :=
  find_insertEntry a l.entries k

theorem lookup_insert_self (l : KeyedList key) (a : α) : (l.insert a).lookup (key a) = some a := by
  simp

theorem lookup_insert_ne {l : KeyedList key} {a : α} {k : κ} (h : key a ≠ k) :
    (l.insert a).lookup k = l.lookup k := by
  simp [h]

theorem entries_insert_of_notMem {l : KeyedList key} {a : α} (h : key a ∉ l.keys) :
    (l.insert a).entries = l.entries ++ [a] :=
  insertEntry_of_notMem h

theorem mem_foldl_insert {β : Type*} (g : β → α) {a : α} {bs : List β} {l : KeyedList key}
    (h : a ∈ (bs.foldl (fun l b => l.insert (g b)) l).entries) :
    a ∈ l.entries ∨ ∃ b ∈ bs, a = g b := by
  induction bs generalizing l with
  | nil => exact .inl h
  | cons b bs ih =>
    rcases ih h with hmem | ⟨c, hc, heq⟩
    · rcases mem_insertEntry hmem with heq | hmem
      · exact .inr ⟨b, List.mem_cons_self, heq⟩
      · exact .inl hmem
    · exact .inr ⟨c, List.mem_cons_of_mem b hc, heq⟩

/-- Inserting entries with new and distinct keys appends them in order. -/
theorem entries_foldl_insert {as : List α} :
    ∀ {l : KeyedList key}, (l.keys ++ as.map key).Nodup →
      (as.foldl insert l).entries = l.entries ++ as := by
  induction as with
  | nil =>
    intro l _
    simp
  | cons a as ih =>
    intro l hnodup
    have hnew : key a ∉ l.keys := by
      intro hmem
      exact (List.nodup_append.mp hnodup).2.2 _ hmem _ (by simp) rfl
    have hentries := entries_insert_of_notMem hnew
    have hkeys : (l.insert a).keys = l.keys ++ [key a] := by simp [keys, hentries]
    rw [List.foldl_cons, ih, hentries, List.append_assoc, List.singleton_append]
    rw [hkeys, List.append_assoc]
    exact hnodup

/-- Apply a key-preserving `f` to every entry. -/
def map (l : KeyedList key) (f : α → α) (hf : ∀ a, key (f a) = key a) : KeyedList key where
  entries := l.entries.map f
  nodup := by
    have hkeys : (l.entries.map f).map key = l.entries.map key := by
      rw [List.map_map]
      exact List.map_congr_left (fun a _ => hf a)
    rw [hkeys]
    exact l.nodup

omit [DecidableEq κ] in
@[simp] theorem entries_map (l : KeyedList key) (f : α → α) (hf : ∀ a, key (f a) = key a) :
    (l.map f hf).entries = l.entries.map f := rfl

/-- Apply a key-preserving `f` to the entry under `k`. -/
def modify (l : KeyedList key) (k : κ) (f : α → α) (hf : ∀ a, key (f a) = key a) :
    KeyedList key :=
  l.map (fun a => if key a = k then f a else a) (by
    intro a
    by_cases hk : key a = k <;> simp [hk, hf])

@[simp] theorem entries_modify (l : KeyedList key) (k : κ) (f : α → α)
    (hf : ∀ a, key (f a) = key a) :
    (l.modify k f hf).entries = l.entries.map (fun a => if key a = k then f a else a) := rfl

/-- Only the last entry has the last key. -/
theorem entries_modify_last {l : KeyedList key} {as : List α} {a : α}
    (hl : l.entries = as ++ [a]) (f : α → α) (hf : ∀ a, key (f a) = key a) :
    (l.modify (key a) f hf).entries = as ++ [f a] := by
  have hnodup := l.nodup
  rw [hl, List.map_append, List.nodup_append] at hnodup
  rw [entries_modify, hl, List.map_append]
  congr 1
  · conv => rhs; rw [← List.map_id as]
    apply List.map_congr_left
    intro b hb
    have hne : key b ≠ key a := hnodup.2.2 _ (List.mem_map_of_mem hb) _ (by simp)
    simp [hne]
  · simp

end KeyedList

end JeffVm
