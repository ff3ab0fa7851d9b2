import Mathlib.Data.List.Basic
import Mathlib.Data.List.Induction

/-!
# Association lists up to an equality of keys

Keys are compared by a function that is an equivalence on the keys in use. The last store under
a key, the keys in the order of their first store, and what a list of entries says of them.
-/

set_option autoImplicit false

universe u v

namespace JeffVm

namespace Association

variable {κ : Type u} {ν : Type v}

/-- On these keys the comparison is an equivalence. -/
structure EquivalenceOn (eq : κ → κ → Bool) (P : κ → Prop) : Prop where
  refl : ∀ k, P k → eq k k = true
  symm : ∀ k k', P k → P k' → eq k k' = true → eq k' k = true
  trans : ∀ k k' k'', P k → P k' → P k'' → eq k k' = true → eq k' k'' = true → eq k k'' = true

section Definitions

variable (eq : κ → κ → Bool)

/-- The value of the first entry under a key that `k` is equal to. -/
def lookup (k : κ) (entries : List (κ × ν)) : Option ν :=
  (entries.find? fun e => eq k e.1).map Prod.snd

/-- The place of that entry. -/
def place (k : κ) (entries : List (κ × ν)) : Option Nat := entries.findIdx? fun e => eq k e.1

/-- The value of the last store under a key that `k` is equal to. -/
def lastStored (k : κ) (stores : List (κ × ν)) : Option ν := lookup eq k stores.reverse

/-- The keys in the order of their first store. -/
def insertionKeys (stores : List (κ × ν)) : List κ :=
  stores.foldl (fun keys s => if keys.any (eq s.1) then keys else keys ++ [s.1]) []

end Definitions

variable {eq : κ → κ → Bool} {P : κ → Prop} {k k' x : κ} {v : ν} {entries stores : List (κ × ν)}

theorem EquivalenceOn.congr (h : EquivalenceOn eq P) (hk : P k) (hk' : P k') (hx : P x)
    (heq : eq k' k = true) : eq k' x = eq k x := by
  cases hkx : eq k x with
  | true => exact h.trans k' k x hk' hk hx heq hkx
  | false =>
    rw [Bool.eq_false_iff]
    intro hk'x
    have heq' : eq k k' = true := h.symm k' k hk' hk heq
    rw [h.trans k k' x hk hk' hx heq' hk'x] at hkx
    cases hkx

theorem lookup_cons (e : κ × ν) :
    lookup eq k (e :: entries) = if eq k e.1 = true then some e.2 else lookup eq k entries := by
  rw [lookup, List.find?_cons]
  cases eq k e.1 with
  | true => rfl
  | false => rfl

/-- Keys that are equal have the same entry. -/
theorem lookup_congr (h : EquivalenceOn eq P) (hk : P k) (hk' : P k')
    (hentries : ∀ e ∈ entries, P e.1) (heq : eq k' k = true) :
    lookup eq k' entries = lookup eq k entries := by
  induction entries with
  | nil => rfl
  | cons e entries ih =>
    have hrest := ih fun e' he' => hentries e' (List.mem_cons_of_mem _ he')
    rw [lookup_cons, lookup_cons, hrest,
      h.congr hk hk' (hentries e List.mem_cons_self) heq]

theorem lookup_append (rest : List (κ × ν)) :
    lookup eq k (entries ++ rest) = (lookup eq k entries).or (lookup eq k rest) := by
  induction entries with
  | nil => rfl
  | cons e entries ih =>
    rw [List.cons_append, lookup_cons, lookup_cons, ih]
    cases eq k e.1 with
    | true => rfl
    | false => rfl

/-- A new entry behind the others. -/
theorem lookup_new (h : EquivalenceOn eq P) (hk : P k) (hk' : P k')
    (hentries : ∀ e ∈ entries, P e.1) (hnew : lookup eq k entries = none) :
    lookup eq k' (entries ++ [(k, v)]) =
      if eq k' k = true then some v else lookup eq k' entries := by
  rw [lookup_append, lookup_cons]
  by_cases heq : eq k' k = true
  · rw [if_pos heq, if_pos heq, lookup_congr h hk hk' hentries heq, hnew]
    rfl
  · rw [if_neg heq, if_neg heq]
    exact Option.or_none

theorem place_cons (e : κ × ν) :
    place eq k (e :: entries) =
      if eq k e.1 = true then some 0 else (place eq k entries).map fun i => i + 1 := by
  rw [place, List.findIdx?_cons]
  rfl

theorem place_eq_none_iff : place eq k entries = none ↔ lookup eq k entries = none := by
  rw [place, lookup, List.findIdx?_eq_none_iff, Option.map_eq_none_iff, List.find?_eq_none]
  exact forall₂_congr fun e _ => (Bool.not_eq_true _).symm.to_iff

/-- The entry at the place of a key has the value of the key. -/
theorem getElem_place {i : Nat} (hplace : place eq k entries = some i) :
    ∃ e, entries[i]? = some e ∧ lookup eq k entries = some e.2 := by
  induction entries generalizing i with
  | nil => cases hplace
  | cons e entries ih =>
    rw [place_cons] at hplace
    rw [lookup_cons]
    by_cases heq : eq k e.1 = true
    · rw [if_pos heq] at hplace ⊢
      cases hplace
      exact ⟨e, rfl, rfl⟩
    · rw [if_neg heq] at hplace ⊢
      obtain ⟨j, hj, rfl⟩ := Option.map_eq_some_iff.mp hplace
      obtain ⟨e', he', hlookup⟩ := ih hj
      exact ⟨e', he', hlookup⟩

/-- The entry of a key is overwritten in its place. -/
theorem lookup_set (h : EquivalenceOn eq P) (hk : P k) (hk' : P k') {i : Nat}
    (hentries : ∀ e ∈ entries, P e.1) (hplace : place eq k entries = some i) :
    lookup eq k' (entries.set i (k, v)) =
      if eq k' k = true then some v else lookup eq k' entries := by
  induction entries generalizing i with
  | nil => cases hplace
  | cons e entries ih =>
    rw [place_cons] at hplace
    have he : P e.1 := hentries e List.mem_cons_self
    by_cases heq : eq k e.1 = true
    · rw [if_pos heq] at hplace
      cases hplace
      rw [List.set_cons_zero, lookup_cons, lookup_cons]
      have hsame : eq k' e.1 = eq k' k := by
        cases hk'k : eq k' k with
        | true => rw [h.congr hk hk' he hk'k, heq]
        | false =>
          rw [Bool.eq_false_iff]
          intro hk'e
          rw [h.trans k' e.1 k hk' he hk hk'e (h.symm k e.1 hk he heq)] at hk'k
          cases hk'k
      rw [hsame]
      split
      · rfl
      · rfl
    · rw [if_neg heq] at hplace
      obtain ⟨j, hj, rfl⟩ := Option.map_eq_some_iff.mp hplace
      have hrest := ih (fun e' he' => hentries e' (List.mem_cons_of_mem _ he')) hj
      rw [List.set_cons_succ, lookup_cons, lookup_cons, hrest]
      by_cases hk'k : eq k' k = true
      · have hne : ¬ eq k' e.1 = true := by
          rw [h.congr hk hk' he hk'k]
          exact heq
        rw [if_pos hk'k, if_neg hne, if_pos hk'k]
      · rw [if_neg hk'k, if_neg hk'k]

/-! ## Stores -/

theorem lastStored_append :
    lastStored eq k' (stores ++ [(k, v)]) =
      if eq k' k = true then some v else lastStored eq k' stores := by
  rw [lastStored, List.reverse_append]
  exact lookup_cons (k, v)

theorem insertionKeys_append :
    insertionKeys eq (stores ++ [(k, v)]) =
      if (insertionKeys eq stores).any (eq k) = true then insertionKeys eq stores
      else insertionKeys eq stores ++ [k] := by
  rw [insertionKeys, List.foldl_append]
  rfl

theorem mem_insertionKeys (h : k ∈ insertionKeys eq stores) : ∃ s ∈ stores, s.1 = k := by
  induction stores using List.reverseRecOn with
  | nil => cases h
  | append_singleton stores s ih =>
    rw [insertionKeys_append (k := s.1) (v := s.2)] at h
    have hmem : k ∈ insertionKeys eq stores ∨ k = s.1 := by
      split at h
      · exact .inl h
      · exact (List.mem_append.mp h).imp_right List.mem_singleton.mp
    cases hmem with
    | inl hmem =>
      obtain ⟨s', hs', hk⟩ := ih hmem
      exact ⟨s', List.mem_append_left _ hs', hk⟩
    | inr heq => exact ⟨s, List.mem_append_right _ (List.mem_singleton_self s), heq.symm⟩

/-- A key is among the keys when something has been stored under it. -/
theorem any_insertionKeys (h : EquivalenceOn eq P) (hk : P k) (hstores : ∀ s ∈ stores, P s.1) :
    (insertionKeys eq stores).any (eq k) = (lastStored eq k stores).isSome := by
  induction stores using List.reverseRecOn with
  | nil => rfl
  | append_singleton stores s ih =>
    have hs : P s.1 := hstores s (List.mem_append_right _ (List.mem_singleton_self s))
    have hrest : ∀ s' ∈ stores, P s'.1 := fun s' hs' => hstores s' (List.mem_append_left _ hs')
    have hany := ih hrest
    rw [insertionKeys_append (k := s.1) (v := s.2), lastStored_append (k := s.1) (v := s.2)]
    by_cases heq : eq k s.1 = true
    · rw [if_pos heq]
      split
      · rename_i hfound
        obtain ⟨k', hk', hsk'⟩ := List.any_eq_true.mp hfound
        obtain ⟨s', hs', rfl⟩ := mem_insertionKeys hk'
        exact List.any_eq_true.mpr ⟨s'.1, hk', h.trans k s.1 s'.1 hk hs (hrest s' hs') heq hsk'⟩
      · exact List.any_eq_true.mpr ⟨s.1, List.mem_append_right _ (List.mem_singleton_self _), heq⟩
    · rw [if_neg heq, ← hany]
      split
      · rfl
      · rw [List.any_append, List.any_cons, List.any_nil, Bool.eq_false_iff.mpr heq, Bool.or_false,
          Bool.or_false]

/-- Every key that something has been stored under is in the list, up to equality. -/
theorem any_insertionKeys_of_mem {s : κ × ν} (h : EquivalenceOn eq P) (hs : s ∈ stores)
    (hstores : ∀ s ∈ stores, P s.1) : (insertionKeys eq stores).any (eq s.1) = true := by
  rw [any_insertionKeys h (hstores s hs) hstores, lastStored, lookup, Option.isSome_map,
    List.find?_isSome]
  exact ⟨s, List.mem_reverse.mpr hs, h.refl s.1 (hstores s hs)⟩

/-- No key stands in the list twice. -/
theorem insertionKeys_pairwise (h : EquivalenceOn eq P) (hstores : ∀ s ∈ stores, P s.1) :
    (insertionKeys eq stores).Pairwise fun k k' => eq k k' = false := by
  induction stores using List.reverseRecOn with
  | nil => exact List.Pairwise.nil
  | append_singleton stores s ih =>
    have hs : P s.1 := hstores s (List.mem_append_right _ (List.mem_singleton_self s))
    have hrest : ∀ s' ∈ stores, P s'.1 := fun s' hs' => hstores s' (List.mem_append_left _ hs')
    rw [insertionKeys_append (k := s.1) (v := s.2)]
    split
    · exact ih hrest
    · rename_i hnew
      refine List.pairwise_append.mpr ⟨ih hrest, List.pairwise_singleton _ _, ?_⟩
      intro k hk k' hk'
      rw [List.mem_singleton.mp hk', Bool.eq_false_iff]
      intro heq
      obtain ⟨s', hs', rfl⟩ := mem_insertionKeys hk
      exact hnew (List.any_eq_true.mpr ⟨s'.1, hk, h.symm s'.1 s.1 (hrest s' hs') hs heq⟩)

/-- The keys of the stores are all in the list when no two of them are equal, and only then. -/
theorem insertionKeys_eq_iff (h : EquivalenceOn eq P) (hstores : ∀ s ∈ stores, P s.1) :
    insertionKeys eq stores = stores.map Prod.fst ↔
      (stores.map Prod.fst).Pairwise fun k k' => eq k k' = false := by
  constructor
  · intro hkeys
    rw [← hkeys]
    exact insertionKeys_pairwise h hstores
  · induction stores using List.reverseRecOn with
    | nil => exact fun _ => rfl
    | append_singleton stores s ih =>
      intro hpairwise
      have hs : P s.1 := hstores s (List.mem_append_right _ (List.mem_singleton_self s))
      have hrest : ∀ s' ∈ stores, P s'.1 := fun s' hs' => hstores s' (List.mem_append_left _ hs')
      rw [List.map_append, List.map_singleton] at hpairwise ⊢
      obtain ⟨hbefore, -, hnew⟩ := List.pairwise_append.mp hpairwise
      have hnone : ¬ (insertionKeys eq stores).any (eq s.1) = true := by
        intro hany
        obtain ⟨k, hk, heq⟩ := List.any_eq_true.mp hany
        obtain ⟨s', hs', rfl⟩ := mem_insertionKeys hk
        have hne := hnew s'.1 (List.mem_map_of_mem hs') s.1 (List.mem_singleton_self _)
        rw [h.symm s.1 s'.1 hs (hrest s' hs') heq] at hne
        cases hne
      rw [insertionKeys_append (k := s.1) (v := s.2), if_neg hnone, ih hrest hbefore]

/-- What was stored under a key that no other store has. -/
theorem lastStored_of_mem (h : EquivalenceOn eq P) (hstores : ∀ s ∈ stores, P s.1)
    (hpairwise : (stores.map Prod.fst).Pairwise fun k k' => eq k k' = false) {s : κ × ν}
    (hs : s ∈ stores) : lastStored eq s.1 stores = some s.2 := by
  induction stores using List.reverseRecOn with
  | nil => cases hs
  | append_singleton stores s' ih =>
    have hrest : ∀ s ∈ stores, P s.1 := fun s hs => hstores s (List.mem_append_left _ hs)
    rw [List.map_append, List.map_singleton] at hpairwise
    obtain ⟨hbefore, -, hnew⟩ := List.pairwise_append.mp hpairwise
    rw [lastStored_append (k := s'.1) (v := s'.2)]
    cases List.mem_append.mp hs with
    | inl hs =>
      have hne := hnew s.1 (List.mem_map_of_mem hs) s'.1 (List.mem_singleton_self _)
      rw [if_neg (Bool.eq_false_iff.mp hne), ih hrest hbefore hs]
    | inr hs =>
      cases List.mem_singleton.mp hs
      rw [if_pos (h.refl s.1 (hstores s (List.mem_append_right _ hs)))]

end Association

end JeffVm
