import Mathlib.Logic.Function.Basic
import Mathlib.Logic.Relation

/-!
# Chains of pointers

Every element points to one other at most. A loop along the pointers ends when they run out; a
single pointer that is set closes a cycle exactly when its target led back to it.
-/

set_option autoImplicit false

namespace JeffVm

universe u v

variable {α : Type u} {β : Type v}

/-- The elements behind a pointer, down to one that points nowhere. -/
inductive Chain (next : α → Option α) : Option α → List α → Prop where
  | nil : Chain next none []
  | cons {a : α} {l : List α} : Chain next (next a) l → Chain next (some a) (a :: l)

/-- A path of pointers. -/
inductive Leads (next : α → Option α) : α → α → Prop where
  | refl (a : α) : Leads next a a
  | cons {a b c : α} : next a = some b → Leads next b c → Leads next a c

def Ends (next : α → Option α) (p : Option α) : Prop := ∃ l, Chain next p l

/-- A loop that visits the elements behind a pointer until one of them gives a result; `none` is a
loop that needs more rounds. -/
def walkFrom (next : α → Option α) (f : α → Option β) : Nat → Option α → Option (Option β)
  | _, none => some none
  | 0, some _ => none
  | n + 1, some a =>
    match f a with
    | some b => some (some b)
    | none => walkFrom next f n (next a)

variable {next : α → Option α} {f : α → Option β} {p : Option α} {a b c : α} {l l' : List α}

namespace Chain

theorem unique (h : Chain next p l) (h' : Chain next p l') : l = l' := by
  induction h generalizing l' with
  | nil =>
    cases h'
    rfl
  | @cons a l _ ih =>
    cases h' with
    | cons h' => rw [ih h']

theorem walk (h : Chain next p l) {n : Nat} (hn : l.length ≤ n) :
    walkFrom next f n p = some (l.findSome? f) := by
  induction h generalizing n with
  | nil => cases n <;> rfl
  | @cons a l h ih =>
    cases n with
    | zero => cases hn
    | succ n =>
      have hrest := ih (Nat.le_of_succ_le_succ hn)
      rw [walkFrom, List.findSome?_cons]
      cases f a with
      | some b => rfl
      | none => exact hrest

/-- What an element leads to is on its chain, with the rest of the chain behind it. -/
theorem of_leads (h : Leads next a b) (hchain : Chain next (some a) l) :
    ∃ l', Chain next (some b) l' ∧ l' <:+ l := by
  induction h generalizing l with
  | refl a => exact ⟨l, hchain, List.suffix_refl l⟩
  | @cons a b c hnext _ ih =>
    cases hchain with
    | @cons _ l hrest =>
      rw [hnext] at hrest
      obtain ⟨l', hl', hsuffix⟩ := ih hrest
      exact ⟨l', hl', hsuffix.trans (List.suffix_cons a l)⟩

theorem leads_of_mem (h : Chain next (some a) l) (hb : b ∈ l) : Leads next a b := by
  generalize hp : some a = p at h
  induction h generalizing a with
  | nil => cases hp
  | @cons d l hrest ih =>
    obtain rfl := Option.some.inj hp
    rcases List.mem_cons.mp hb with heq | hb
    · rw [heq]
      exact .refl a
    · cases hnext : next a with
      | none =>
        rw [hnext] at hrest
        cases hrest
        cases hb
      | some d => exact .cons hnext (ih hb hnext.symm)

/-- A chain does not come back to where it starts. -/
theorem not_back (h : Chain next (some a) l) (hnext : next a = some b) (hback : Leads next b a) :
    False := by
  cases h with
  | @cons _ l hrest =>
    rw [hnext] at hrest
    obtain ⟨l', hl', hsuffix⟩ := of_leads hback hrest
    rw [← hnext] at hrest
    have hlength := congrArg List.length (hl'.unique (.cons hrest))
    rw [List.length_cons] at hlength
    have hle := hsuffix.length_le
    omega

end Chain

theorem Leads.trans (h : Leads next a b) (h' : Leads next b c) : Leads next a c := by
  induction h with
  | refl => exact h'
  | cons hnext _ ih => exact .cons hnext (ih h')

/-- No element leads back to itself. -/
def Acyclic (next : α → Option α) : Prop :=
  ∀ a, ¬ Relation.TransGen (fun b c => next b = some c) a a

theorem leads_of_transGen (h : Relation.TransGen (fun b c => next b = some c) a b) :
    ∃ c, next a = some c ∧ Leads next c b := by
  induction h with
  | single hnext => exact ⟨_, hnext, .refl _⟩
  | tail _ hnext ih =>
    obtain ⟨c, hc, hleads⟩ := ih
    exact ⟨c, hc, hleads.trans (.cons hnext (.refl _))⟩

theorem transGen_of_leads (hnext : next a = some b) (h : Leads next b c) :
    Relation.TransGen (fun b c => next b = some c) a c := by
  induction h generalizing a with
  | refl => exact .single hnext
  | cons hnext' _ ih => exact .head hnext (ih hnext')

theorem acyclic_of_ends (h : ∀ a, Ends next (some a)) : Acyclic next := by
  intro a hcycle
  obtain ⟨b, hnext, hback⟩ := leads_of_transGen hcycle
  obtain ⟨l, hl⟩ := h a
  exact hl.not_back hnext hback

theorem Ends.walk (h : Ends next p) : ∃ n, (walkFrom next f n p).isSome = true := by
  obtain ⟨l, hl⟩ := h
  refine ⟨l.length, ?_⟩
  rw [hl.walk (Nat.le_refl _)]
  rfl

/-! ## Setting a pointer -/

section

variable [DecidableEq α]

theorem Chain.update (h : Chain next p l) (ha : a ∉ l) (q : Option α) :
    Chain (Function.update next a q) p l := by
  induction h with
  | nil => exact .nil
  | @cons b l hrest ih =>
    obtain ⟨hne, ha⟩ := not_or.mp (mt List.mem_cons.mpr ha)
    have hnext : Function.update next a q b = next b := Function.update_of_ne (Ne.symm hne) q next
    have hrest := ih ha
    rw [← hnext] at hrest
    exact .cons hrest

/-- A pointer is set to an element that does not lead to it: all chains still end. -/
theorem ends_update (h : ∀ c, Ends next (some c)) (hb : ¬ Leads next b a) (c : α) :
    Ends (Function.update next a (some b)) (some c) := by
  obtain ⟨lb, hlb⟩ := h b
  have ha : a ∉ lb := fun hmem => hb (hlb.leads_of_mem hmem)
  have hself : Function.update next a (some b) a = some b := Function.update_self a (some b) next
  have hchain : Chain (Function.update next a (some b)) (Function.update next a (some b) a) lb := by
    rw [hself]
    exact hlb.update ha (some b)
  obtain ⟨l, hl⟩ := h c
  generalize hp : some c = p at hl ⊢
  clear hp
  induction hl with
  | nil => exact ⟨[], .nil⟩
  | @cons d l _ ih =>
    by_cases hd : d = a
    · subst hd
      exact ⟨_, .cons hchain⟩
    · obtain ⟨l', hl'⟩ := ih
      have hnext : Function.update next a (some b) d = next d := Function.update_of_ne hd _ next
      rw [← hnext] at hl'
      exact ⟨_, .cons hl'⟩

theorem Leads.update (h : Leads next b a) : Leads (Function.update next a p) b a := by
  induction h with
  | refl => exact .refl _
  | @cons b c a hnext _ ih =>
    by_cases hb : b = a
    · subst hb
      exact .refl b
    · exact .cons ((Function.update_of_ne hb p next).trans hnext) ih

theorem not_acyclic_update (h : Leads next b a) :
    ¬ Acyclic (Function.update next a (some b)) := by
  intro hacyclic
  exact hacyclic a (transGen_of_leads (Function.update_self a (some b) next) h.update)

/-- Whether a pointer may be set. -/
theorem acyclic_update_iff (h : ∀ c, Ends next (some c)) :
    Acyclic (Function.update next a (some b)) ↔ ¬ Leads next b a :=
  ⟨fun hacyclic hleads => not_acyclic_update hleads hacyclic,
    fun hleads => acyclic_of_ends (ends_update h hleads)⟩

end

end JeffVm
