import Mathlib.Data.List.Basic

/-!
# Operations that append to a log

A state with an invariant stands for a log. An operation on states that may fail appends to the
log when it succeeds from every state with the invariant and keeps it; in a row such operations
append in order.
-/

set_option autoImplicit false

universe u v w

namespace JeffVm

variable {σ : Type u} {α : Type v} {β : Type w}

def Appends (Inv : σ → Prop) (log : σ → List α) (op : σ → Option σ) (xs : List α) : Prop :=
  ∀ s, Inv s → ∃ s', op s = some s' ∧ Inv s' ∧ log s' = log s ++ xs

variable {Inv : σ → Prop} {log : σ → List α}

theorem appends_nil : Appends Inv log some [] := by
  intro s hs
  exact ⟨s, rfl, hs, (List.append_nil _).symm⟩

theorem Appends.bind {f g : σ → Option σ} {xs ys : List α} (hf : Appends Inv log f xs)
    (hg : Appends Inv log g ys) : Appends Inv log (fun s => (f s).bind g) (xs ++ ys) := by
  intro s hs
  obtain ⟨s', hs', hinv, hlog⟩ := hf s hs
  obtain ⟨s'', hs'', hinv', hlog'⟩ := hg s' hinv
  refine ⟨s'', ?_, hinv', ?_⟩
  · change (f s).bind g = some s''
    rw [hs', Option.bind_some, hs'']
  · rw [hlog', hlog, List.append_assoc]

/-- A loop of operations over a list appends what each of them does, in order. -/
theorem appends_foldlM {op : σ → β → Option σ} {out : β → List α} {bs : List β}
    (h : ∀ b ∈ bs, Appends Inv log (fun s => op s b) (out b)) :
    Appends Inv log (fun s => bs.foldlM op s) (bs.flatMap out) := by
  induction bs with
  | nil => exact appends_nil
  | cons b bs ih =>
    obtain ⟨hhead, htail⟩ := List.forall_mem_cons.mp h
    exact hhead.bind (ih htail)

end JeffVm
