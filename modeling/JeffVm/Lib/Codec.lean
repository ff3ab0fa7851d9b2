import Mathlib.Algebra.BigOperators.Group.List.Basic
import Mathlib.Data.List.Basic
import Mathlib.Tactic.Linarith

/-!
# Byte codecs

Decoders over a byte list with failure, little-endian fields, and two relations between a
decoder and the bytes it reads: `Decodes` says what it returns on an encoding followed by
any suffix, `Consumes` says how many bytes a successful run has taken.
-/

set_option autoImplicit false

namespace JeffVm

/-- The low `k` bytes of `n`, least significant first. -/
def leBytes : Nat → Nat → List UInt8
  | 0, _ => []
  | k + 1, n => UInt8.ofNat n :: leBytes k (n / 256)

def leValue : List UInt8 → Nat
  | [] => 0
  | b :: bs => b.toNat + 256 * leValue bs

@[simp] theorem length_leBytes (k n : Nat) : (leBytes k n).length = k := by
  induction k generalizing n with
  | zero => rfl
  | succ k ih => simp [leBytes, ih]

theorem leValue_leBytes (k n : Nat) : leValue (leBytes k n) = n % 256 ^ k := by
  induction k generalizing n with
  | zero => simp [leBytes, leValue, Nat.mod_one]
  | succ k ih =>
    have hbyte : (UInt8.ofNat n).toNat = n % 256 := by simp
    rw [leBytes, leValue, ih, hbyte, Nat.pow_succ, Nat.mul_comm (256 ^ k), Nat.mod_mul]

abbrev Decoder (α : Type) := StateT (List UInt8) Option α

namespace Decoder

variable {α β σ : Type}

def fail : Decoder α := fun _ => none

def ofOption : Option α → Decoder α
  | some a => pure a
  | none => fail

/-- Take exactly `k` bytes. -/
def bytes (k : Nat) : Decoder (List UInt8) := fun bs =>
  if k ≤ bs.length then some (bs.take k, bs.drop k) else none

def le (k : Nat) : Decoder Nat := do
  let bs ← bytes k
  return leValue bs

/-- Run a decoder on a state `n` times. -/
def iterate : Nat → (σ → Decoder σ) → σ → Decoder σ
  | 0, _, s => pure s
  | n + 1, f, s => do
    let s' ← f s
    iterate n f s'

end Decoder

/-- On `bytes` followed by anything, `d` returns `a` and leaves what follows. -/
def Decodes {α : Type} (d : Decoder α) (bytes : List UInt8) (a : α) : Prop :=
  ∀ rest, d (bytes ++ rest) = some (a, rest)

namespace Decodes

variable {α β σ : Type}

theorem pure (a : α) : Decodes (Pure.pure a) [] a := fun _ => rfl

theorem bind {d : Decoder α} {e : α → Decoder β} {xs ys : List UInt8} {a : α} {b : β}
    (hd : Decodes d xs a) (he : Decodes (e a) ys b) : Decodes (d >>= e) (xs ++ ys) b := by
  intro rest
  change (d (xs ++ ys ++ rest)).bind _ = _
  rw [List.append_assoc, hd]
  exact he rest

theorem run_bind {d : Decoder α} {xs : List UInt8} {a : α} (hd : Decodes d xs a)
    (e : α → Decoder β) (ys : List UInt8) : (d >>= e) (xs ++ ys) = e a ys := by
  change (d (xs ++ ys)).bind _ = _
  rw [hd]
  rfl

/-- The step of a decoder that reads nothing. -/
theorem bind_nil {d : Decoder α} {e : α → Decoder β} {ys : List UInt8} {a : α} {b : β}
    (hd : Decodes d [] a) (he : Decodes (e a) ys b) : Decodes (d >>= e) ys b := bind hd he

/-- The step after which nothing is read. -/
theorem bind_done {d : Decoder α} {e : α → Decoder β} {xs : List UInt8} {a : α} {b : β}
    (hd : Decodes d xs a) (he : Decodes (e a) [] b) : Decodes (d >>= e) xs b := by
  have hbind : Decodes (d >>= e) (xs ++ []) b := bind hd he
  rwa [List.append_nil] at hbind

theorem bind_pure {d : Decoder α} {f : α → β} {xs : List UInt8} {a : α} (hd : Decodes d xs a) :
    Decodes (d >>= fun a => Pure.pure (f a)) xs (f a) :=
  bind_done hd (pure (f a))

theorem ofOption {o : Option α} {a : α} (h : o = some a) : Decodes (Decoder.ofOption o) [] a := by
  subst h
  exact pure a

theorem bind_ofOption {d : Decoder α} {f : α → Option β} {xs : List UInt8} {a : α} {b : β}
    (hd : Decodes d xs a) (h : f a = some b) :
    Decodes (d >>= fun a => Decoder.ofOption (f a)) xs b :=
  bind_done hd (ofOption h)

theorem bytes (xs : List UInt8) : Decodes (Decoder.bytes xs.length) xs xs := by
  intro rest
  simp [Decoder.bytes]

theorem le_mod (k n : Nat) : Decodes (Decoder.le k) (leBytes k n) (n % 256 ^ k) := by
  have hb := bytes (leBytes k n)
  rw [length_leBytes] at hb
  have hp : Decodes (Decoder.le k) (leBytes k n) (leValue (leBytes k n)) := bind_pure hb
  rwa [leValue_leBytes] at hp

theorem le {k n : Nat} (h : n < 256 ^ k) : Decodes (Decoder.le k) (leBytes k n) n := by
  have hmod := le_mod k n
  rwa [Nat.mod_eq_of_lt h] at hmod

/-- A loop decodes the concatenated encodings of the items it folds over. -/
theorem iterate {f : σ → Decoder σ} {enc : α → List UInt8} {g : σ → α → Option σ} {as : List α}
    (step : ∀ a ∈ as, ∀ s s', g s a = some s' → Decodes (f s) (enc a) s') :
    ∀ {s s' : σ}, as.foldlM g s = some s' →
      Decodes (Decoder.iterate as.length f s) (as.flatMap enc) s' := by
  induction as with
  | nil =>
    intro s s' hrun
    cases hrun
    exact pure s
  | cons a as ih =>
    intro s s' hrun
    rw [List.foldlM_cons] at hrun
    obtain ⟨t, hstep, htail⟩ := Option.bind_eq_some_iff.mp hrun
    exact bind (step a List.mem_cons_self s t hstep)
      (ih (fun b hb => step b (List.mem_cons_of_mem a hb)) htail)

end Decodes

/-- A run of `d` entered after `k` bytes returns after `size a` bytes, where `a` is its result. -/
def Consumes {α : Type} (k : Nat) (d : Decoder α) (size : α → Nat) : Prop :=
  ∀ bs a rest, d bs = some (a, rest) → k + bs.length = size a + rest.length

namespace Consumes

variable {α β : Type} {k j : Nat}

theorem bytes (n : Nat) : Consumes k (Decoder.bytes n) (fun _ => k + n) := by
  intro bs a rest h
  unfold Decoder.bytes at h
  split at h
  · rename_i hle
    cases h
    change k + bs.length = k + n + (bs.drop n).length
    rw [List.length_drop]
    omega
  · cases h

theorem pure {a : α} {size : α → Nat} (h : size a = k) : Consumes k (Pure.pure a) size := by
  intro bs b rest hrun
  cases hrun
  rw [h]

theorem fail (size : α → Nat) : Consumes k Decoder.fail size := by
  intro bs b rest h
  cases h

theorem ofOption (o : Option α) : Consumes k (Decoder.ofOption o) (fun _ => k) := by
  cases o with
  | none => exact fail _
  | some a => exact pure rfl

theorem bind {d : Decoder α} {e : α → Decoder β} {size : β → Nat}
    (hd : Consumes k d (fun _ => j)) (he : ∀ a, Consumes j (e a) size) :
    Consumes k (d >>= e) size := by
  intro bs b rest h
  obtain ⟨⟨a, mid⟩, hfirst, hsecond⟩ := Option.bind_eq_some_iff.mp h
  exact (hd bs a mid hfirst).trans (he a mid b rest hsecond)

theorem le (n : Nat) : Consumes k (Decoder.le n) (fun _ => k + n) :=
  bind (bytes n) (fun _ => pure rfl)

end Consumes

end JeffVm
