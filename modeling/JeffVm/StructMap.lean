import JeffVm.Hashing
import JeffVm.Lib.Association

/-!
# The map of the library

`Map` of the module `struct`: a table of arrays of pairs, indexed by the remainder of the hash, and
the keys in the order of their first store. The slots of the table that are not set read as None.
-/

set_option autoImplicit false

namespace JeffVm

namespace StructMap

open Association

/-! ## The class -/

abbrev Entry := Value × Value

structure MapState where
  sz : Int
  table : List (Option (List Entry))
  keys : List Value

/-- `new`; `none` is an error. -/
def new (sz : Int) : Option MapState :=
  if sz < 0 then none else some ⟨sz, List.replicate (sz.toNat + 1) none, []⟩

/-- `table[pos]`; the outer `none` is an index out of bounds. -/
def MapState.slot (m : MapState) (pos : Int) : Option (Option (List Entry)) :=
  if pos < 0 then none else m.table[pos.toNat]?

/-- `table[pos] = entries`, and what the methods of `entries` change in place. -/
def MapState.setSlot (m : MapState) (pos : Int) (entries : List Entry) : MapState :=
  { m with table := m.table.set pos.toNat (some entries) }

section Class

variable (diff : Char → Char → Int) (hasher : List Char → Int)

/-- `_hash`; `none` is a remainder that C leaves undefined. -/
def hashPos (sz : Int) (k : Value) : Option Int :=
  (Primitive.modInt (valueHash hasher k) sz).map fun hval =>
    let pos := wrap32 hval
    if pos < 0 then wrap32 (pos * -1) else pos

/-- The loop over `k == entries[i][0]`: the place of the first entry that is equal. -/
def findEntry (k : Value) : List Entry → Option (Option Nat)
  | [] => some none
  | e :: entries =>
    match valueEq diff k e.1 with
    | none => none
    | some true => some (some 0)
    | some false => (findEntry k entries).map fun i => i.map (· + 1)

/-- `[]=`, with what it returns. -/
def set (m : MapState) (k v : Value) : Option (MapState × Value) :=
  match hashPos hasher m.sz k with
  | none => none
  | some pos =>
    match m.slot pos with
    | none => none
    | some none => some ({ m.setSlot pos [(k, v)] with keys := m.keys ++ [k] }, .none)
    | some (some entries) =>
      match findEntry diff k entries with
      | none => none
      | some none =>
        some ({ m.setSlot pos (entries ++ [(k, v)]) with keys := m.keys ++ [k] }, .none)
      | some (some i) =>
        match entries[i]? with
        | none => none
        | some e => some (m.setSlot pos (entries.set i (k, v)), e.2)

/-- `[]` -/
def get (m : MapState) (k : Value) : Option Value :=
  match hashPos hasher m.sz k with
  | none => none
  | some pos =>
    match m.slot pos with
    | none => none
    | some none => some .none
    | some (some entries) =>
      match findEntry diff k entries with
      | none => none
      | some none => some .none
      | some (some i) => entries[i]?.map Prod.snd

inductive Operation where
  | set (k v : Value)
  | get (k : Value)

def Operation.key : Operation → Value
  | set k _ => k
  | get k => k

def apply (m : MapState) : Operation → Option (MapState × Value)
  | .set k v => StructMap.set diff hasher m k v
  | .get k => (StructMap.get diff hasher m k).map fun v => (m, v)

/-- The operations one after the other, with their results. -/
def run (m : MapState) : List Operation → Option (MapState × List Value)
  | [] => some (m, [])
  | op :: ops =>
    match apply diff hasher m op with
    | none => none
    | some (m, v) => (run m ops).map fun r => (r.1, v :: r.2)

end Class

/-- The pairs that the operations store, in order. -/
def storesOf : List Operation → List Entry
  | [] => []
  | .set k v :: ops => (k, v) :: storesOf ops
  | .get _ :: ops => storesOf ops

/-! ## Keys of one type -/

inductive KeyType where
  | int | string

def KeyType.Has : KeyType → Value → Prop
  | int, k => ∃ n, k = .int n
  | string, k => ∃ table, k = .string table

/-- `k == k'` is true. -/
def same (diff : Char → Char → Int) (k k' : Value) : Bool := valueEq diff k k' == some true

section Keys

variable {diff : Char → Char → Int} {hasher : List Char → Int} {t : KeyType} {k k' v : Value}

theorem valueEq_string (table table' : List Char) :
    valueEq diff (.string table) (.string table') = some (stringOrder diff table table' == 0) := by
  rw [valueEq, stringEq, stringCmp, Value.pint_int, Option.map_some, Option.map_some]
  cases stringOrder diff table table' == 0 with
  | true => rfl
  | false => rfl

/-- Keys of one type can be compared. -/
theorem valueEq_eq_same (hk : t.Has k) (hk' : t.Has k') :
    valueEq diff k k' = some (same diff k k') := by
  have hsome : ∃ b, valueEq diff k k' = some b := by
    cases t with
    | int =>
      obtain ⟨n, rfl⟩ := hk
      obtain ⟨n', rfl⟩ := hk'
      exact ⟨_, by rw [Value.int, Value.int, valueEq]⟩
    | string =>
      obtain ⟨table, rfl⟩ := hk
      obtain ⟨table', rfl⟩ := hk'
      exact ⟨_, valueEq_string table table'⟩
  obtain ⟨b, hb⟩ := hsome
  rw [same, hb]
  cases b with
  | true => rfl
  | false => rfl

theorem same_int (n n' : Int) : same diff (.int n) (.int n') = true ↔ n = n' := by
  rw [same, Value.int, Value.int, valueEq, beq_iff_eq, Option.some.injEq]
  exact decide_eq_true_iff

theorem same_string (table table' : List Char) :
    same diff (.string table) (.string table') = true ↔ stringOrder diff table table' = 0 := by
  rw [same, valueEq_string, beq_iff_eq, Option.some.injEq, beq_iff_eq]

theorem stringOrder_self (table : List Char) : stringOrder diff table table = 0 := by
  induction table with
  | nil => rfl
  | cons c table ih =>
    by_cases hc : c = '\x00'
    · rw [hc, stringOrder_nul, Int.sub_self]
    · rw [stringOrder_cons hc, ih]

theorem equivalenceOn_same (hdiff : OrdersChars diff) (t : KeyType) :
    EquivalenceOn (same diff) t.Has := by
  cases t with
  | int =>
    constructor
    · rintro k ⟨n, rfl⟩
      exact (same_int n n).mpr rfl
    · rintro k k' ⟨n, rfl⟩ ⟨n', rfl⟩ h
      exact (same_int n' n).mpr ((same_int n n').mp h).symm
    · rintro k k' k'' ⟨n, rfl⟩ ⟨n', rfl⟩ ⟨n'', rfl⟩ h h'
      exact (same_int n n'').mpr (((same_int n n').mp h).trans ((same_int n' n'').mp h'))
  | string =>
    have hswap : ∀ a b : List Char, stringOrder diff a b = 0 → stringOrder diff b a = 0 := by
      intro a b h
      have hsign := stringOrder_sign_swap hdiff a b
      rw [h, Int.sign_zero, Int.neg_zero, Int.sign_eq_zero_iff_zero] at hsign
      exact hsign
    constructor
    · rintro k ⟨table, rfl⟩
      exact (same_string table table).mpr (stringOrder_self table)
    · rintro k k' ⟨a, rfl⟩ ⟨b, rfl⟩ h
      exact (same_string b a).mpr (hswap a b ((same_string a b).mp h))
    · rintro k k' k'' ⟨a, rfl⟩ ⟨b, rfl⟩ ⟨c, rfl⟩ h h'
      rw [same_string] at h h' ⊢
      have hle := stringOrder_trans hdiff a b c (Int.le_of_eq h) (Int.le_of_eq h')
      have hge := stringOrder_trans hdiff c b a (Int.le_of_eq (hswap b c h'))
        (Int.le_of_eq (hswap a b h))
      have hsign := stringOrder_sign_swap hdiff c a
      by_contra hne
      have hneg : stringOrder diff a c < 0 := by omega
      rw [Int.sign_eq_neg_one_of_neg hneg] at hsign
      have hpos : (stringOrder diff c a).sign = 1 := by omega
      rw [Int.sign_eq_one_iff_pos] at hpos
      omega

/-- Equal strings have equal hashes. -/
def HashesStrings (diff : Char → Char → Int) (hasher : List Char → Int) : Prop :=
  ∀ table table', valueEq diff (.string table) (.string table') = some true →
    valueHash hasher (.string table) = valueHash hasher (.string table')

theorem valueHash_eq_of_same (hhash : HashesStrings diff hasher) (hk : t.Has k) (hk' : t.Has k')
    (h : same diff k k' = true) : valueHash hasher k = valueHash hasher k' := by
  cases t with
  | int =>
    obtain ⟨n, rfl⟩ := hk
    obtain ⟨n', rfl⟩ := hk'
    rw [(same_int n n').mp h]
  | string =>
    obtain ⟨a, rfl⟩ := hk
    obtain ⟨b, rfl⟩ := hk'
    refine hhash a b ?_
    rw [valueEq_eq_same (t := .string) ⟨a, rfl⟩ ⟨b, rfl⟩, h]

theorem findEntry_eq_place {entries : List Entry} (hk : t.Has k)
    (hentries : ∀ e ∈ entries, t.Has e.1) :
    findEntry diff k entries = some (place (same diff) k entries) := by
  induction entries with
  | nil => rfl
  | cons e entries ih =>
    have hrest := ih fun e' he' => hentries e' (List.mem_cons_of_mem _ he')
    rw [findEntry, valueEq_eq_same hk (hentries e List.mem_cons_self), place_cons, hrest]
    cases same diff k e.1 with
    | true => rfl
    | false => rfl

/-! ## The index -/

/-- The index is in the table. -/
theorem hashPos_range (hasher : List Char → Int) {sz : Int} (hpos : 1 ≤ sz) (hint : sz < 2 ^ 31)
    (k : Value) :
    ∃ pos, hashPos hasher sz k = some pos ∧ 0 ≤ pos ∧ pos < sz := by
  have hdefined : ¬ (sz = 0 ∨ valueHash hasher k = -2 ^ 31 ∧ sz = -1) := by omega
  have hupper : (valueHash hasher k).tmod sz < sz := Int.tmod_lt_of_pos _ (by omega)
  have hlower : -sz < (valueHash hasher k).tmod sz := Int.lt_tmod_of_pos _ (by omega)
  have hwrap : wrap32 ((valueHash hasher k).tmod sz) = (valueHash hasher k).tmod sz :=
    wrap32_of_range (by omega) (by omega)
  have hneg : wrap32 ((valueHash hasher k).tmod sz * -1) = (valueHash hasher k).tmod sz * -1 :=
    wrap32_of_range (by omega) (by omega)
  rw [hashPos, Primitive.modInt, if_neg hdefined, Option.map_some]
  simp only [hwrap, hneg]
  by_cases hlt : (valueHash hasher k).tmod sz < 0
  · refine ⟨_, rfl, ?_⟩
    rw [if_pos hlt]
    omega
  · refine ⟨_, rfl, ?_⟩
    rw [if_neg hlt]
    omega

theorem hashPos_congr {sz : Int} (h : valueHash hasher k = valueHash hasher k') :
    hashPos hasher sz k = hashPos hasher sz k' := by
  rw [hashPos, hashPos, h]

end Keys

/-! ## The invariant -/

/-- The map after these stores. -/
structure Holds (diff : Char → Char → Int) (hasher : List Char → Int) (t : KeyType) (sz : Int)
    (stores : List Entry) (m : MapState) : Prop where
  size : m.sz = sz
  slots : m.table.length = sz.toNat + 1
  typed : ∀ slot ∈ m.table, ∀ entries, slot = some entries → ∀ e ∈ entries, t.Has e.1
  stored : ∀ s ∈ stores, t.Has s.1
  found : ∀ k, t.Has k → ∀ pos slot, hashPos hasher sz k = some pos → m.slot pos = some slot →
    lookup (same diff) k (slot.getD []) = lastStored (same diff) k stores
  listed : m.keys = insertionKeys (same diff) stores

section Invariant

variable {diff : Char → Char → Int} {hasher : List Char → Int} {t : KeyType} {k v : Value}
variable {sz pos : Int} {stores : List Entry} {m : MapState} {slot : Option (List Entry)}

theorem slot_eq (h : 0 ≤ pos) : m.slot pos = m.table[pos.toNat]? := by
  rw [MapState.slot, if_neg (by omega)]

theorem slot_nonneg (h : m.slot pos = some slot) : 0 ≤ pos ∧ pos.toNat < m.table.length := by
  rw [MapState.slot] at h
  split at h
  · cases h
  · exact ⟨by omega, (List.getElem?_eq_some_iff.mp h).1⟩

theorem setSlot_self {entries : List Entry} (h : m.slot pos = some slot) :
    (m.setSlot pos entries).slot pos = some (some entries) := by
  obtain ⟨hnonneg, hlt⟩ := slot_nonneg h
  rw [slot_eq hnonneg, MapState.setSlot, List.getElem?_set_self hlt]

theorem setSlot_ne {entries : List Entry} {pos' : Int} (hnonneg : 0 ≤ pos) (hne : pos' ≠ pos) :
    (m.setSlot pos entries).slot pos' = m.slot pos' := by
  by_cases hneg : pos' < 0
  · rw [MapState.slot, MapState.slot, if_pos hneg, if_pos hneg]
  · rw [slot_eq (by omega), slot_eq (by omega), MapState.setSlot, List.getElem?_set_ne (by omega)]

theorem Holds.slot_isSome (h : Holds diff hasher t sz stores m) (hnonneg : 0 ≤ pos)
    (hlt : pos < sz) : ∃ slot, m.slot pos = some slot := by
  have hlength := h.slots
  rw [slot_eq hnonneg]
  exact ⟨_, List.getElem?_eq_getElem (by omega)⟩

theorem Holds.typed_slot (h : Holds diff hasher t sz stores m) (hnonneg : 0 ≤ pos)
    (hslot : m.slot pos = some slot) : ∀ e ∈ slot.getD [], t.Has e.1 := by
  rw [slot_eq hnonneg] at hslot
  intro e he
  cases slot with
  | none => cases he
  | some entries => exact h.typed _ (List.mem_of_getElem? hslot) entries rfl e he

/-- A store that leaves, in the slot of its key, entries with the value of the key, and the keys
of the other entries as they were. -/
theorem Holds.store (h : Holds diff hasher t sz stores m) (heq : EquivalenceOn (same diff) t.Has)
    (hhash : HashesStrings diff hasher) (hk : t.Has k) (hpos : hashPos hasher sz k = some pos)
    (hnonneg : 0 ≤ pos) (hslot : m.slot pos = some slot) {entries : List Entry}
    (htyped : ∀ e ∈ entries, t.Has e.1)
    (hentries : ∀ k', t.Has k' → lookup (same diff) k' entries =
      if same diff k' k = true then some v else lookup (same diff) k' (slot.getD [])) :
    Holds diff hasher t sz (stores ++ [(k, v)])
      { m.setSlot pos entries with
        keys := if (lastStored (same diff) k stores).isSome then m.keys else m.keys ++ [k] } where
  size := h.size
  slots := by
    rw [MapState.setSlot, List.length_set]
    exact h.slots
  typed := by
    intro slot' hmem entries' heq' e he
    cases List.mem_or_eq_of_mem_set hmem with
    | inl hmem => exact h.typed slot' hmem entries' heq' e he
    | inr hnew =>
      cases hnew.symm.trans heq'
      exact htyped e he
  stored := by
    intro s hs
    cases List.mem_append.mp hs with
    | inl hs => exact h.stored s hs
    | inr hs =>
      rw [List.mem_singleton.mp hs]
      exact hk
  found := by
    intro k' hk' pos' slot' hpos' hslot'
    rw [lastStored_append]
    by_cases heqpos : pos' = pos
    · subst heqpos
      cases (setSlot_self hslot).symm.trans hslot'
      rw [← h.found k' hk' pos' slot hpos' hslot]
      exact hentries k' hk'
    · have hslot'' : m.slot pos' = some slot' := (setSlot_ne hnonneg heqpos).symm.trans hslot'
      have hne : ¬ same diff k' k = true := by
        intro hsame
        have hpos'' := hpos'
        rw [hashPos_congr (valueHash_eq_of_same hhash hk' hk hsame), hpos] at hpos''
        exact heqpos (Option.some.inj hpos'').symm
      rw [if_neg hne]
      exact h.found k' hk' pos' slot' hpos' hslot''
  listed := by
    rw [insertionKeys_append, any_insertionKeys heq hk h.stored, h.listed]

/-- The map that `new` makes. -/
theorem holds_new (hpos : 1 ≤ sz) :
    ∃ m, new sz = some m ∧ Holds diff hasher t sz [] m := by
  have hnot : ¬ sz < 0 := by omega
  refine ⟨⟨sz, List.replicate (sz.toNat + 1) none, []⟩, by rw [new, if_neg hnot], ?_⟩
  constructor
  · rfl
  · exact List.length_replicate
  · intro slot hmem entries heq
    rw [(List.mem_replicate.mp hmem).2] at heq
    cases heq
  · intro s hs
    cases hs
  · intro k _ pos slot _ hslot
    obtain ⟨hnonneg, -⟩ := slot_nonneg hslot
    rw [slot_eq hnonneg] at hslot
    rw [(List.mem_replicate.mp (List.mem_of_getElem? hslot)).2]
    rfl
  · rfl

theorem Holds.get (h : Holds diff hasher t sz stores m) (hpos : 1 ≤ sz) (hint : sz < 2 ^ 31)
    (hk : t.Has k) :
    StructMap.get diff hasher m k = some ((lastStored (same diff) k stores).getD .none) := by
  obtain ⟨pos, hhash, hnonneg, hlt⟩ := hashPos_range hasher hpos hint k
  obtain ⟨slot, hslot⟩ := h.slot_isSome hnonneg hlt
  have htyped := h.typed_slot hnonneg hslot
  rw [← h.found k hk pos slot hhash hslot, StructMap.get, h.size, hhash]
  simp only [hslot]
  cases slot with
  | none => rfl
  | some entries =>
    rw [Option.getD_some] at htyped ⊢
    simp only [findEntry_eq_place hk htyped]
    cases hplace : place (same diff) k entries with
    | none =>
      rw [place_eq_none_iff.mp hplace]
      rfl
    | some i =>
      obtain ⟨e, he, hlookup⟩ := getElem_place hplace
      simp only [he, hlookup, Option.map_some, Option.getD_some]

/-- A store keeps the invariant, on each of the paths of `[]=`. -/
theorem Holds.set (h : Holds diff hasher t sz stores m) (heq : EquivalenceOn (same diff) t.Has)
    (hhash : HashesStrings diff hasher) (hpos : 1 ≤ sz) (hint : sz < 2 ^ 31) (hk : t.Has k)
    (v : Value) :
    ∃ m', StructMap.set diff hasher m k v =
        some (m', (lastStored (same diff) k stores).getD .none) ∧
      Holds diff hasher t sz (stores ++ [(k, v)]) m' := by
  obtain ⟨pos, hhashPos, hnonneg, hlt⟩ := hashPos_range hasher hpos hint k
  obtain ⟨slot, hslot⟩ := h.slot_isSome hnonneg hlt
  have htyped := h.typed_slot hnonneg hslot
  have hlast := h.found k hk pos slot hhashPos hslot
  have hpair : ∀ e ∈ [(k, v)], t.Has e.1 := by
    intro e he
    rw [List.mem_singleton.mp he]
    exact hk
  cases slot with
  | none =>
    have hnone : lastStored (same diff) k stores = none := hlast.symm
    have hstore := h.store heq hhash hk hhashPos hnonneg hslot (v := v) hpair fun k' hk' =>
      lookup_new heq hk hk' htyped rfl
    rw [hnone] at hstore ⊢
    refine ⟨_, ?_, hstore⟩
    rw [StructMap.set, h.size, hhashPos]
    simp only [hslot]
    rfl
  | some entries =>
    rw [Option.getD_some] at htyped hlast
    have hfind : findEntry diff k entries = _ := findEntry_eq_place hk htyped
    cases hplace : place (same diff) k entries with
    | none =>
      have hnew := place_eq_none_iff.mp hplace
      have hnone : lastStored (same diff) k stores = none := hlast.symm.trans hnew
      have hall : ∀ e ∈ entries ++ [(k, v)], t.Has e.1 := by
        intro e he
        cases List.mem_append.mp he with
        | inl he => exact htyped e he
        | inr he => exact hpair e he
      have hstore := h.store heq hhash hk hhashPos hnonneg hslot (v := v) hall fun k' hk' =>
        lookup_new heq hk hk' htyped hnew
      rw [hnone] at hstore ⊢
      refine ⟨_, ?_, hstore⟩
      rw [StructMap.set, h.size, hhashPos]
      simp only [hslot, hfind, hplace]
      rfl
    | some i =>
      obtain ⟨e, he, hlookup⟩ := getElem_place hplace
      have hsome : lastStored (same diff) k stores = some e.2 := hlast.symm.trans hlookup
      have hall : ∀ e ∈ entries.set i (k, v), t.Has e.1 := by
        intro e he
        cases List.mem_or_eq_of_mem_set he with
        | inl he => exact htyped e he
        | inr he =>
          rw [he]
          exact hk
      have hstore := h.store heq hhash hk hhashPos hnonneg hslot (v := v) hall fun k' hk' =>
        lookup_set heq hk hk' htyped hplace
      rw [hsome] at hstore ⊢
      refine ⟨_, ?_, hstore⟩
      rw [StructMap.set, h.size, hhashPos]
      simp only [hslot, hfind, hplace, he]
      rfl

end Invariant

/-! ## Runs -/

/-- What a map returns: the value of the last store under an equal key, or None. -/
def results (diff : Char → Char → Int) (stores : List Entry) : List Operation → List Value
  | [] => []
  | .set k v :: ops =>
    (lastStored (same diff) k stores).getD .none :: results diff (stores ++ [(k, v)]) ops
  | .get k :: ops => (lastStored (same diff) k stores).getD .none :: results diff stores ops

section Runs

variable {diff : Char → Char → Int} {hasher : List Char → Int} {t : KeyType}
variable {sz : Int} {stores : List Entry} {m : MapState} {ops : List Operation}

theorem Holds.run (h : Holds diff hasher t sz stores m) (heq : EquivalenceOn (same diff) t.Has)
    (hhash : HashesStrings diff hasher) (hpos : 1 ≤ sz) (hint : sz < 2 ^ 31)
    (hkeys : ∀ op ∈ ops, t.Has op.key) :
    ∃ m', StructMap.run diff hasher m ops = some (m', results diff stores ops) ∧
      Holds diff hasher t sz (stores ++ storesOf ops) m' := by
  induction ops generalizing m stores with
  | nil =>
    refine ⟨m, rfl, ?_⟩
    rw [storesOf, List.append_nil]
    exact h
  | cons op ops ih =>
    have hrest : ∀ op' ∈ ops, t.Has op'.key := fun op' hop =>
      hkeys op' (List.mem_cons_of_mem _ hop)
    cases op with
    | set k v =>
      have hk : t.Has k := hkeys (.set k v) List.mem_cons_self
      obtain ⟨m₁, hset, h₁⟩ := h.set heq hhash hpos hint hk v
      obtain ⟨m', hrun, h'⟩ := ih h₁ hrest
      refine ⟨m', ?_, ?_⟩
      · simp only [StructMap.run, apply, hset, hrun, Option.map_some, results]
      · rw [storesOf, ← List.singleton_append, ← List.append_assoc]
        exact h'
    | get k =>
      have hk : t.Has k := hkeys (.get k) List.mem_cons_self
      obtain ⟨m', hrun, h'⟩ := ih h hrest
      refine ⟨m', ?_, h'⟩
      simp only [StructMap.run, apply, h.get hpos hint hk, hrun, Option.map_some, results]

/-- A store leaves the keys as they are, or appends its own. -/
theorem set_keys {m' : MapState} {k v r : Value}
    (h : StructMap.set diff hasher m k v = some (m', r)) :
    m'.keys = m.keys ∨ m'.keys = m.keys ++ [k] := by
  rw [StructMap.set] at h
  split at h
  · cases h
  · split at h
    · cases h
    · cases h
      exact .inr rfl
    · split at h
      · cases h
      · cases h
        exact .inr rfl
      · split at h
        · cases h
        · cases h
          exact .inl rfl

/-- Keys of any kind stay in the order of their insertion. -/
theorem run_keys {m' : MapState} {vs : List Value}
    (h : StructMap.run diff hasher m ops = some (m', vs)) :
    ∃ new, m'.keys = m.keys ++ new ∧ new.Sublist ((storesOf ops).map Prod.fst) := by
  induction ops generalizing m vs with
  | nil =>
    cases h
    exact ⟨[], (List.append_nil _).symm, List.Sublist.refl _⟩
  | cons op ops ih =>
    rw [StructMap.run] at h
    cases happly : apply diff hasher m op with
    | none => simp [happly] at h
    | some result =>
      obtain ⟨m₁, r⟩ := result
      simp only [happly] at h
      obtain ⟨⟨m₂, rest⟩, hrest, heq⟩ := Option.map_eq_some_iff.mp h
      cases heq
      obtain ⟨new, hkeys, hsub⟩ := ih hrest
      cases op with
      | get k =>
        obtain ⟨v, -, hv⟩ := Option.map_eq_some_iff.mp happly
        cases hv
        exact ⟨new, hkeys, hsub⟩
      | set k v =>
        rcases set_keys happly with hsame | hnew
        · exact ⟨new, hkeys.trans (by rw [hsame]), hsub.cons k⟩
        · refine ⟨k :: new, ?_, hsub.cons_cons k⟩
          rw [hkeys, hnew, List.append_assoc]
          rfl

/-- Two keys with one remainder, one of them negative, and a store over an old value. -/
def threeStores : List Operation :=
  [.set (.int (-1)) (.int 7), .set (.int 2) (.int 8), .set (.int (-1)) (.int 9), .get (.int (-1)),
    .get (.int 1)]

end Runs

end StructMap

end JeffVm
