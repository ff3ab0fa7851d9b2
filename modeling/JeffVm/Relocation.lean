import JeffVm.Resolve

/-!
# Where labels go when a tape is rebuilt

The rebuilding of a tape walks over the old indices and opens, closes and labels what starts or
ends there. At any point of the walk the new tape holds the labels of the indices passed so far,
each moved to the number of instructions kept before it.
-/

set_option autoImplicit false

namespace JeffVm

open Editing

/-! ## Tapes with their labels in order -/

/-- The labels of the functions and of all methods. -/
def Tape.funcLabels (t : Tape) : List FunctionRef :=
  t.funcRefs.entries ++ t.classRefs.entries.flatMap fun c => c.funcRefs.entries

/-- Index `k` lies in the class. -/
def ClassRef.Spans (c : ClassRef) (k : Nat) : Prop := c.startIndex ≤ k ∧ k < c.endIndex

instance (c : ClassRef) (k : Nat) : Decidable (c.Spans k) :=
  inferInstanceAs (Decidable (c.startIndex ≤ k ∧ k < c.endIndex))

namespace Tape

/-- Labels have different indices and classes are not empty. -/
structure Sparse (t : Tape) : Prop where
  distinct : (t.funcLabels.map FunctionRef.index).Nodup
  nonempty : ∀ c ∈ t.classRefs.entries, c.startIndex < c.endIndex

/-- Labels and classes lie on the tape, classes do not overlap, and no two labels of one class,
or outside of all classes, have the same name. -/
structure LaidOut (t : Tape) : Prop where
  labels_le : ∀ f ∈ t.funcLabels, f.index ≤ t.size
  classes_le : ∀ c ∈ t.classRefs.entries, c.endIndex ≤ t.size
  disjoint : ∀ c ∈ t.classRefs.entries, ∀ d ∈ t.classRefs.entries, c ≠ d →
    c.endIndex ≤ d.startIndex ∨ d.endIndex ≤ c.startIndex
  named_class : ∀ c ∈ t.classRefs.entries, ∀ f ∈ t.funcLabels, ∀ g ∈ t.funcLabels, c.Spans f.index →
    c.Spans g.index → f.name = g.name → f = g
  named_module : ∀ f ∈ t.funcLabels, ∀ g ∈ t.funcLabels,
    (∀ c ∈ t.classRefs.entries, ¬ c.Spans f.index) →
      (∀ c ∈ t.classRefs.entries, ¬ c.Spans g.index) → f.name = g.name → f = g

variable {t : Tape}

theorem Sparse.label_eq (h : t.Sparse) {f g : FunctionRef} (hf : f ∈ t.funcLabels) (hg : g ∈ t.funcLabels)
    (heq : f.index = g.index) : f = g :=
  List.inj_on_of_nodup_map h.distinct hf hg heq

theorem class_eq {c d : ClassRef} (hc : c ∈ t.classRefs.entries) (hd : d ∈ t.classRefs.entries)
    (heq : c.name = d.name) : c = d :=
  List.inj_on_of_nodup_map t.classRefs.nodup hc hd heq

/-- An index lies in one class at most. -/
theorem LaidOut.spans_eq (h : t.LaidOut) {c d : ClassRef} {k : Nat} (hc : c ∈ t.classRefs.entries)
    (hd : d ∈ t.classRefs.entries) (hck : c.Spans k) (hdk : d.Spans k) : c = d := by
  by_contra hne
  obtain ⟨hcs, hce⟩ := hck
  obtain ⟨hds, hde⟩ := hdk
  rcases h.disjoint c hc d hd hne with hle | hle
  · omega
  · omega

theorem LaidOut.start_eq (h : t.LaidOut) (hs : t.Sparse) {c d : ClassRef}
    (hc : c ∈ t.classRefs.entries) (hd : d ∈ t.classRefs.entries)
    (heq : c.startIndex = d.startIndex) : c = d := by
  apply h.spans_eq hc hd ⟨Nat.le_refl _, hs.nonempty c hc⟩
  rw [heq]
  exact ⟨Nat.le_refl _, hs.nonempty d hd⟩

theorem LaidOut.end_eq (h : t.LaidOut) (hs : t.Sparse) {c d : ClassRef}
    (hc : c ∈ t.classRefs.entries) (hd : d ∈ t.classRefs.entries)
    (heq : c.endIndex = d.endIndex) : c = d := by
  have hcs := hs.nonempty c hc
  have hds := hs.nonempty d hd
  by_contra hne
  rcases h.disjoint c hc d hd hne with hle | hle
  · omega
  · omega

end Tape

/-! ## The walk -/

/-- The label after the walk; `_oh_resolve` declares no constant functions. -/
def FunctionRef.moved (p : Nat → Nat) (f : FunctionRef) : FunctionRef :=
  ⟨f.name, p f.index, false, f.isAsync⟩

namespace Tape

variable (p : Nat → Nat) (t : Tape)

/-- The entry `c'` of the new tape for class `c`, with its end when that is before `e`, and with
its labels before `l`. -/
structure ClassMoved (e l : Nat) (c c' : ClassRef) : Prop where
  name : c'.name = c.name
  startIndex : c'.startIndex = p c.startIndex
  endIndex : c.endIndex < e → c'.endIndex = p c.endIndex
  supers : c'.supers = c.supers
  fields : c'.fieldRefs = c.fieldRefs
  funcs : ∀ f', f' ∈ c'.funcRefs.entries ↔
    ∃ f ∈ t.funcLabels, f.index < l ∧ c.Spans f.index ∧ f' = f.moved p

/-- The new tape after the ends before `e`, the starts before `s` and the labels before `l`. -/
structure Walked (e s l : Nat) (new : Tape) : Prop where
  classes : ∀ c' ∈ new.classRefs.entries,
    ∃ c ∈ t.classRefs.entries, c.startIndex < s ∧ t.ClassMoved p e l c c'
  started : ∀ c ∈ t.classRefs.entries, c.startIndex < s → c.name ∈ new.classRefs.keys
  funcs : ∀ f', f' ∈ new.funcRefs.entries ↔ ∃ f ∈ t.funcLabels, f.index < l ∧
    (∀ c ∈ t.classRefs.entries, ¬ c.Spans f.index) ∧ f' = f.moved p
  closed : new.currentClass = none →
    ∀ c ∈ t.classRefs.entries, ¬ (c.startIndex < s ∧ e ≤ c.endIndex)
  open_ : ∀ n, new.currentClass = some n → ∃ c ∈ t.classRefs.entries, c.name = n ∧
    c.startIndex < s ∧ e ≤ c.endIndex ∧ ∃ cs c', c'.name = n ∧ new.Opens cs c'

variable {p : Nat → Nat} {t : Tape} {i : Nat} {new : Tape}

theorem Walked.noEnd (h : t.Walked p i i i new)
    (hno : ∀ c ∈ t.classRefs.entries, c.endIndex ≠ i) : t.Walked p (i + 1) i i new := by
  refine ⟨?_, h.started, h.funcs, ?_, ?_⟩
  · intro c' hc'
    obtain ⟨c, hc, hstart, hmoved⟩ := h.classes c' hc'
    refine ⟨c, hc, hstart, { hmoved with endIndex := ?_ }⟩
    intro hlt
    exact hmoved.endIndex (Nat.lt_of_le_of_ne (Nat.le_of_lt_succ hlt) (hno c hc))
  · intro hnone c hc hopen
    exact h.closed hnone c hc ⟨hopen.1, Nat.le_of_succ_le hopen.2⟩
  · intro n hn
    obtain ⟨c, hc, hname, hstart, hend, hopens⟩ := h.open_ n hn
    exact ⟨c, hc, hname, hstart, Nat.lt_of_le_of_ne hend (hno c hc).symm, hopens⟩

/-- The class that ends at index `i` is the open one. -/
theorem Walked.endClass (hs : t.Sparse) (hl : t.LaidOut) (h : t.Walked p i i i new)
    (hsize : new.size = p i) {c : ClassRef} (hc : c ∈ t.classRefs.entries)
    (hend : c.endIndex = i) :
    ∃ new', new.endClass = some new' ∧ t.Walked p (i + 1) i i new' := by
  have hstart : c.startIndex < i := hend ▸ hs.nonempty c hc
  have honly : ∀ d ∈ t.classRefs.entries, d.startIndex < i → i ≤ d.endIndex → d = c := by
    intro d hd hds hde
    by_contra hne
    rcases hl.disjoint d hd c hc hne with hle | hle
    · omega
    · omega
  cases hcur : new.currentClass with
  | none => exact absurd ⟨hstart, Nat.le_of_eq hend.symm⟩ (h.closed hcur c hc)
  | some n =>
    obtain ⟨d, hd, hname, hds, hde, cs, c', hname', hopens⟩ := h.open_ n hcur
    obtain rfl := honly d hd hds hde
    subst hname'
    refine ⟨{ new.modifyClass c'.name (fun c => { c with endIndex := new.size }) (fun _ => rfl) with
      currentClass := none }, by simp [Tape.endClass, endClassAtIndex, hcur], ?_⟩
    have hentries := (hopens.modifyClass (fun c => { c with endIndex := new.size })
      (fun _ => rfl)).entries
    have hnodup := new.classRefs.nodup
    rw [hopens.entries] at hnodup
    refine ⟨?_, ?_, h.funcs, ?_, ?_⟩
    · intro b' hb'
      rw [hentries] at hb'
      rcases List.mem_append.mp hb' with hb' | hb'
      · obtain ⟨b, hb, hbs, hmoved⟩ := h.classes b' (by rw [hopens.entries]; simp [hb'])
        refine ⟨b, hb, hbs, { hmoved with endIndex := ?_ }⟩
        intro hlt
        apply hmoved.endIndex
        apply Nat.lt_of_le_of_ne (Nat.le_of_lt_succ hlt)
        intro heq
        obtain rfl := hl.end_eq hs hb hd (heq.trans hend.symm)
        rw [List.map_append, List.nodup_append] at hnodup
        exact hnodup.2.2 _ (List.mem_map_of_mem hb') _ (List.mem_map_of_mem List.mem_cons_self)
          (hmoved.name.trans hname)
      · cases List.mem_singleton.mp hb'
        obtain ⟨b, hb, hbs, hmoved⟩ := h.classes c' (by rw [hopens.entries]; simp)
        obtain rfl := class_eq hb hd (hmoved.name.symm.trans hname.symm)
        refine ⟨b, hb, hbs, { hmoved with endIndex := ?_ }⟩
        intro _
        rw [hend]
        exact hsize
    · intro b hb hbs
      have hmem := h.started b hb hbs
      simp only [KeyedList.keys] at hmem ⊢
      rw [hentries]
      rw [hopens.entries] at hmem
      simpa using hmem
    · intro _ b hb hopen
      obtain rfl := honly b hb hopen.1 (Nat.le_of_succ_le hopen.2)
      omega
    · intro n hn
      cases hn

theorem addFields {cs : List ClassRef} (fs : List FieldRef) :
    ∀ {t : Tape} {c : ClassRef}, t.Opens cs c → (c.fieldRefs.keys ++ fs.map FieldRef.name).Nodup →
      ∃ t', fs.foldlM (fun tape f => tape.field f.name) t = some t' ∧ SameCore t t' ∧
        t'.Opens cs { c with fieldRefs := fs.foldl KeyedList.insert c.fieldRefs } := by
  induction fs with
  | nil =>
    intro t c h _
    exact ⟨t, rfl, SameCore.refl t, h⟩
  | cons f fs ih =>
    intro t c h hnodup
    have hnew : f.name ∉ c.fieldRefs.keys := fun hmem =>
      (List.nodup_append.mp hnodup).2.2 _ hmem _ (by simp) rfl
    have hkeys : (c.fieldRefs.insert f).keys = c.fieldRefs.keys ++ [f.name] := by
      simp [KeyedList.keys, KeyedList.entries_insert_of_notMem hnew]
    have hstep : t.field f.name = some (t.modifyClass c.name
        (fun c => { c with fieldRefs := c.fieldRefs.insert f }) (fun _ => rfl)) := by
      simp [Tape.field, h.current, h.lookup, hnew]
    obtain ⟨t', hrun, hcore, hopens⟩ := ih (h.modifyClass
      (fun c => { c with fieldRefs := c.fieldRefs.insert f }) (fun _ => rfl)) (by
        rw [hkeys, List.append_assoc]
        exact hnodup)
    refine ⟨t', ?_, (SameCore.modifyClass t _ _ _).trans hcore, hopens⟩
    rw [List.foldlM_cons, hstep]
    exact hrun

theorem openClass_spec {c : ClassRef} (hnew : c.name ∉ new.classRefs.keys) :
    ∃ new', new.openClass c = some new' ∧ SameCore new new' ∧
      new'.Opens new.classRefs.entries
        ⟨c.name, new.size, 0, .empty, c.fieldRefs, c.supers⟩ := by
  have hopen : ({ new with
      classRefs := new.classRefs.insert (.init c.name new.size)
      currentClass := some c.name } : Tape).Opens new.classRefs.entries
        (.init c.name new.size) :=
    ⟨KeyedList.entries_insert_of_notMem hnew, rfl⟩
  obtain ⟨new₁, hrun₁, hcore₁, hopen₁⟩ := addSupers c.supers hopen
  obtain ⟨new₂, hrun₂, hcore₂, hopen₂⟩ := addFields c.fieldRefs.entries hopen₁ (by
    simpa [ClassRef.init, KeyedList.keys] using c.fieldRefs.nodup)
  have hfields : c.fieldRefs.entries.foldl KeyedList.insert
      (KeyedList.empty : KeyedList FieldRef.name) = c.fieldRefs := by
    apply KeyedList.ext
    rw [KeyedList.entries_foldl_insert]
    · rfl
    · simpa [KeyedList.keys] using c.fieldRefs.nodup
  refine ⟨new₂, ?_, ?_, ?_⟩
  · simp [Tape.openClass, startClass, startClassAtIndex, hnew, hrun₁, hrun₂]
  · exact ⟨(hcore₁.trans hcore₂).moduleName, (hcore₁.trans hcore₂).ins,
      (hcore₁.trans hcore₂).sourceMap, (hcore₁.trans hcore₂).funcRefs⟩
  · simpa [ClassRef.init, hfields] using hopen₂

theorem Walked.noStart (h : t.Walked p (i + 1) i i new)
    (hno : ∀ c ∈ t.classRefs.entries, c.startIndex ≠ i) : t.Walked p (i + 1) (i + 1) i new := by
  refine ⟨?_, ?_, h.funcs, ?_, ?_⟩
  · intro c' hc'
    obtain ⟨c, hc, hstart, hmoved⟩ := h.classes c' hc'
    exact ⟨c, hc, Nat.lt_succ_of_lt hstart, hmoved⟩
  · intro c hc hstart
    exact h.started c hc (Nat.lt_of_le_of_ne (Nat.le_of_lt_succ hstart) (hno c hc))
  · intro hnone c hc hopen
    apply h.closed hnone c hc
    exact ⟨Nat.lt_of_le_of_ne (Nat.le_of_lt_succ hopen.1) (hno c hc), hopen.2⟩
  · intro n hn
    obtain ⟨c, hc, hname, hstart, hrest⟩ := h.open_ n hn
    exact ⟨c, hc, hname, Nat.lt_succ_of_lt hstart, hrest⟩

/-- No class is open when another one starts. -/
theorem Walked.openClass (hs : t.Sparse) (hl : t.LaidOut) (h : t.Walked p (i + 1) i i new)
    (hsize : new.size = p i) {c : ClassRef} (hc : c ∈ t.classRefs.entries)
    (hstart : c.startIndex = i) :
    ∃ new', new.openClass c = some new' ∧ t.Walked p (i + 1) (i + 1) i new' := by
  have hlt := hs.nonempty c hc
  have hnew : c.name ∉ new.classRefs.keys := by
    intro hmem
    obtain ⟨c', hc', hname⟩ := List.mem_map.mp hmem
    obtain ⟨d, hd, hds, hmoved⟩ := h.classes c' hc'
    obtain rfl := class_eq hd hc (hmoved.name.symm.trans hname)
    omega
  obtain ⟨new', hopen, hcore, hopens⟩ := openClass_spec hnew
  refine ⟨new', hopen, ?_, ?_, ?_, ?_, ?_⟩
  · intro c' hc'
    rw [hopens.entries] at hc'
    rcases List.mem_append.mp hc' with hc' | hc'
    · obtain ⟨d, hd, hds, hmoved⟩ := h.classes c' hc'
      exact ⟨d, hd, Nat.lt_succ_of_lt hds, hmoved⟩
    · cases List.mem_singleton.mp hc'
      refine ⟨c, hc, Nat.lt_succ_of_le (Nat.le_of_eq hstart), rfl, ?_, ?_, rfl, rfl, ?_⟩
      · rw [hstart]
        exact hsize
      · intro hend
        omega
      · intro f'
        constructor
        · intro hf'
          cases hf'
        · rintro ⟨f, -, hlt, hspan, -⟩
          have hle := hspan.1
          omega
  · intro d hd hds
    have hkeys : new'.classRefs.keys = new.classRefs.keys ++ [c.name] := by
      simp [KeyedList.keys, hopens.entries]
    rw [hkeys]
    rcases Nat.eq_or_lt_of_le (Nat.le_of_lt_succ hds) with heq | hlt'
    · obtain rfl := hl.start_eq hs hd hc (heq.trans hstart.symm)
      simp
    · exact List.mem_append_left _ (h.started d hd hlt')
  · rw [hcore.funcRefs]
    exact h.funcs
  · intro hnone
    rw [hopens.current] at hnone
    cases hnone
  · intro n hn
    rw [hopens.current] at hn
    cases hn
    exact ⟨c, hc, rfl, by omega, by omega, _, _, rfl, hopens⟩

/-- What passing one more index adds to a set of moved labels. -/
theorem moved_succ_iff {q : FunctionRef → Prop} {f' : FunctionRef}
    (hno : ∀ f ∈ t.funcLabels, f.index = i → ¬ q f) :
    (∃ f ∈ t.funcLabels, f.index < i + 1 ∧ q f ∧ f' = f.moved p) ↔
      ∃ f ∈ t.funcLabels, f.index < i ∧ q f ∧ f' = f.moved p := by
  constructor
  · rintro ⟨f, hf, hlt, hq, heq⟩
    refine ⟨f, hf, Nat.lt_of_le_of_ne (Nat.le_of_lt_succ hlt) ?_, hq, heq⟩
    intro hi
    exact hno f hf hi hq
  · rintro ⟨f, hf, hlt, hq, heq⟩
    exact ⟨f, hf, Nat.lt_succ_of_lt hlt, hq, heq⟩

theorem moved_insert_iff (hs : t.Sparse) {q : FunctionRef → Prop} {f f' : FunctionRef}
    (hf : f ∈ t.funcLabels) (hi : f.index = i) (hq : q f) :
    (∃ g ∈ t.funcLabels, g.index < i + 1 ∧ q g ∧ f' = g.moved p) ↔
      (∃ g ∈ t.funcLabels, g.index < i ∧ q g ∧ f' = g.moved p) ∨ f' = f.moved p := by
  constructor
  · rintro ⟨g, hg, hlt, hqg, heq⟩
    rcases Nat.eq_or_lt_of_le (Nat.le_of_lt_succ hlt) with heqi | hlt'
    · obtain rfl := hs.label_eq hg hf (heqi.trans hi.symm)
      exact .inr heq
    · exact .inl ⟨g, hg, hlt', hqg, heq⟩
  · rintro (⟨g, hg, hlt, hqg, heq⟩ | heq)
    · exact ⟨g, hg, Nat.lt_succ_of_lt hlt, hqg, heq⟩
    · exact ⟨f, hf, hi ▸ Nat.lt_succ_self _, hq, heq⟩

theorem Walked.noLabel (h : t.Walked p (i + 1) (i + 1) i new)
    (hno : ∀ f ∈ t.funcLabels, f.index ≠ i) : t.Walked p (i + 1) (i + 1) (i + 1) new := by
  refine ⟨?_, h.started, ?_, h.closed, h.open_⟩
  · intro c' hc'
    obtain ⟨c, hc, hstart, hmoved⟩ := h.classes c' hc'
    refine ⟨c, hc, hstart, { hmoved with funcs := ?_ }⟩
    intro f'
    rw [hmoved.funcs]
    exact (moved_succ_iff fun f hf hi => absurd hi (hno f hf)).symm
  · intro f'
    rw [h.funcs]
    exact (moved_succ_iff fun f hf hi => absurd hi (hno f hf)).symm

/-- The label at index `i` goes to the class that spans it. -/
theorem Walked.startFunc (hs : t.Sparse) (hl : t.LaidOut)
    (h : t.Walked p (i + 1) (i + 1) i new) (hsize : new.size = p i) {f : FunctionRef}
    (hf : f ∈ t.funcLabels) (hi : f.index = i) :
    ∃ new', new.startFunc f.name f.isAsync = some new' ∧
      t.Walked p (i + 1) (i + 1) (i + 1) new' := by
  have hmoved_eq : (⟨f.name, new.size, false, f.isAsync⟩ : FunctionRef) = f.moved p := by
    rw [FunctionRef.moved, hi, hsize]
  cases hcur : new.currentClass with
  | none =>
    have hout : ∀ c ∈ t.classRefs.entries, ¬ c.Spans f.index := by
      intro c hc hspan
      exact h.closed hcur c hc ⟨hi ▸ Nat.lt_succ_of_le hspan.1, hi ▸ hspan.2⟩
    have hnew : f.name ∉ new.funcRefs.keys := by
      intro hmem
      obtain ⟨f', hf', hname⟩ := List.mem_map.mp hmem
      obtain ⟨g, hg, hlt, hgout, rfl⟩ := (h.funcs f').mp hf'
      obtain rfl := hl.named_module g hg f hf hgout hout hname
      omega
    have hentries := KeyedList.entries_insert_of_notMem (a := f.moved p) hnew
    refine ⟨{ new with funcRefs := new.funcRefs.insert (f.moved p) },
      by simp [Tape.startFunc, startFuncAtIndex, hcur, hnew, hmoved_eq], ?_, h.started, ?_,
        h.closed, ?_⟩
    · intro c' hc'
      obtain ⟨c, hc, hstart, hmoved⟩ := h.classes c' hc'
      refine ⟨c, hc, hstart, { hmoved with funcs := ?_ }⟩
      intro f'
      rw [hmoved.funcs]
      apply (moved_succ_iff _).symm
      intro g hg hgi
      obtain rfl := hs.label_eq hg hf (hgi.trans hi.symm)
      exact hout c hc
    · intro f'
      rw [hentries, List.mem_append, h.funcs, List.mem_singleton]
      exact (moved_insert_iff hs (q := fun g => ∀ c ∈ t.classRefs.entries, ¬ c.Spans g.index) hf hi
        hout).symm
    · intro n hn
      exact absurd (hcur.symm.trans hn) nofun
  | some n =>
    obtain ⟨c, hc, hname, hcs, hce, cs, c', rfl, hopens⟩ := h.open_ n hcur
    have hspan : c.Spans f.index := hi ▸ ⟨Nat.le_of_lt_succ hcs, hce⟩
    have hlast : c' ∈ new.classRefs.entries := by
      rw [hopens.entries]
      simp
    have hcentry : t.ClassMoved p (i + 1) i c c' := by
      obtain ⟨d, hd, -, hmoved⟩ := h.classes c' hlast
      obtain rfl := class_eq hd hc (hmoved.name.symm.trans hname.symm)
      exact hmoved
    have hnew : f.name ∉ c'.funcRefs.keys := by
      intro hmem
      obtain ⟨f', hf', hname⟩ := List.mem_map.mp hmem
      obtain ⟨g, hg, hlt, hgspan, rfl⟩ := (hcentry.funcs f').mp hf'
      obtain rfl := hl.named_class c hc g hg f hf hgspan hspan hname
      omega
    have hentries := KeyedList.entries_insert_of_notMem (a := f.moved p) hnew
    have hopens' := hopens.modifyClass
      (fun c => { c with funcRefs := c.funcRefs.insert (f.moved p) }) (fun _ => rfl)
    have hnodup := new.classRefs.nodup
    rw [hopens.entries, List.map_append, List.nodup_append] at hnodup
    refine ⟨new.modifyClass c'.name (fun c => { c with funcRefs := c.funcRefs.insert (f.moved p) })
      (fun _ => rfl), by simp [Tape.startFunc, startFuncAtIndex, hcur, hopens.lookup, hnew,
        hmoved_eq], ?_, ?_, ?_, ?_, ?_⟩
    · intro b' hb'
      rw [hopens'.entries] at hb'
      rcases List.mem_append.mp hb' with hold | hb'
      · obtain ⟨b, hb, hbs, hmoved⟩ := h.classes b' (by rw [hopens.entries]; simp [hold])
        refine ⟨b, hb, hbs, { hmoved with funcs := ?_ }⟩
        intro f'
        rw [hmoved.funcs]
        apply (moved_succ_iff _).symm
        intro g hg hgi hgspan
        obtain rfl := hs.label_eq hg hf (hgi.trans hi.symm)
        obtain rfl := hl.spans_eq hb hc hgspan hspan
        exact hnodup.2.2 _ (List.mem_map_of_mem hold) _ (List.mem_map_of_mem List.mem_cons_self)
          (hmoved.name.trans hname)
      · cases List.mem_singleton.mp hb'
        refine ⟨c, hc, hcs, { hcentry with funcs := ?_ }⟩
        intro f'
        rw [hentries, List.mem_append, hcentry.funcs, List.mem_singleton]
        exact (moved_insert_iff hs (q := fun g => c.Spans g.index) hf hi hspan).symm
    · intro b hb hbs
      have hmem := h.started b hb hbs
      simp only [KeyedList.keys] at hmem ⊢
      rw [hopens'.entries]
      rw [hopens.entries] at hmem
      simpa using hmem
    · intro f'
      change f' ∈ new.funcRefs.entries ↔ _
      rw [h.funcs]
      apply (moved_succ_iff _).symm
      intro g hg hgi hgout
      obtain rfl := hs.label_eq hg hf (hgi.trans hi.symm)
      exact hgout c hc hspan
    · intro hnone
      change new.currentClass = none at hnone
      rw [hcur] at hnone
      cases hnone
    · intro m hm
      change new.currentClass = some m at hm
      rw [hcur] at hm
      cases hm
      exact ⟨c, hc, hname, hcs, hce, cs,
        { c' with funcRefs := c'.funcRefs.insert (f.moved p) }, rfl, hopens'⟩

theorem find_reverse {α : Type} (as : List α) (key : α → Nat) (i : Nat) :
    (∃ a ∈ as, key a = i ∧ as.reverse.find? (fun a => key a == i) = some a) ∨
      (∀ a ∈ as, key a ≠ i) ∧ as.reverse.find? (fun a => key a == i) = none := by
  cases hfind : as.reverse.find? (fun a => key a == i) with
  | some a =>
    refine .inl ⟨a, List.mem_reverse.mp (List.mem_of_find?_eq_some hfind), ?_, rfl⟩
    have hkey := List.find?_some (p := fun a => key a == i) hfind
    exact eq_of_beq hkey
  | none =>
    refine .inr ⟨?_, rfl⟩
    intro a ha heq
    have hnot := List.find?_eq_none.mp hfind a (List.mem_reverse.mpr ha)
    exact hnot (beq_iff_eq.mpr heq)

theorem labelsAt_eq (t : Tape) (i : Nat) (new : Tape) : t.labelsAt i new =
    ((t.classRefs.entries.reverse.find? fun c => c.endIndex == i).elim (some new)
      fun _ => new.endClass).bind fun new =>
    ((t.classRefs.entries.reverse.find? fun c => c.startIndex == i).elim (some new)
      fun c => new.openClass c).bind fun new =>
    (t.funcLabels.reverse.find? fun f => f.index == i).elim (some new)
      fun f => new.startFunc f.name f.isAsync := by
  unfold Tape.labelsAt Tape.funcLabels
  dsimp only
  generalize (t.classRefs.entries.reverse.find? fun c => c.endIndex == i) = ends
  generalize (t.classRefs.entries.reverse.find? fun c => c.startIndex == i) = starts
  generalize List.find? (fun f : FunctionRef => f.index == i) _ = label
  cases ends with
  | none =>
    cases starts with
    | none => cases label <;> rfl
    | some d =>
      dsimp only [Option.elim_none, Option.elim_some, Option.bind_some]
      cases new.openClass d with
      | none => rfl
      | some new₂ => cases label <;> rfl
  | some c =>
    dsimp only [Option.elim_some]
    cases new.endClass with
    | none => rfl
    | some new₁ =>
      cases starts with
      | none => cases label <;> rfl
      | some d =>
        dsimp only [Option.elim_some, Option.bind_some]
        cases new₁.openClass d with
        | none => rfl
        | some new₂ => cases label <;> rfl

/-- One round of the walk. -/
theorem Walked.labelsAt (hs : t.Sparse) (hl : t.LaidOut) (h : t.Walked p i i i new)
    (hsize : new.size = p i) :
    ∃ new', t.labelsAt i new = some new' ∧ t.Walked p (i + 1) (i + 1) (i + 1) new' := by
  have hend : ∃ new₁, (t.classRefs.entries.reverse.find? fun c => c.endIndex == i).elim (some new)
      (fun _ => new.endClass) = some new₁ ∧ new₁.ins = new.ins ∧ t.Walked p (i + 1) i i new₁ := by
    rcases find_reverse t.classRefs.entries ClassRef.endIndex i with ⟨c, hc, hci, hfind⟩ | ⟨hno, hfind⟩
    · obtain ⟨new₁, hrun, hwalked⟩ := h.endClass hs hl hsize hc hci
      rw [hfind]
      exact ⟨new₁, hrun, endClass_ins hrun, hwalked⟩
    · rw [hfind]
      exact ⟨new, rfl, rfl, h.noEnd hno⟩
  obtain ⟨new₁, hrun₁, hins₁, hwalked₁⟩ := hend
  have hsize₁ : new₁.size = p i := by rw [Tape.size, hins₁, ← Tape.size, hsize]
  have hstart : ∃ new₂, (t.classRefs.entries.reverse.find? fun c => c.startIndex == i).elim
      (some new₁) (fun c => new₁.openClass c) = some new₂ ∧ new₂.ins = new₁.ins ∧
        t.Walked p (i + 1) (i + 1) i new₂ := by
    rcases find_reverse t.classRefs.entries ClassRef.startIndex i with ⟨c, hc, hci, hfind⟩ | ⟨hno, hfind⟩
    · obtain ⟨new₂, hrun, hwalked⟩ := hwalked₁.openClass hs hl hsize₁ hc hci
      rw [hfind]
      exact ⟨new₂, hrun, openClass_ins hrun, hwalked⟩
    · rw [hfind]
      exact ⟨new₁, rfl, rfl, hwalked₁.noStart hno⟩
  obtain ⟨new₂, hrun₂, hins₂, hwalked₂⟩ := hstart
  have hsize₂ : new₂.size = p i := by rw [Tape.size, hins₂, ← Tape.size, hsize₁]
  rw [labelsAt_eq, hrun₁, Option.bind_some, hrun₂, Option.bind_some]
  rcases find_reverse t.funcLabels FunctionRef.index i with ⟨f, hf, hfi, hfind⟩ | ⟨hno, hfind⟩
  · obtain ⟨new₃, hrun, hwalked⟩ := hwalked₂.startFunc hs hl hsize₂ hf hfi
    rw [hfind]
    exact ⟨new₃, hrun, hwalked⟩
  · rw [hfind]
    exact ⟨new₂, rfl, hwalked₂.noLabel hno⟩

theorem Walked.congr {e s l : Nat} {new' : Tape} (h : t.Walked p e s l new)
    (hclasses : new'.classRefs = new.classRefs) (hfuncs : new'.funcRefs = new.funcRefs)
    (hcurrent : new'.currentClass = new.currentClass) : t.Walked p e s l new' := by
  refine ⟨?_, ?_, ?_, ?_, ?_⟩
  · rw [hclasses]
    exact h.classes
  · rw [hclasses]
    exact h.started
  · rw [hfuncs]
    exact h.funcs
  · rw [hcurrent]
    exact h.closed
  · intro n hn
    rw [hcurrent] at hn
    obtain ⟨c, hc, hname, hcs, hce, cs, c', hname', hopens⟩ := h.open_ n hn
    exact ⟨c, hc, hname, hcs, hce, cs, c', hname', hclasses ▸ hopens.entries,
      hcurrent ▸ hopens.current⟩

theorem walked_zero {new : Tape} (hclasses : new.classRefs = .empty) (hfuncs : new.funcRefs = .empty)
    (hcurrent : new.currentClass = none) : t.Walked p 0 0 0 new := by
  refine ⟨?_, ?_, ?_, ?_, ?_⟩
  · intro c' hc'
    rw [hclasses] at hc'
    cases hc'
  · intro c _ hlt
    exact absurd hlt (Nat.not_lt_zero _)
  · intro f'
    rw [hfuncs]
    constructor
    · intro hf'
      cases hf'
    · rintro ⟨f, -, hlt, -⟩
      exact absurd hlt (Nat.not_lt_zero _)
  · intro _ c _ hopen
    exact absurd hopen.1 (Nat.not_lt_zero _)
  · intro n hn
    rw [hcurrent] at hn
    cases hn

end Tape

/-- The walk to the end of the tape. -/
theorem resolveFrom_walked {t : Tape} (as : Adjustments) (hs : t.Sparse) (hl : t.LaidOut) :
    ∀ (rest : List Instruction) {i : Nat} {r : Resolving}, rest = t.ins.drop i → i ≤ t.size →
      t.Walked (position as.edit t.ins) i i i r.newTape →
        r.newTape.size = position as.edit t.ins i →
          ∃ r', resolveFrom t as i rest r = some r' ∧
            t.Walked (position as.edit t.ins) (t.size + 1) (t.size + 1) (t.size + 1) r'.newTape
  | [], i, r, hrest, hi, hwalked, hsize => by
    have hlen : i = t.size := by
      have hle := List.drop_eq_nil_iff.mp hrest.symm
      exact Nat.le_antisymm hi hle
    obtain ⟨new, hlabels, hwalked'⟩ := hwalked.labelsAt hs hl hsize
    rw [resolveFrom, hlabels]
    exact ⟨_, rfl, hlen ▸ hwalked'⟩
  | ins :: rest, i, r, hrest, hi, hwalked, hsize => by
    obtain ⟨new, hlabels, hwalked'⟩ := hwalked.labelsAt hs hl hsize
    have hins := Tape.labelsAt_ins hlabels
    have hlt : i < t.size := by
      have hne : t.ins.drop i ≠ [] := by
        rw [← hrest]
        exact List.cons_ne_nil _ _
      exact Nat.lt_of_not_le fun hle => hne (List.drop_eq_nil_iff.mpr hle)
    have hat : t.ins[i]? = some ins := by
      have hhead := congrArg List.head? hrest
      rw [List.head?_drop] at hhead
      exact hhead.symm
    have htail : rest = t.ins.drop (i + 1) := by
      have htail := congrArg List.tail hrest
      rw [List.tail_drop] at htail
      exact htail
    have hnew : new.size = position as.edit t.ins i := by rw [Tape.size, hins, ← Tape.size, hsize]
    rw [resolveFrom, hlabels]
    cases hedit : as.edit i ins with
    | none =>
      have happly : Adjustment.apply ins (as.lookup i) = none := hedit
      rw [happly]
      apply resolveFrom_walked as hs hl rest htail hlt hwalked'
      rw [position_succ_none hat hedit]
      exact hnew
    | some newIns =>
      have happly : Adjustment.apply ins (as.lookup i) = some newIns := hedit
      rw [happly]
      apply resolveFrom_walked as hs hl rest htail hlt (hwalked'.congr rfl rfl rfl)
      rw [position_succ_some hat hedit, ← hnew]
      simp [Tape.size]

/-! ## Jumps -/

/-- A jump that survives goes, by the operand that its adjustment gives it, to an instruction of
the tape or to its end. -/
def Adjustments.JumpsInside (as : Adjustments) (old : List Instruction) : Prop :=
  ∀ i ins x, old[i]? = some ins → as.edit i ins = some x → x.op.isGoto = true →
    ∃ v : Int, x.pint = some v ∧ 0 ≤ i + v ∧ i + v < old.length

theorem retargetFrom_some {r : Resolving} : ∀ (ins : List Instruction) (s : Nat),
    (∀ j x, ins[j]? = some x → ∃ y, r.retarget (s + j) x = some y) →
      ∃ ins', r.retargetFrom s ins = some ins'
  | [], s, _ => ⟨[], rfl⟩
  | x :: rest, s, h => by
    obtain ⟨y, hy⟩ := h 0 x rfl
    rw [Nat.add_zero] at hy
    obtain ⟨ys, hys⟩ := retargetFrom_some rest (s + 1) (by
      intro j z hz
      obtain ⟨w, hw⟩ := h (j + 1) z hz
      refine ⟨w, ?_⟩
      rwa [Nat.add_right_comm])
    exact ⟨y :: ys, by rw [Resolving.retargetFrom, hy, hys]⟩

/-- The second loop finds the index of every jump and of its target. -/
theorem retarget_some {t : Tape} {as : Adjustments} {r : Resolving} (hj : as.JumpsInside t.ins)
    (hold : r.oldIndex = (edited as.edit 0 t.ins).map Prod.fst)
    (hnew : r.newIndex = as.newIndices 0 t.ins 0) {j : Nat} {x : Instruction}
    (hx : ((edited as.edit 0 t.ins).map Prod.snd)[j]? = some x) :
    ∃ y, r.retarget j x = some y := by
  rw [List.getElem?_map] at hx
  obtain ⟨⟨i, x'⟩, hat, rfl⟩ := Option.map_eq_some_iff.mp hx
  obtain ⟨ins, hins, hedit, -⟩ := getElem?_edited.mp hat
  have hi : r.oldIndex[j]? = some i := by rw [hold, List.getElem?_map, hat]; rfl
  cases hgoto : x'.op.isGoto with
  | false => exact ⟨x', by simp [Resolving.retarget, hgoto]⟩
  | true =>
    obtain ⟨v, hpint, hlow, hhigh⟩ := hj i ins x' hins hedit hgoto
    have hlt : (i + v).toNat < t.ins.length := by omega
    have htarget : r.newIndex[(i + v).toNat]? = some (as.landing t.ins (i + v).toNat) := by
      rw [hnew, Adjustments.newIndices_zero, List.getElem?_eq_getElem hlt]
      rfl
    exact ⟨_, by simp [Resolving.retarget, hgoto, hpint, hi, hlow, htarget]; rfl⟩

/-- A landing is right before the first instruction that is kept from the target on. -/
theorem Adjustments.landing_succ (as : Adjustments) {old : List Instruction} {k : Nat}
    (hk : k < old.length) : as.landing old k + 1 = position as.edit old (k + 1) := by
  have hat : old[k]? = some old[k] := List.getElem?_eq_getElem hk
  unfold Adjustments.landing
  cases hedit : as.edit k old[k] with
  | none =>
    rw [if_pos (Adjustments.edit_eq_none.mp hedit), position_succ_none hat hedit]
    omega
  | some x =>
    have hkept : as.lookup k ≠ some .remove := by
      intro hremove
      rw [Adjustments.edit_eq_none.mpr hremove] at hedit
      cases hedit
    rw [if_neg hkept, position_succ_some hat hedit]
    omega

/-! ## Relocated tapes -/

/-- `t'` is `t` with its instructions edited, where `operand` gives the operand that a jump is
meant to have from the old instruction and the edited one. -/
structure Relocated (operand : Instruction → Instruction → Option Int) (as : Adjustments)
    (t t' : Tape) : Prop where
  size : t'.size = (edited as.edit 0 t.ins).length
  instructions : ∀ i ins x, t.ins[i]? = some ins → as.edit i ins = some x →
    ∃ y, t'.ins[position as.edit t.ins i]? = some y ∧ y.op = x.op ∧ (x.op.isGoto = false → y = x)
  jumps : ∀ i ins x v, t.ins[i]? = some ins → as.edit i ins = some x → x.op.isGoto = true →
    operand ins x = some v → ∃ y, ∃ v' : Int, ∃ k : Nat,
      t'.ins[position as.edit t.ins i]? = some y ∧ y.pint = some v' ∧
        k = position as.edit t.ins i + v' + 1 ∧ FirstKept as.edit t.ins (i + v + 1).toNat k
  labels : ∀ f', f' ∈ t'.funcLabels ↔ ∃ f ∈ t.funcLabels, f' = f.moved (position as.edit t.ins)
  classes : ∀ c ∈ t.classRefs.entries, ∃ c' ∈ t'.classRefs.entries, c'.name = c.name ∧
    c'.startIndex = position as.edit t.ins c.startIndex ∧
      c'.endIndex = position as.edit t.ins c.endIndex
  only_classes : ∀ c' ∈ t'.classRefs.entries, ∃ c ∈ t.classRefs.entries, c.name = c'.name

namespace Tape

variable {p : Nat → Nat} {t new : Tape}

theorem Walked.labels (hl : t.LaidOut)
    (h : t.Walked p (t.size + 1) (t.size + 1) (t.size + 1) new) (f' : FunctionRef) :
    f' ∈ new.funcLabels ↔ ∃ f ∈ t.funcLabels, f' = f.moved p := by
  rw [Tape.funcLabels, List.mem_append, h.funcs, List.mem_flatMap]
  constructor
  · rintro (⟨f, hf, -, -, heq⟩ | ⟨c', hc', hf'⟩)
    · exact ⟨f, hf, heq⟩
    · obtain ⟨c, -, -, hmoved⟩ := h.classes c' hc'
      obtain ⟨f, hf, -, -, heq⟩ := (hmoved.funcs f').mp hf'
      exact ⟨f, hf, heq⟩
  · rintro ⟨f, hf, heq⟩
    have hlt : f.index < t.size + 1 := Nat.lt_succ_of_le (hl.labels_le f hf)
    by_cases hout : ∀ c ∈ t.classRefs.entries, ¬ c.Spans f.index
    · exact .inl ⟨f, hf, hlt, hout, heq⟩
    · push Not at hout
      obtain ⟨c, hc, hspan⟩ := hout
      have hstart : c.startIndex < t.size + 1 := by
        have hle := hl.classes_le c hc
        have hspan' := hspan
        obtain ⟨hcs, hce⟩ := hspan'
        omega
      obtain ⟨c', hc', hname⟩ := List.mem_map.mp (h.started c hc hstart)
      obtain ⟨d, hd, -, hmoved⟩ := h.classes c' hc'
      obtain rfl := class_eq hd hc (hmoved.name.symm.trans hname)
      exact .inr ⟨c', hc', (hmoved.funcs f').mpr ⟨f, hf, hlt, hspan, heq⟩⟩

theorem Walked.class_moved (hs : t.Sparse) (hl : t.LaidOut)
    (h : t.Walked p (t.size + 1) (t.size + 1) (t.size + 1) new) {c : ClassRef}
    (hc : c ∈ t.classRefs.entries) :
    ∃ c' ∈ new.classRefs.entries, t.ClassMoved p (t.size + 1) (t.size + 1) c c' := by
  have hle := hl.classes_le c hc
  have hlt := hs.nonempty c hc
  obtain ⟨c', hc', hname⟩ := List.mem_map.mp (h.started c hc (by omega))
  obtain ⟨d, hd, -, hmoved⟩ := h.classes c' hc'
  obtain rfl := class_eq hd hc (hmoved.name.symm.trans hname)
  exact ⟨c', hc', hmoved⟩

end Tape

/-- The new tape and the walk that made it. -/
theorem ohResolve_walked {t : Tape} {as : Adjustments} (hs : t.Sparse) (hl : t.LaidOut)
    (hj : as.JumpsInside t.ins) : ∃ t', ohResolve t as = some t' ∧
      t.Walked (position as.edit t.ins) (t.size + 1) (t.size + 1) (t.size + 1) t' := by
  obtain ⟨r, hr, hwalked⟩ := resolveFrom_walked as hs hl t.ins (i := 0)
    (r := ⟨{ Tape.create with moduleName := t.moduleName }, [], []⟩) rfl (Nat.zero_le _)
    (Tape.walked_zero rfl rfl rfl) rfl
  obtain ⟨hins, hold, hnew⟩ := resolveFrom_spec hr
  simp only [Tape.create, List.nil_append, Tape.size, List.length_nil] at hins hold hnew
  obtain ⟨ins', hretarget⟩ := retargetFrom_some r.newTape.ins 0 (by
    intro j x hx
    rw [Nat.zero_add]
    rw [hins] at hx
    exact retarget_some hj hold hnew hx)
  refine ⟨{ r.newTape with ins := ins' }, ?_, hwalked.congr rfl rfl rfl⟩
  rw [ohResolve, hr]
  simp only [hretarget]
  rfl

/-- Jumps, labels and classes move with the instructions. -/
theorem ohResolve_relocates {t : Tape} {as : Adjustments} (hs : t.Sparse) (hl : t.LaidOut)
    (hj : as.JumpsInside t.ins) :
    ∃ t', ohResolve t as = some t' ∧ Relocated (fun _ x => x.pint) as t t' := by
  obtain ⟨t', hresolve, hwalked⟩ := ohResolve_walked hs hl hj
  obtain ⟨hlen, hat⟩ := ohResolve_ins hresolve
  refine ⟨t', hresolve, hlen, ?_, ?_, hwalked.labels hl, ?_, ?_⟩
  · intro i ins x hins hedit
    obtain ⟨y, hy, hretarget⟩ := hat _ i x (getElem?_position hins hedit)
    refine ⟨y, hy, hretarget.op_eq, ?_⟩
    intro hgoto
    simpa [Adjustments.Retargeted, hgoto] using hretarget
  · intro i ins x v hins hedit hgoto hv
    obtain ⟨y, hy, hretarget⟩ := hat _ i x (getElem?_position hins hedit)
    unfold Adjustments.Retargeted at hretarget
    rw [if_pos hgoto] at hretarget
    obtain ⟨n, hpint, hlow, hhigh, rfl⟩ := hretarget
    obtain rfl := Option.some.inj (hpint.symm.trans hv)
    have hsucc := Adjustments.landing_succ as hhigh
    have htarget : (i + n + 1).toNat = (i + n).toNat + 1 := by omega
    refine ⟨_, _, position as.edit t.ins ((i + n).toNat + 1), hy, rfl, ?_, ?_⟩
    · rw [← hsucc]
      omega
    · rw [htarget]
      exact firstKept_position _ _
  · intro c hc
    obtain ⟨c', hc', hmoved⟩ := hwalked.class_moved hs hl hc
    exact ⟨c', hc', hmoved.name, hmoved.startIndex,
      hmoved.endIndex (Nat.lt_succ_of_le (hl.classes_le c hc))⟩
  · intro c' hc'
    obtain ⟨c, hc, -, hmoved⟩ := hwalked.classes c' hc'
    exact ⟨c, hc, hmoved.name.symm⟩

/-- A class with a method that jumps back, and a function behind it. -/
def jumpingTape : Tape where
  moduleName := some "m"
  ins := [⟨.EXIT, .val (.int 0)⟩, ⟨.PUSH, .noArg⟩, ⟨.RES, .noArg⟩, ⟨.JMP, .val (.int (-3))⟩,
    ⟨.RET, .noArg⟩]
  sourceMap := []
  classRefs := ⟨[⟨"A", 1, 4, ⟨[⟨"f", 1, false, false⟩], by decide⟩, .empty, []⟩], by decide⟩
  funcRefs := ⟨[⟨"g", 4, false, false⟩], by decide⟩
  currentClass := none

theorem jumpingTape_sparse : jumpingTape.Sparse := ⟨by decide, by decide⟩

theorem jumpingTape_laidOut : jumpingTape.LaidOut :=
  ⟨by decide, by decide, by decide, by decide, by decide⟩

/-- Without the two instructions before it the jump leads to itself. -/
theorem ohResolve_relocates_jumping : ∃ t', ohResolve jumpingTape [(1, .remove), (2, .remove)] =
    some t' ∧ Relocated (fun _ x => x.pint) [(1, .remove), (2, .remove)] jumpingTape t' := by
  apply ohResolve_relocates jumpingTape_sparse jumpingTape_laidOut
  intro i ins x hins hedit hgoto
  match i with
  | 0 | 1 | 2 | 4 =>
    cases hins
    cases hedit <;> cases hgoto
  | 3 =>
    cases hins
    cases hedit
    exact ⟨-3, rfl, by decide, by decide⟩
  | i + 5 => cases hins

def Adjustments.NoNewJumps (as : Adjustments) (old : List Instruction) : Prop :=
  ∀ i ins x, old[i]? = some ins → as.edit i ins = some x → x.op.isGoto = true →
    ins.op.isGoto = true

/-- The rebuilt tape is right for jumps that mean the operand they had. -/
def Relocates (t : Tape) (as : Adjustments) : Prop :=
  t.Sparse → Adjustments.JumpsInside [] t.ins → as.NoNewJumps t.ins →
    ∃ t', ohResolve t as = some t' ∧ Relocated (fun ins _ => ins.pint) as t t'

/-- Three instructions with the given labels; the first one jumps to the last. -/
def shortTape (classes : KeyedList ClassRef.name) (funcs : KeyedList FunctionRef.name) : Tape :=
  ⟨some "m", [⟨.JMP, .val (.int 1)⟩, ⟨.RES, .noArg⟩, ⟨.EXIT, .val (.int 0)⟩], [], classes, funcs,
    none⟩

theorem shortTape_jumps (classes : KeyedList ClassRef.name) (funcs : KeyedList FunctionRef.name) :
    Adjustments.JumpsInside [] (shortTape classes funcs).ins := by
  intro i ins x hins hedit hgoto
  match i with
  | 0 =>
    cases hins
    cases hedit
    exact ⟨1, rfl, by decide, (by decide : (0 : Int) + 1 < 3)⟩
  | 1 | 2 =>
    cases hins
    cases hedit
    cases hgoto
  | i + 3 => cases hins

theorem noNewJumps_nil (old : List Instruction) : Adjustments.NoNewJumps [] old := by
  intro i ins x _ hedit hgoto
  cases hedit
  exact hgoto

/-- A class inside another one. -/
def overlapping : KeyedList ClassRef.name :=
  ⟨[⟨"A", 0, 3, .empty, .empty, []⟩, ⟨"B", 1, 2, .empty, .empty, []⟩], by decide⟩

/-- A class that spans a function with the name of a method. -/
def spanning : KeyedList ClassRef.name :=
  ⟨[⟨"A", 0, 3, ⟨[⟨"f", 0, false, false⟩], by decide⟩, .empty, []⟩], by decide⟩

/-- An adjustment may give a jump another operand, classes may overlap, two labels of one name may
come into one class, and a label may lie behind the end of the tape. -/
theorem not_relocates : ¬ Relocates (shortTape .empty .empty) [(0, .setVal .JMP (.int 0))] ∧
    ¬ Relocates (shortTape overlapping .empty) [] ∧
    ¬ Relocates (shortTape spanning ⟨[⟨"f", 1, false, false⟩], by decide⟩) [] ∧
    ¬ Relocates (shortTape .empty ⟨[⟨"f", 5, false, false⟩], by decide⟩) [] := by
  refine ⟨?_, ?_, ?_, ?_⟩
  · intro h
    have hkeeps : Adjustments.NoNewJumps [(0, .setVal .JMP (.int 0))]
        (shortTape .empty .empty).ins := by
      intro i ins x hins hedit hgoto
      match i with
      | 0 =>
        cases hins
        rfl
      | 1 | 2 =>
        cases hins
        cases hedit
        cases hgoto
      | i + 3 => cases hins
    obtain ⟨t', hresolve, hrelocated⟩ := h ⟨by decide, by decide⟩ (shortTape_jumps _ _) hkeeps
    obtain rfl := Option.some.inj hresolve
    obtain ⟨y, v', k, hy, hv', hk, hfirst⟩ := hrelocated.jumps 0 ⟨.JMP, .val (.int 1)⟩
      ⟨.JMP, .val (.int 0)⟩ 1 rfl rfl rfl rfl
    cases hy
    cases hv'
    obtain rfl : k = 1 := Int.ofNat.inj hk
    rcases hfirst with ⟨m, b, hm, hat, -⟩ | ⟨hend, -⟩
    · cases hat
      exact absurd hm (by decide)
    · exact absurd hend (by decide)
  · intro h
    obtain ⟨t', hresolve, -⟩ := h ⟨by decide, by decide⟩ (shortTape_jumps _ _) (noNewJumps_nil _)
    cases hresolve
  · intro h
    obtain ⟨t', hresolve, -⟩ := h ⟨by decide, by decide⟩ (shortTape_jumps _ _) (noNewJumps_nil _)
    cases hresolve
  · intro h
    obtain ⟨t', hresolve, hrelocated⟩ := h ⟨by decide, by decide⟩ (shortTape_jumps _ _)
      (noNewJumps_nil _)
    obtain rfl := Option.some.inj hresolve
    have hmem := (hrelocated.labels _).mpr ⟨⟨"f", 5, false, false⟩, by decide, rfl⟩
    exact absurd hmem (by decide)

end JeffVm
