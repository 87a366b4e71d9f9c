import Ecma.Proofs.Discipline.Basic

/-!
# How heaps evolve

An object that is not extensible gains nothing and keeps its prototype; a
property that is not configurable stays, with everything about it that may no
longer change.  A lazy cell is resolved at most once, to the value that its
resolver yields.  Heaps related so are related through any number of steps.
-/

namespace Ecma

/-! ## The same value -/

namespace Binary64

/-- What tells numbers apart: no NaN from another, but one zero from the other. -/
def identity (x : Binary64) : Option (Int × Bool) :=
  if x.isNaN then none else some (x.rank, x.isZero && x.isNegative)

theorem sameValue_iff (x y : Binary64) : x.sameValue y = true ↔ x.identity = y.identity := by
  have hzero (z : Binary64) : z.isZero = true ↔ z.rank = 0 := by
    unfold isZero rank
    split <;> simp
  have hnan (z : Binary64) (hz : z.isNaN = true) : z.isZero = false := by
    have hword : infinityWord < z.absWord := of_decide_eq_true hz
    exact decide_eq_false (by omega)
  by_cases hx : x.isNaN = true <;> by_cases hy : y.isNaN = true
  · simp [sameValue, identity, hx, hy]
  · simp [sameValue, identity, equal, hx, hy, hnan x hx]
  · simp [sameValue, identity, equal, hx, hy, hnan y hy]
  · by_cases hx0 : x.isZero = true <;> by_cases hy0 : y.isZero = true
    · simp [sameValue, identity, hx, hy, hx0, hy0, (hzero x).1 hx0, (hzero y).1 hy0]
    · simp [sameValue, identity, equal, hx, hy, hx0, hy0]
      intro h
      exact absurd ((hzero y).2 (h ▸ (hzero x).1 hx0)) hy0
    · simp [sameValue, identity, equal, hx, hy, hx0, hy0]
      intro h
      exact absurd ((hzero x).2 (h ▸ (hzero y).1 hy0)) hx0
    · simp [sameValue, identity, equal, hx, hy, hx0, hy0]

end Binary64

namespace Value

theorem sameValue_refl (v : Value) : v.sameValue v = true := by
  cases v <;> simp [sameValue, strictEqual, Binary64.sameValue_iff]

theorem sameValue_trans {u v w : Value} (huv : u.sameValue v = true) (hvw : v.sameValue w = true) :
    u.sameValue w = true := by
  match u, v, w, huv, hvw with
  | .undefined, .undefined, .undefined, _, _ => rfl
  | .null, .null, .null, _, _ => rfl
  | .boolean a, .boolean b, .boolean c, hab, hbc => exact BEq.trans hab hbc
  | .number a, .number b, .number c, hab, hbc =>
      have heq := ((Binary64.sameValue_iff _ _).1 hab).trans ((Binary64.sameValue_iff _ _).1 hbc)
      exact (Binary64.sameValue_iff _ _).2 heq
  | .string a, .string b, .string c, hab, hbc => exact BEq.trans hab hbc
  | .symbol a, .symbol b, .symbol c, hab, hbc => exact BEq.trans hab hbc
  | .object a, .object b, .object c, hab, hbc => exact BEq.trans hab hbc

theorem sameValue_symm {v w : Value} (h : v.sameValue w = true) : w.sameValue v = true := by
  match v, w, h with
  | .undefined, .undefined, _ => rfl
  | .null, .null, _ => rfl
  | .boolean a, .boolean b, h => exact BEq.symm h
  | .number a, .number b, h =>
      exact (Binary64.sameValue_iff _ _).2 ((Binary64.sameValue_iff _ _).1 h).symm
  | .string a, .string b, h => exact BEq.symm h
  | .symbol a, .symbol b, h => exact BEq.symm h
  | .object a, .object b, h => exact BEq.symm h

end Value

/-! ## Cells -/

/-- What may become of a cell. -/
inductive LazyCell.Evolves : LazyCell → LazyCell → Prop
  | same (cell : LazyCell) : Evolves cell cell
  | starts (r : Resolver) : Evolves (.unresolved r) .resolving
  | resolves (r : Resolver) : Evolves (.unresolved r) (.resolved r.value)

namespace LazyCell.Evolves

theorem trans {a b c : LazyCell} (hab : a.Evolves b) (hbc : b.Evolves c) : a.Evolves c := by
  cases hab with
  | same => exact hbc
  | starts r =>
      cases hbc with
      | same => exact .starts r
  | resolves r =>
      cases hbc with
      | same => exact .resolves r

theorem of_resolved {v : Value} {cell : LazyCell} (h : (resolved v).Evolves cell) :
    cell = .resolved v := by
  cases h with
  | same => rfl

theorem of_resolving {cell : LazyCell} (h : LazyCell.resolving.Evolves cell) :
    cell = .resolving := by
  cases h with
  | same => rfl

end LazyCell.Evolves

namespace Heap

/-- The cells of the later heap are those of the earlier one, evolved, and new ones. -/
structure CellsEvolve (h h' : Heap) : Prop where
  size_le : h.cells.size ≤ h'.cells.size
  cell : ∀ c : CellRef, c.index < h.cells.size → (h.cell c).Evolves (h'.cell c)

theorem cellsEvolve_refl (h : Heap) : h.CellsEvolve h := ⟨Nat.le_refl _, fun _ _ ↦ .same _⟩

theorem CellsEvolve.trans {h₁ h₂ h₃ : Heap} (h₁₂ : h₁.CellsEvolve h₂) (h₂₃ : h₂.CellsEvolve h₃) :
    h₁.CellsEvolve h₃ := by
  refine ⟨Nat.le_trans h₁₂.size_le h₂₃.size_le, ?_⟩
  intro c hc
  exact (h₁₂.cell c hc).trans (h₂₃.cell c (Nat.lt_of_lt_of_le hc h₁₂.size_le))

/-- A reference to nothing counts as a cell that is being resolved. -/
theorem lt_of_cell_ne_resolving {h : Heap} {c : CellRef} (hc : h.cell c ≠ .resolving) :
    c.index < h.cells.size := by
  refine Nat.lt_of_not_le fun hle ↦ hc ?_
  simp only [cell, Array.getD_eq_getD_getElem?, Array.getElem?_eq_none hle]
  rfl

theorem cell_setCell_self {h : Heap} {c : CellRef} (hc : c.index < h.cells.size)
    (data : LazyCell) : (h.setCell c data).cell c = data := by
  simp [setCell, cell, hc, Array.getElem_modify_self]

theorem cell_setCell_of_ne (h : Heap) {c c' : CellRef} (hc : c' ≠ c) (data : LazyCell) :
    (h.setCell c data).cell c' = h.cell c' := by
  have hindex : c.index ≠ c'.index := by
    intro heq
    cases c
    cases c'
    exact hc (by simp_all)
  simp [setCell, cell, Array.getElem?_modify, hindex]

@[simp] theorem size_cells_setCell (h : Heap) (c : CellRef) (data : LazyCell) :
    (h.setCell c data).cells.size = h.cells.size := by
  simp [setCell]

end Heap

/-! ## What a read shows -/

/-- The value of a property whose value is stored with it. -/
def PropertyForm.plain? : PropertyForm → Option Value
  | .generic => some .undefined
  | .data v => some (v.getD .undefined)
  | .accessor _ _ | .lazy _ | .bound _ _ => none

/-- The value of a property that has one of its own, by now. -/
def Heap.shown? (h : Heap) : PropertyForm → Option Value
  | .lazy c =>
    match h.cell c with
    | .resolved v => some v
    | .unresolved _ | .resolving => none
  | form => form.plain?

theorem Heap.shown?_of_plain? (h : Heap) {form : PropertyForm} {v : Value}
    (hv : form.plain? = some v) : h.shown? form = some v := by
  cases form with
  | lazy c => cases hv
  | _ => exact hv

theorem Heap.shown?_lazy_eq_some {h : Heap} {c : CellRef} {v : Value} :
    h.shown? (.lazy c) = some v ↔ h.cell c = .resolved v := by
  cases hc : h.cell c <;> simp [shown?, hc]

/-- What the earlier heap shows the later one shows too. -/
def Heap.ShowsMore (h h' : Heap) : Prop :=
  ∀ form v, h.shown? form = some v → h'.shown? form = some v

theorem Heap.CellsEvolve.showsMore {h h' : Heap} (hcells : h.CellsEvolve h') :
    h.ShowsMore h' := by
  intro form v hv
  cases form with
  | lazy c =>
      rw [shown?_lazy_eq_some] at hv ⊢
      have hc := hcells.cell c (lt_of_cell_ne_resolving (by simp [hv]))
      rw [hv] at hc
      exact hc.of_resolved
  | _ => exact hv

/-- Two heaps that have evolved from one show the same value of a property. -/
theorem Heap.shown?_unique {h h₁ h₂ : Heap} (h₁' : h.CellsEvolve h₁) (h₂' : h.CellsEvolve h₂)
    {form : PropertyForm} (hform : ∀ c, form = .lazy c → c.index < h.cells.size) {v w : Value}
    (hv : h₁.shown? form = some v) (hw : h₂.shown? form = some w) : v = w := by
  cases form with
  | lazy c =>
      rw [shown?_lazy_eq_some] at hv hw
      have hc₁ := h₁'.cell c (hform c rfl)
      have hc₂ := h₂'.cell c (hform c rfl)
      rw [hv] at hc₁
      rw [hw] at hc₂
      generalize h.cell c = cell at hc₁ hc₂
      cases hc₁ with
      | same => exact (LazyCell.resolved.inj hc₂.of_resolved).symm
      | resolves r =>
          cases hc₂ with
          | resolves => rfl
  | generic => exact Option.some.inj (hv.symm.trans hw)
  | data value => exact Option.some.inj (hv.symm.trans hw)
  | accessor get set => cases hv
  | bound scope name => cases hv

/-- The later form shows what the earlier one does by now. -/
def PropertyForm.Fixed (h' : Heap) (form form' : PropertyForm) : Prop :=
  form' = form ∨
    ∃ v w, h'.shown? form = some v ∧ form'.plain? = some w ∧ v.sameValue w = true

theorem PropertyForm.Fixed.trans {h₂ h₃ : Heap} {f₁ f₂ f₃ : PropertyForm}
    (hshown : h₂.ShowsMore h₃) (h₁₂ : f₁.Fixed h₂ f₂) (h₂₃ : f₂.Fixed h₃ f₃) :
    f₁.Fixed h₃ f₃ := by
  rcases h₁₂ with rfl | ⟨v, w, hv, hw, hvw⟩
  · exact h₂₃
  · have hv' := hshown _ _ hv
    rcases h₂₃ with rfl | ⟨v', w', hv₂, hplain, hsame⟩
    · exact .inr ⟨v, w, hv', hw, hvw⟩
    · rw [h₃.shown?_of_plain? hw] at hv₂
      cases hv₂
      exact .inr ⟨v, w', hv', hplain, Value.sameValue_trans hvw hsame⟩

/-! ## Properties that are not configurable -/

/-- What such a property may become. -/
structure Descriptor.Persists (h' : Heap) (d d' : Descriptor) : Prop where
  configurable : d'.isConfigurable = false
  enumerable : d'.isEnumerable = d.isEnumerable
  accessor : d'.isAccessor = d.isAccessor
  getter : d.isAccessor = true →
    (d.getter?.getD .undefined).sameValue (d'.getter?.getD .undefined) = true
  setter : d.isAccessor = true →
    (d.setter?.getD .undefined).sameValue (d'.setter?.getD .undefined) = true
  writable : d.isAccessor = false → d.isWritable = false → d'.isWritable = false
  value : d.isAccessor = false → d.isWritable = false → d.form.Fixed h' d'.form

namespace Descriptor

theorem persists_refl (h : Heap) {d : Descriptor} (hd : d.isConfigurable = false) :
    d.Persists h d where
  configurable := hd
  enumerable := rfl
  accessor := rfl
  getter _ := Value.sameValue_refl _
  setter _ := Value.sameValue_refl _
  writable _ hw := hw
  value _ _ := .inl rfl

theorem Persists.trans {h₂ h₃ : Heap} {d₁ d₂ d₃ : Descriptor} (hshown : h₂.ShowsMore h₃)
    (h₁₂ : d₁.Persists h₂ d₂) (h₂₃ : d₂.Persists h₃ d₃) : d₁.Persists h₃ d₃ where
  configurable := h₂₃.configurable
  enumerable := h₂₃.enumerable.trans h₁₂.enumerable
  accessor := h₂₃.accessor.trans h₁₂.accessor
  getter ha := Value.sameValue_trans (h₁₂.getter ha) (h₂₃.getter (h₁₂.accessor.trans ha))
  setter ha := Value.sameValue_trans (h₁₂.setter ha) (h₂₃.setter (h₁₂.accessor.trans ha))
  writable ha hw := h₂₃.writable (h₁₂.accessor.trans ha) (h₁₂.writable ha hw)
  value ha hw :=
    (h₁₂.value ha hw).trans hshown (h₂₃.value (h₁₂.accessor.trans ha) (h₁₂.writable ha hw))

end Descriptor

/-! ## Objects -/

/-- What an object may become. -/
structure Object.Evolves (h' : Heap) (o o' : Object) : Prop where
  extensible : o.isExtensible = false → o'.isExtensible = false
  prototype : o.isExtensible = false → o'.prototype = o.prototype
  absent : o.isExtensible = false → ∀ k, o.own? k = none → o'.own? k = none
  own : ∀ k d, o.own? k = some d → d.isConfigurable = false →
    ∃ d', o'.own? k = some d' ∧ d.Persists h' d'

namespace Object

theorem evolves_refl (h : Heap) (o : Object) : o.Evolves h o where
  extensible hx := hx
  prototype _ := rfl
  absent _ _ hk := hk
  own _ d hd hc := ⟨d, hd, Descriptor.persists_refl h hc⟩

theorem Evolves.trans {h₂ h₃ : Heap} {o₁ o₂ o₃ : Object} (hshown : h₂.ShowsMore h₃)
    (h₁₂ : o₁.Evolves h₂ o₂) (h₂₃ : o₂.Evolves h₃ o₃) : o₁.Evolves h₃ o₃ where
  extensible hx := h₂₃.extensible (h₁₂.extensible hx)
  prototype hx := (h₂₃.prototype (h₁₂.extensible hx)).trans (h₁₂.prototype hx)
  absent hx k hk := h₂₃.absent (h₁₂.extensible hx) k (h₁₂.absent hx k hk)
  own k d hd hc := by
    obtain ⟨d₂, hd₂, hp₂⟩ := h₁₂.own k d hd hc
    obtain ⟨d₃, hd₃, hp₃⟩ := h₂₃.own k d₂ hd₂ hp₂.configurable
    exact ⟨d₃, hd₃, hp₂.trans hshown hp₃⟩

end Object

/-! ## Heaps -/

namespace Heap

structure Evolves (h h' : Heap) : Prop where
  cells : h.CellsEvolve h'
  objects_le : h.objects.size ≤ h'.objects.size
  object : ∀ o : ObjectRef, o.index < h.objects.size → (h.object o).Evolves h' (h'.object o)

theorem evolves_refl (h : Heap) : h.Evolves h :=
  ⟨h.cellsEvolve_refl, Nat.le_refl _, fun o _ ↦ (h.object o).evolves_refl h⟩

theorem Evolves.trans {h₁ h₂ h₃ : Heap} (h₁₂ : h₁.Evolves h₂) (h₂₃ : h₂.Evolves h₃) :
    h₁.Evolves h₃ := by
  refine ⟨h₁₂.cells.trans h₂₃.cells, Nat.le_trans h₁₂.objects_le h₂₃.objects_le, ?_⟩
  intro o ho
  have ho₂ := Nat.lt_of_lt_of_le ho h₁₂.objects_le
  exact (h₁₂.object o ho).trans h₂₃.cells.showsMore (h₂₃.object o ho₂)

theorem evolves_of_eq {h h' : Heap} (hobjects : h'.objects = h.objects)
    (hcells : h'.cells = h.cells) : h.Evolves h' := by
  have hobject (o : ObjectRef) : h'.object o = h.object o := by simp [object, hobjects]
  have hcell (c : CellRef) : h'.cell c = h.cell c := by simp [cell, hcells]
  refine ⟨⟨by simp [hcells], ?_⟩, by simp [hobjects], ?_⟩
  · intro c _
    rw [hcell]
    exact .same _
  · intro o _
    rw [hobject]
    exact (h.object o).evolves_refl h'

theorem Grows.evolves {H : HostContract} {h h' : Heap} (hg : h.Grows H h') :
    h.Evolves h' := by
  refine ⟨⟨hg.cells_le, ?_⟩, hg.objects_le, ?_⟩
  · intro c hc
    rw [hg.cell_eq c hc]
    exact .same _
  · intro o ho
    rw [hg.object_eq o ho]
    exact (h.object o).evolves_refl h'

/-- The object that is changed last is looked at from the start. -/
theorem Evolves.modifyObject {h₀ h : Heap} (hev : h₀.Evolves h) (o : ObjectRef)
    {f : Object → Object}
    (hf : o.index < h₀.objects.size → (h₀.object o).Evolves h (f (h.object o))) :
    h₀.Evolves (h.modifyObject o f) := by
  have hcells : h.CellsEvolve (h.modifyObject o f) := ⟨Nat.le_refl _, fun _ _ ↦ .same _⟩
  refine ⟨hev.cells.trans hcells, ?_, ?_⟩
  · simpa [Heap.modifyObject] using hev.objects_le
  · intro p hp
    by_cases hpo : p = o
    · subst hpo
      rw [object_modifyObject_self (Nat.lt_of_lt_of_le hp hev.objects_le)]
      exact (hf hp).trans hcells.showsMore (Object.evolves_refl _ _)
    · rw [object_modifyObject_of_ne h hpo]
      exact (hev.object p hp).trans hcells.showsMore (Object.evolves_refl _ _)

/-! ### Resolving a cell -/

section Resolving

variable {h : Heap} {c : CellRef} {r : Resolver} (hc : h.cell c = .unresolved r)

include hc

/-- A cell is marked while its resolver runs. -/
theorem cellsEvolve_setCell_resolving : h.CellsEvolve (h.setCell c .resolving) := by
  have hlt : c.index < h.cells.size := lt_of_cell_ne_resolving (by simp [hc])
  refine ⟨by simp, ?_⟩
  intro c' hc'
  by_cases heq : c' = c
  · rw [heq, cell_setCell_self hlt, hc]
    exact .starts r
  · rw [cell_setCell_of_ne h heq]
    exact .same _

/-- The mark stays, whatever goes on meanwhile. -/
theorem CellsEvolve.cell_of_marked {h' : Heap} (hev : (h.setCell c .resolving).CellsEvolve h') :
    c.index < h'.cells.size ∧ h'.cell c = .resolving := by
  have hlt : c.index < h.cells.size := lt_of_cell_ne_resolving (by simp [hc])
  have hcell := hev.cell c (by simpa using hlt)
  rw [cell_setCell_self hlt] at hcell
  exact ⟨Nat.lt_of_lt_of_le hlt (by simpa using hev.size_le), hcell.of_resolving⟩

/-- When the resolver is done the cell has its value. -/
theorem CellsEvolve.setCell_resolved {h' : Heap} (hev : (h.setCell c .resolving).CellsEvolve h') :
    h.CellsEvolve (h'.setCell c (.resolved r.value)) := by
  refine ⟨by simpa using hev.size_le, ?_⟩
  intro c' hc'
  by_cases heq : c' = c
  · rw [heq, cell_setCell_self (hev.cell_of_marked hc).1, hc]
    exact .resolves r
  · rw [cell_setCell_of_ne h' heq]
    have hcell := hev.cell c' (by simpa using hc')
    rwa [cell_setCell_of_ne h heq] at hcell

theorem evolves_setCell_resolving : h.Evolves (h.setCell c .resolving) :=
  ⟨cellsEvolve_setCell_resolving hc, Nat.le_refl _, fun o _ ↦ (h.object o).evolves_refl _⟩

theorem Evolves.setCell_resolved {h' : Heap} (hev : (h.setCell c .resolving).Evolves h') :
    h.Evolves (h'.setCell c (.resolved r.value)) := by
  obtain ⟨-, hmarked⟩ := hev.cells.cell_of_marked hc
  -- The marked cell showed nothing before, so showing its value takes nothing back.
  have hshown : h'.ShowsMore (h'.setCell c (.resolved r.value)) := by
    intro form v hv
    cases form with
    | lazy c' =>
        rw [shown?_lazy_eq_some] at hv ⊢
        have heq : c' ≠ c := by
          rintro rfl
          simp [hmarked] at hv
        rw [cell_setCell_of_ne h' heq]
        exact hv
    | _ => exact hv
  refine ⟨hev.cells.setCell_resolved hc, hev.objects_le, ?_⟩
  intro o ho
  exact (hev.object o ho).trans hshown (Object.evolves_refl _ _)

end Resolving

end Heap

end Ecma
