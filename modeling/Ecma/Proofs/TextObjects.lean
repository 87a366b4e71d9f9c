import Ecma.Proofs.FrozenProperties
import Ecma.Proofs.OwnKeyOrder

/-!
# Objects of texts

The object of a text has a property for each unit, which is made when it is first
read, and one for the length.  The keys of the units come first, however the store
has grown.  All these properties are frozen and their resolvers do nothing on the
way, so whatever is done to the object they can be read, and read the same.
-/

namespace Ecma

/-! ## Cells that only yield a value -/

/-- The cell has the value, or a resolver that does nothing but yield it. -/
def LazyCell.Gives (v : Value) (cell : LazyCell) : Prop :=
  cell = .unresolved (.constant v) ∨ cell = .resolved v

theorem Heap.lt_of_gives {h : Heap} {c : CellRef} {v : Value} (hc : (h.cell c).Gives v) :
    c.index < h.cells.size := by
  refine lt_of_cell_ne_resolving fun heq ↦ ?_
  rcases hc with hc | hc <;> cases heq.symm.trans hc

/-- Between operations the cell is never being resolved. -/
def giving (c : CellRef) (v : Value) : Discipline where
  toHostContract := anyHost
  Good σ := (σ.heap.cell c).Gives v
  Step _ _ := True
  refl _ := trivial
  trans _ _ := trivial
  fails _ _ := trivial
  patches _ _ := trivial

namespace giving

variable {c : CellRef} {v : Value}

theorem good_of_grows {h h' : Heap} (hg : h.Grows anyHost h') (hc : (h.cell c).Gives v) :
    (h'.cell c).Gives v := by
  rw [hg.cell_eq c (Heap.lt_of_gives hc)]
  exact hc

theorem base : (giving c v).Base where
  quiet σ σ' _ hcells _ hσ := by
    have hcell : σ'.heap.cell c = σ.heap.cell c := by rw [Heap.cell, hcells, Heap.cell]
    exact ⟨(congrArg (LazyCell.Gives v) hcell).mpr hσ, trivial⟩
  grows _ _ hg _ hσ := ⟨good_of_grows hg hσ, trivial⟩
  deepen _ hσ := hσ
  surface _ _ _ hτ _ := ⟨hτ, trivial⟩
  beside σ hσ := good_of_grows (Realm.grows_build _ σ.heap) hσ
  resume _ _ _ hτ _ := ⟨hτ, trivial⟩
  callable _ _ f _ _ := by
    cases f with
    | closure f s strict => trivial
    | native name arity run =>
        exact fun _ _ ↦ HostProgram.honours_of_forall (fun _ ↦ trivial) (fun _ ↦ trivial) _

/-- Its own resolver has no steps, and that of another cell does not touch it. -/
theorem keeps_resolve {eng : Engine} (heng : (giving c v).Holds eng) (c' : CellRef)
    (key : String) : (giving c v).Keeps (Lazy.resolve eng c' key) := by
  intro σ hσ
  rw [Lazy.run_resolve]
  by_cases heq : c' = c
  · subst heq
    rcases id hσ with hc | hc
    · have hlt := Heap.lt_of_gives hσ
      rw [hc]
      refine ⟨.inr (Heap.cell_setCell_self (by simpa [State.marking] using hlt) _), trivial, ?_⟩
      rintro _ ⟨⟩
    · rw [hc]
      exact Discipline.allows_ok hσ v
  · have hset {τ : State} (hτ : (giving c v).Good τ) (data : LazyCell) :
        ((τ.heap.setCell c' data).cell c).Gives v := by
      rw [Heap.cell_setCell_of_ne _ (Ne.symm heq)]
      exact hτ
    cases hc : σ.heap.cell c' with
    | resolved w => exact Discipline.allows_ok hσ w
    | resolving => exact ⟨hσ, trivial, fun _ _ ↦ trivial⟩
    | unresolved r =>
        have hsteps := Discipline.keeps_runSteps base heng r.steps (σ.marking c') (hset hσ _)
        dsimp only
        rcases hrun : (Lazy.runSteps eng r.steps).run (σ.marking c') with ⟨e | _, τ⟩
        · rw [hrun] at hsteps
          exact ⟨hsteps.good, trivial, fun _ _ ↦ trivial⟩
        · rw [hrun] at hsteps
          refine ⟨hset hsteps.good _, trivial, ?_⟩
          rintro _ ⟨⟩

theorem lax : (giving c v).policy.Lax where
  basics := base.basics
  newCell r _ := base.keeps_newCell r
  constant _ := trivial
  addObject _ _ _ hσ := ⟨hσ, trivial, nofun⟩
  modifyObject _ _ _ _ hσ := ⟨hσ, trivial, nofun⟩
  storeBound := base.keeps_storeBound
  resolve _ heng := keeps_resolve (Discipline.holds_of_serves heng)

theorem lawful : (giving c v).Lawful := base.lawful_of_lax lax

end giving

/-! ## Frozen properties that can always be read -/

namespace Object

/-- At every level the property is there, frozen, with a value as `Q` says, and every read of it
comes to an end and gives one. -/
structure ShowsFrozen (o : ObjectRef) (k : PropertyKey) (enumerable : Bool) (Q : Value → Prop)
    (σ : State) : Prop where
  getOwn : ∀ n, ∃ shown v τ, (Object.getOwn (.level n) o k).run σ = (.ok (some shown), τ) ∧
    shown.IsFrozen ∧ shown.isEnumerable = enumerable ∧ shown.form = .data (some v) ∧ Q v
  read : ∀ n m, ReadsSlot n o k σ.heap m → ∃ v τ, m.run σ = (.ok v, τ) ∧ Q v

variable {o : ObjectRef} {k : PropertyKey} {Q : Value → Prop} {σ τ : State} {v : Value}

theorem showsFrozen_of_data {a : Attributes} (hown : σ.heap.own? o k = some ⟨a, .data (some v)⟩)
    (hd : Descriptor.IsFrozen ⟨a, .data (some v)⟩) (hv : Q v) :
    ShowsFrozen o k (Descriptor.isEnumerable ⟨a, .data (some v)⟩) Q σ where
  getOwn _ := ⟨_, v, σ, run_getOwn_shown _ hown nofun, hd, rfl, rfl, hv⟩
  read _ _ hm := ⟨v, σ, hm.run_plain hown rfl, hv⟩

theorem showsFrozen_of_lazy {a : Attributes} {c : CellRef}
    (hown : σ.heap.own? o k = some ⟨a, .lazy c⟩) (hd : Descriptor.IsFrozen ⟨a, .lazy c⟩)
    (hc : (σ.heap.cell c).Gives v) (hv : Q v) :
    ShowsFrozen o k (Descriptor.isEnumerable ⟨a, .lazy c⟩) Q σ := by
  have hrun (n : Nat) : ∃ τ, (Object.getOwn (.level n) o k).run σ =
      (.ok (some ⟨a, .data (some v)⟩), τ) := by
    rw [run_getOwn, hown]
    dsimp only
    rw [Lazy.run_resolve]
    rcases hc with hc | hc <;> rw [hc] <;> exact ⟨_, rfl⟩
  refine ⟨fun n ↦ ?_, fun n m hm ↦ ?_⟩
  · obtain ⟨τ, hτ⟩ := hrun n
    exact ⟨_, v, τ, hτ, ⟨rfl, hd.configurable, hd.writable⟩, rfl, rfl, hv⟩
  · obtain ⟨τ, hτ⟩ := hrun n
    exact ⟨v, τ, hm.run_eq_of_getOwn hown hτ, hv⟩

/-- A frozen property that has its value, or a resolver that only yields it, keeps it. -/
theorem showsFrozen_of_evolves {d : Descriptor} (hev : σ.heap.Evolves τ.heap)
    (hown : σ.heap.own? o k = some d) (hd : d.IsFrozen)
    (hdue : σ.heap.due? d.form = some v) (hcell : ∀ c, d.form = .lazy c → (τ.heap.cell c).Gives v)
    (hv : v ≠ .undefined) (hQ : ∀ u, v.sameValue u = true → Q u) :
    ShowsFrozen o k d.isEnumerable Q τ := by
  obtain ⟨⟨a, form⟩, hown', hd', henumerable, hsame, hform⟩ := hev.frozen hown hd
  have hplain {u : Value} (hu : form.plain? = some u) : v.sameValue u = true :=
    hsame v u hdue (Heap.due?_of_plain? hu)
  have hdefined : v.sameValue .undefined ≠ true := fun h ↦ by
    cases v with
    | undefined => exact hv rfl
    | _ => cases h
  rw [← henumerable]
  cases form with
  | data value =>
      cases value with
      | none => exact absurd (hplain rfl) hdefined
      | some u => exact showsFrozen_of_data hown' hd' (hQ u (hplain rfl))
  | lazy c =>
      rcases hform with hform | ⟨u, hu⟩
      · exact showsFrozen_of_lazy hown' hd' (hcell c hform.symm) (hQ v (Value.sameValue_refl v))
      · cases hu
  | generic => exact absurd (hplain rfl) hdefined
  | accessor get set => cases hd'.accessor
  | bound scope name =>
      rcases hform with hform | ⟨u, hu⟩
      · rw [← hform] at hdue
        cases hdue
      · cases hu

end Object

/-! ## How the properties are stored -/

namespace Text

/-- The texts of the first numbers. -/
def indexTexts (n : ℕ) : List Text := (List.range n).map fun i ↦ ofString (toString i)

theorem indexTexts_succ (n : ℕ) : indexTexts (n + 1) = indexTexts n ++ [ofString (toString n)] := by
  simp [indexTexts, List.range_succ]

end Text

namespace Object

theorem arrayIndex?_of_mem_range {n i : ℕ} (hn : n ≤ Text.indexLimit) (hi : i ∈ List.range n) :
    (Text.ofString (toString i)).arrayIndex? = some i :=
  Text.arrayIndex?_eq_some_iff.2 ⟨Nat.lt_of_lt_of_le (List.mem_range.1 hi) hn, rfl⟩

theorem filterMap_indexEntry?_indexTexts {n : ℕ} (hn : n ≤ Text.indexLimit) :
    (Text.indexTexts n).filterMap indexEntry? =
      (List.range n).map fun i ↦ (i, Text.ofString (toString i)) := by
  rw [Text.indexTexts, List.filterMap_map, ← List.filterMap_eq_map]
  refine List.filterMap_congr fun i hi ↦ ?_
  rw [Function.comp_apply, indexEntry?, arrayIndex?_of_mem_range hn hi]
  rfl

/-- Index keys that stand in order in the store are listed so, before a text that is none. -/
theorem ownKeys_of_indexTexts {o : Object} {n : ℕ} {t : Text} (hn : n ≤ Text.indexLimit)
    (ht : t.arrayIndex? = none) (hstrings : o.strings.keys = Text.indexTexts n ++ [t])
    (hsymbols : o.symbols.keys = []) :
    o.ownKeys = (List.range n).map PropertyKey.index ++ [.string t] := by
  have hentries : o.strings.keys.filterMap indexEntry? =
      (List.range n).map fun i ↦ (i, Text.ofString (toString i)) := by
    rw [hstrings, List.filterMap_append, filterMap_indexEntry?_indexTexts hn]
    simp [ht, indexEntry?]
  have hsorted : ((List.range n).map fun i ↦ (i, Text.ofString (toString i))).mergeSort
      (fun a b ↦ decide (a.1 ≤ b.1)) =
        (List.range n).map fun i ↦ (i, Text.ofString (toString i)) := by
    refine List.mergeSort_of_pairwise ?_
    rw [List.pairwise_map]
    exact List.pairwise_le_range.imp fun h ↦ decide_eq_true h
  have hothers : (o.strings.keys.filter fun t ↦ t.arrayIndex?.isNone) = [t] := by
    rw [hstrings, List.filter_append, List.filter_eq_nil_iff.2]
    · simp [ht]
    · intro u hu
      obtain ⟨i, hi, rfl⟩ := List.mem_map.1 hu
      rw [arrayIndex?_of_mem_range hn hi]
      exact Bool.false_ne_true
  rw [ownKeys, ownTexts, hentries, hsorted, hothers, hsymbols]
  simp [PropertyKey.index, Function.comp_def]

end Object

namespace Conversion

/-- The object has a property for each of the units, which is yet to be made, and no other. -/
structure HoldsUnits (h : Heap) (data : Object) (units : List UInt16) : Prop where
  valid : data.Valid
  strings : data.strings.keys = Text.indexTexts units.length
  symbols : data.symbols.keys = []
  own : ∀ i u, units[i]? = some u → ∃ c, data.own? (.index i) = some (.lazy c false true false) ∧
    h.cell c = .unresolved (.constant (unitText u))

section Units

variable {h : Heap} {data : Object} {units : List UInt16}

theorem HoldsUnits.own?_eq_none (hdata : HoldsUnits h data units) {t : Text}
    (ht : ∀ i < units.length, Text.ofString (toString i) ≠ t) : data.own? (.string t) = none := by
  rw [← Option.not_isSome_iff_eq_none]
  intro hsome
  have hmem := (hdata.valid.strings.mem_keys t).2 hsome
  rw [hdata.strings] at hmem
  obtain ⟨i, hi, heq⟩ := List.mem_map.1 hmem
  exact ht i (List.mem_range.1 hi) heq

theorem HoldsUnits.keys_store (hdata : HoldsUnits h data units) {t : Text}
    (ht : ∀ i < units.length, Text.ofString (toString i) ≠ t) (d : Descriptor) :
    (data.store (.string t) d).strings.keys = Text.indexTexts units.length ++ [t] := by
  have hnone : data.strings.get? t = none := hdata.own?_eq_none ht
  have hkeys := hdata.valid.strings.keys_set t d
  rw [hnone, hdata.strings] at hkeys
  exact hkeys

/-- One more unit is stored. -/
theorem HoldsUnits.store (hdata : HoldsUnits h data units) (u : UInt16) :
    HoldsUnits (h.addCell (.unresolved (.constant (unitText u)))).2
      (data.store (.index units.length)
        (.lazy (h.addCell (.unresolved (.constant (unitText u)))).1 false true false))
      (units ++ [u]) := by
  have hne (i : ℕ) (hi : i ≠ units.length) :
      Text.ofString (toString i) ≠ Text.ofString (toString units.length) := fun heq ↦
    hi (PropertyKey.index_same_index.1 (PropertyKey.same_string_iff.2 heq))
  refine ⟨hdata.valid.store _ _, ?_, hdata.symbols, fun i u' hu' ↦ ?_⟩
  · rw [List.length_append, List.length_singleton, Text.indexTexts_succ]
    exact hdata.keys_store (fun i hi ↦ hne i (Nat.ne_of_lt hi)) _
  · rw [hdata.valid.own?_store]
    by_cases hi : i = units.length
    · subst hi
      rw [List.getElem?_append_right (Nat.le_refl _), Nat.sub_self] at hu'
      cases hu'
      refine ⟨_, if_pos (PropertyKey.same_self _), ?_⟩
      exact (Heap.cell_addCell _ _ _).trans (if_pos rfl)
    · rw [List.getElem?_append_left (by
        have hlt := (List.getElem?_eq_some_iff.1 hu').1
        rw [List.length_append, List.length_singleton] at hlt
        omega)] at hu'
      obtain ⟨c, hown, hc⟩ := hdata.own i u' hu'
      have hlt : c.index < h.cells.size := Heap.lt_of_cell_ne_resolving (by simp [hc])
      refine ⟨c, ?_, ?_⟩
      · rw [if_neg fun hsame ↦ hi (PropertyKey.index_same_index.1 hsame).symm]
        exact hown
      · rw [Heap.cell_addCell, if_neg (Nat.ne_of_lt hlt)]
        exact hc

theorem run_storeUnits (rest : List UInt16) {σ : State} (hdata : HoldsUnits σ.heap data units) :
    ∃ data' heap, (storeUnits units.length rest data).run σ = (.ok data', { σ with heap }) ∧
      HoldsUnits heap data' (units ++ rest) := by
  induction rest generalizing units data σ with
  | nil => exact ⟨data, σ.heap, rfl, by simpa using hdata⟩
  | cons u rest ih =>
      let made := σ.heap.addCell (.unresolved (.constant (unitText u)))
      have hstored : HoldsUnits made.2 _ (units ++ [u]) := hdata.store u
      obtain ⟨data', heap, hrun, hholds⟩ := ih (σ := { σ with heap := made.2 }) hstored
      rw [List.length_append, List.length_singleton] at hrun
      rw [List.append_assoc] at hholds
      exact ⟨data', heap, hrun, hholds⟩

theorem holdsUnits_new (h : Heap) (c : ObjectClass) (prototype : Option ObjectRef) (cutover : Nat)
    (v : Value) : HoldsUnits h { Object.new c prototype cutover with primitive := some v } [] where
  valid := ⟨(Object.valid_new c prototype cutover).strings, PropertyStore.valid_empty cutover⟩
  strings := rfl
  symbols := rfl
  own _ _ hu := nomatch hu

end Units

/-- The object is as it was made for the text. -/
structure IsTextObject (h : Heap) (w : ObjectRef) (t : Text) : Prop where
  keys : (h.object w).ownKeys =
    (List.range t.length).map PropertyKey.index ++ [.ofString "length"]
  unit : ∀ i u, t.units[i]? = some u → ∃ c, h.own? w (.index i) = some (.lazy c false true false) ∧
    h.cell c = .unresolved (.constant (unitText u))
  length : h.own? w (.ofString "length") = some (.data (.ofNat t.length) false false false)

theorem HoldsUnits.isTextObject {h : Heap} {data : Object} {t : Text}
    (ht : t.length < Text.indexLimit) (hdata : HoldsUnits h data t.units) :
    let made := h.addObject
      (data.store (.ofString "length") (.data (.ofNat t.length) false false false))
    IsTextObject made.2 made.1 t := by
  intro made
  have hindex (i : ℕ) : (PropertyKey.ofString "length").same (.index i) = false :=
    PropertyKey.ofString_same_index (c := 'l') (by decide) (by decide) i
  have hne (i : ℕ) : Text.ofString (toString i) ≠ Text.ofString "length" := fun heq ↦
    absurd (PropertyKey.same_string_iff.2 heq.symm) (Bool.eq_false_iff.1 (hindex i))
  have hnone : (Text.ofString "length").arrayIndex? = none := by decide
  refine ⟨?_, fun i u hu ↦ ?_, ?_⟩
  · rw [Heap.object_addObject_self]
    exact Object.ownKeys_of_indexTexts (Nat.le_of_lt ht) hnone
      (hdata.keys_store (fun i _ ↦ hne i) _) hdata.symbols
  · obtain ⟨c, hown, hc⟩ := hdata.own i u hu
    refine ⟨c, ?_, hc⟩
    rw [Heap.own?, Heap.object_addObject_self, hdata.valid.own?_store, hindex i]
    exact hown
  · rw [Heap.own?, Heap.object_addObject_self, hdata.valid.own?_store, PropertyKey.same_self]
    rfl

theorem run_toObject_string (t : Text) (ht : t.length < Text.indexLimit) (σ : State) :
    ∃ w heap, (toObject (.string t)).run σ = (.ok w, { σ with heap }) ∧ IsTextObject heap w t := by
  have hnew := holdsUnits_new σ.heap .string (some σ.realm.stringPrototype) σ.options.cutover
    (.string t)
  obtain ⟨data, heap, hrun, hdata⟩ := run_storeUnits t.units hnew
  let stored := data.store (.ofString "length") (.data (.ofNat t.length) false false false)
  refine ⟨(heap.addObject stored).1, (heap.addObject stored).2, ?_, hdata.isTextObject ht⟩
  have hwrap : (toObject (.string t)).run σ = (do
      let data ← storeText t
        { Object.new .string (some σ.realm.stringPrototype) σ.options.cutover with
          primitive := some (.string t) }
      Action.onHeap (·.addObject data) : Action ObjectRef).run σ := rfl
  rw [hwrap, storeText, bind_assoc, Action.run_bind]
  rw [List.length_nil] at hrun
  rw [hrun]
  rfl

/-! ## What remains of them -/

/-- The object of a text has the keys of its units in order, and its length.  Whatever is done
afterwards, each unit is a text of its own in a property that is enumerable and cannot change, and
so is the length, which is not enumerable. -/
theorem text_object_shows_its_units (t : Text) (ht : t.length < 2 ^ 32 - 1) (σ : State)
    (hσ : σ.heap.IsRegular) :
    ∃ w σ', (toObject (.string t)).run σ = (.ok w, σ') ∧
      (σ'.heap.object w).ownKeys =
        (List.range t.length).map PropertyKey.index ++ [.ofString "length"] ∧
      ∀ n ops, (∀ op ∈ ops, ObjectOperation.IsOrdinary op) →
        let τ := ObjectOperation.runAll (.level n) ops σ'
        (∀ i u, t.units[i]? = some u →
          Object.ShowsFrozen w (.index i) true (· = .string ⟨[u]⟩) τ) ∧
        Object.ShowsFrozen w (.ofString "length") false
          (fun v ↦ (Value.ofNat t.length).sameValue v = true) τ := by
  obtain ⟨w, heap, hrun, hmade⟩ := run_toObject_string t ht σ
  have hregular : heap.IsRegular :=
    ((evolution.base.keeps_wrap .string σ.realm.stringPrototype (.string t)).allows hσ hrun).good
  refine ⟨w, { σ with heap }, hrun, hmade.keys, fun n ops hops ↦ ?_⟩
  dsimp only
  obtain ⟨-, hev⟩ := ObjectOperation.keeps_runAll (evolution.lawful.governs_level n)
    (fun _ hd ↦ hd) hops
    (σ := { σ with heap }) hregular
  have hgives {c : CellRef} {v : Value} (hc : (heap.cell c).Gives v) :=
    (ObjectOperation.keeps_runAll (giving.lawful.governs_level n) (fun _ _ ↦ trivial) hops
      (σ := { σ with heap }) hc).1
  constructor
  · intro i u hu
    obtain ⟨c, hown, hc⟩ := hmade.unit i u hu
    have hdue : heap.due? (.lazy c) = some (unitText u) := by
      rw [Heap.due?, hc]
      rfl
    refine Object.showsFrozen_of_evolves hev hown ⟨rfl, rfl, rfl⟩ hdue ?_ ?_ ?_
    · rintro _ ⟨⟩
      exact hgives (.inl hc)
    · rintro ⟨⟩
    · intro v hv
      cases v with
      | string s => exact congrArg Value.string (eq_of_beq hv).symm
      | _ => cases hv
  · refine Object.showsFrozen_of_evolves hev hmade.length ⟨rfl, rfl, rfl⟩ rfl ?_ ?_ fun _ hv ↦ hv
    · rintro _ ⟨⟩
    · rintro ⟨⟩

/-- A unit that is half of a pair, in a store that changes over at once. -/
theorem text_object_shows_its_units_unpaired :
    let t : Text := ⟨[0x61, 0xd800]⟩
    let σ := State.initial { Options.standard with cutover := 1 }
    let ops (w : ObjectRef) : List ObjectOperation :=
      [.set w (.index 1) .null (.object w), .delete w (.index 0),
        .define w (.ofString "length") (.data .null true true true)]
    t.length < 2 ^ 32 - 1 ∧ σ.heap.IsRegular ∧ (∀ w, ∀ op ∈ ops w, op.IsOrdinary) ∧
      ∃ w σ', (toObject (.string t)).run σ = (.ok w, σ') ∧
        (σ'.heap.object w).ownKeys = [.index 0, .index 1, .ofString "length"] ∧
        Object.ShowsFrozen w (.index 1) true (· = .string ⟨[0xd800]⟩)
          (ObjectOperation.runAll (.level 9) (ops w) σ') := by
  intro t σ ops
  have ht : t.length < 2 ^ 32 - 1 := by decide
  have hσ : σ.heap.IsRegular := Heap.isRegular_empty.of_grows (Realm.grows_build _ _)
  have hops (w : ObjectRef) : ∀ op ∈ ops w, op.IsOrdinary := by
    simp [ops, ObjectOperation.IsOrdinary, Descriptor.IsOrdinary, Descriptor.data]
  obtain ⟨w, σ', hrun, hkeys, hshows⟩ := text_object_shows_its_units t ht σ hσ
  exact ⟨ht, hσ, hops, w, σ', hrun, hkeys, (hshows 9 (ops w) (hops w)).1 1 0xd800 rfl⟩

end Conversion

end Ecma
