import Ecma.Expression.Operator
import Ecma.Object.ForIn
import Ecma.Proofs.Memoisation
import Mathlib.Data.List.Nodup
import Mathlib.Data.List.Perm.Subperm

/-!
# Prototype chains end

A new object has a prototype that was there before it, and an object never gets
a prototype whose chain leads back to it.  So following prototypes from any
object comes to an end, no object is met twice on the way, and all that is
looked for along a chain is looked for along the whole of it.
-/

namespace Ecma

/-! ## Walks -/

namespace Heap

/-- Following prototypes from a place meets these objects and then ends. -/
inductive Walk (h : Heap) : Option ObjectRef → List ObjectRef → Prop where
  | done : h.Walk none []
  | step (o : ObjectRef) {rest : List ObjectRef} (hrest : h.Walk (h.object o).prototype rest) :
      h.Walk (some o) (o :: rest)

/-- A place to walk from: an object that is there, or none. -/
def Knows (h : Heap) (p : Option ObjectRef) : Prop := ∀ o, p = some o → o.index < h.objects.size

/-- The later heap has the same objects with the same prototypes. -/
structure SamePrototypes (h h' : Heap) : Prop where
  size : h'.objects.size = h.objects.size
  prototype : ∀ o, (h'.object o).prototype = (h.object o).prototype

theorem samePrototypes_refl (h : Heap) : h.SamePrototypes h := ⟨rfl, fun _ ↦ rfl⟩

theorem SamePrototypes.trans {h₁ h₂ h₃ : Heap} (h₁₂ : h₁.SamePrototypes h₂)
    (h₂₃ : h₂.SamePrototypes h₃) : h₁.SamePrototypes h₃ :=
  ⟨h₂₃.size.trans h₁₂.size, fun o ↦ (h₂₃.prototype o).trans (h₁₂.prototype o)⟩

/-- Where there is no object nothing is changed. -/
theorem object_modifyObject_of_ge {h : Heap} {o : ObjectRef} (ho : h.objects.size ≤ o.index)
    (f : Object → Object) (p : ObjectRef) : (h.modifyObject o f).object p = h.object p := by
  by_cases hpo : p = o
  · simp [hpo, modifyObject, object, ho]
  · exact object_modifyObject_of_ne h hpo f

theorem samePrototypes_modifyObject (h : Heap) (o : ObjectRef) {f : Object → Object}
    (hf : ∀ data, (f data).prototype = data.prototype) :
    h.SamePrototypes (h.modifyObject o f) := by
  refine ⟨by simp [modifyObject], fun p ↦ ?_⟩
  by_cases hpo : p = o
  · rcases Nat.lt_or_ge o.index h.objects.size with ho | ho
    · rw [hpo, object_modifyObject_self ho, hf]
    · rw [object_modifyObject_of_ge ho]
  · rw [object_modifyObject_of_ne h hpo]

variable {h h' : Heap} {p : Option ObjectRef} {l l' : List ObjectRef} {o : ObjectRef}

theorem Knows.mono (hp : h.Knows p) (hle : h.objects.size ≤ h'.objects.size) : h'.Knows p :=
  fun o ho ↦ Nat.lt_of_lt_of_le (hp o ho) hle

namespace Walk

theorem unique (hl : h.Walk p l) (hl' : h.Walk p l') : l = l' := by
  induction hl generalizing l' with
  | done =>
      cases hl'
      rfl
  | step o hrest ih =>
      cases hl' with
      | step _ hrest' => rw [ih hrest']

theorem exists_suffix (hl : h.Walk p l) (ho : o ∈ l) : ∃ l', h.Walk (some o) l' ∧ l' <:+ l := by
  induction hl with
  | done => cases ho
  | step o' hrest ih =>
      rcases List.mem_cons.1 ho with rfl | ho
      · exact ⟨_, .step o hrest, List.suffix_refl _⟩
      · obtain ⟨l', hl', hsuffix⟩ := ih ho
        exact ⟨l', hl', hsuffix.trans (List.suffix_cons _ _)⟩

/-- No object is met twice: the walk from the second meeting is the walk from the
first, but shorter. -/
theorem nodup (hl : h.Walk p l) : l.Nodup := by
  induction hl with
  | done => exact List.nodup_nil
  | step o hrest ih =>
      refine List.nodup_cons.2 ⟨fun ho ↦ ?_, ih⟩
      obtain ⟨l', hl', hsuffix⟩ := hrest.exists_suffix ho
      have hle := hsuffix.length_le
      rw [hl'.unique (.step o hrest), List.length_cons] at hle
      omega

theorem congr (hl : h.Walk p l)
    (hsame : ∀ o ∈ l, (h'.object o).prototype = (h.object o).prototype) : h'.Walk p l := by
  induction hl with
  | done => exact .done
  | step o hrest ih =>
      refine .step o ?_
      rw [hsame o List.mem_cons_self]
      exact ih fun o ho ↦ hsame o (List.mem_cons_of_mem _ ho)

/-- A bound that a walk keeps to does not cut it. -/
theorem chainFrom_eq (hl : h.Walk p l) {n : Nat} (hn : l.length ≤ n) : h.chainFrom n p = l := by
  induction hl generalizing n with
  | done => cases n <;> rfl
  | step o hrest ih =>
      obtain ⟨m, rfl⟩ : ∃ m, n = m + 1 := ⟨n - 1, by simp at hn; omega⟩
      rw [Heap.chainFrom, ih (by simpa using hn)]

end Walk

/-! ## Grounded heaps -/

/-- Prototypes are there, chains end, and reading a property runs no code. -/
structure IsGrounded (h : Heap) : Prop where
  known : ∀ o, h.Knows (h.object o).prototype
  ends : ∀ o, ∃ l, h.Walk (some o) l
  quiet : ∀ c, (h.cell c).IsQuiet

namespace IsGrounded

variable (hh : h.IsGrounded)

include hh

theorem exists_walk (p : Option ObjectRef) : ∃ l, h.Walk p l := by
  cases p with
  | none => exact ⟨[], .done⟩
  | some o => exact hh.ends o

theorem lt_of_walk (hp : h.Knows p) (hl : h.Walk p l) : ∀ o ∈ l, o.index < h.objects.size := by
  induction hl with
  | done => nofun
  | step o hrest ih =>
      intro o' ho'
      rcases List.mem_cons.1 ho' with rfl | ho'
      · exact hp o' rfl
      · exact ih (hh.known o) o' ho'

/-- As no object is met twice, a walk has no more objects than the heap. -/
theorem length_le_of_walk (hp : h.Knows p) (hl : h.Walk p l) : l.length ≤ h.objects.size := by
  have hinjective : Function.Injective ObjectRef.index := fun ⟨_⟩ ⟨_⟩ heq ↦ congrArg _ heq
  have hsubset : l.map ObjectRef.index ⊆ List.range h.objects.size := by
    intro i hi
    obtain ⟨o, ho, rfl⟩ := List.mem_map.1 hi
    exact List.mem_range.2 (hh.lt_of_walk hp hl o ho)
  have hle := (List.subperm_of_subset (hl.nodup.map hinjective) hsubset).length_le
  simpa using hle

/-- What is looked at along a chain is the whole of it. -/
theorem chain_eq (hp : h.Knows p) (hl : h.Walk p l) : h.chain p = l :=
  hl.chainFrom_eq (hh.length_le_of_walk hp hl)

theorem of_samePrototypes (hsame : h.SamePrototypes h') (hquiet : ∀ c, (h'.cell c).IsQuiet) :
    h'.IsGrounded where
  known o := by
    rw [hsame.prototype]
    exact (hh.known o).mono hsame.size.ge
  ends o := by
    obtain ⟨l, hl⟩ := hh.ends o
    exact ⟨l, hl.congr fun o _ ↦ hsame.prototype o⟩
  quiet := hquiet

theorem modifyObject (o : ObjectRef) {f : Object → Object}
    (hf : ∀ data, (f data).prototype = data.prototype) : (h.modifyObject o f).IsGrounded :=
  hh.of_samePrototypes (h.samePrototypes_modifyObject o hf) hh.quiet

theorem addCell (r : Resolver) (hr : (LazyCell.unresolved r).IsQuiet) :
    (h.addCell (.unresolved r)).2.IsGrounded := by
  refine hh.of_samePrototypes ⟨rfl, fun _ ↦ rfl⟩ fun c ↦ ?_
  by_cases hc : c.index = h.cells.size
  · have hcell : (h.addCell (.unresolved r)).2.cell c = .unresolved r := by
      simp [Heap.addCell, cell, hc]
    rw [hcell]
    exact hr
  · have hcell : (h.addCell (.unresolved r)).2.cell c = h.cell c := by
      simp [Heap.addCell, cell, Array.getElem?_push, hc]
    rw [hcell]
    exact hh.quiet c

/-- A new object leads to where its prototype leads; no chain leads to it yet. -/
theorem addObject {data : Object} (hdata : h.Knows data.prototype) :
    (h.addObject data).2.IsGrounded := by
  have hsize : h.objects.size ≤ (h.addObject data).2.objects.size := by simp [Heap.addObject]
  have hself : (h.addObject data).2.object ⟨h.objects.size⟩ = data :=
    h.object_addObject_self data
  have hother : ∀ o : ObjectRef, o ≠ ⟨h.objects.size⟩ →
      (h.addObject data).2.object o = h.object o := by
    rintro ⟨i⟩ hne
    have hi : i ≠ h.objects.size := fun heq ↦ hne (congrArg _ heq)
    simp [Heap.addObject, object, Array.getElem?_push, hi]
  have hold : ∀ {p l}, h.Knows p → h.Walk p l → (h.addObject data).2.Walk p l := by
    intro p l hp hl
    refine hl.congr fun o ho ↦ ?_
    have hlt := hh.lt_of_walk hp hl o ho
    rw [hother o fun heq ↦ Nat.lt_irrefl _ (heq ▸ hlt)]
  refine ⟨fun o ↦ ?_, fun o ↦ ?_, hh.quiet⟩
  · by_cases ho : o = ⟨h.objects.size⟩
    · rw [ho, hself]
      exact hdata.mono hsize
    · rw [hother o ho]
      exact (hh.known o).mono hsize
  · by_cases ho : o = ⟨h.objects.size⟩
    · obtain ⟨l, hl⟩ := hh.exists_walk data.prototype
      refine ⟨o :: l, .step o ?_⟩
      rw [ho, hself]
      exact hold hdata hl
    · obtain ⟨l, hl⟩ := hh.exists_walk (h.object o).prototype
      refine ⟨o :: l, .step o ?_⟩
      rw [hother o ho]
      exact hold (hh.known o) hl

/-- An object may be given any prototype whose chain does not lead to it. -/
theorem withPrototype (hp : h.Knows p) (hl : h.Walk p l) (ho : o ∉ l) :
    (h.modifyObject o fun data ↦ { data with prototype := p }).IsGrounded := by
  let h' := h.modifyObject o fun data ↦ { data with prototype := p }
  have hsize : h'.objects.size = h.objects.size := by simp [h', Heap.modifyObject]
  rcases Nat.lt_or_ge o.index h.objects.size with hlt | hge
  case inr =>
    refine hh.of_samePrototypes ⟨hsize, fun o' ↦ ?_⟩ hh.quiet
    rw [object_modifyObject_of_ge hge]
  have hself : (h'.object o).prototype = p := by rw [object_modifyObject_self hlt]
  have hother : ∀ o', o' ≠ o → h'.object o' = h.object o' := fun o' hne ↦
    object_modifyObject_of_ne h hne _
  have hnew : h'.Walk (some o) (o :: l) := by
    refine .step o ?_
    rw [hself]
    refine hl.congr fun o' ho' ↦ ?_
    rw [hother o' fun heq ↦ ho (heq ▸ ho')]
  -- Any other walk is as before, or as before up to `o`.
  have hwalk : ∀ {q l'}, h.Walk q l' → ∃ l'', h'.Walk q l'' := by
    intro q l' hl'
    induction hl' with
    | done => exact ⟨[], .done⟩
    | step o' hrest ih =>
        by_cases heq : o' = o
        · exact ⟨_, heq ▸ hnew⟩
        · obtain ⟨rest, hrest'⟩ := ih
          refine ⟨o' :: rest, .step o' ?_⟩
          rw [hother o' heq]
          exact hrest'
  refine ⟨fun o' ↦ ?_, fun o' ↦ ?_, hh.quiet⟩
  · by_cases heq : o' = o
    · rw [heq, hself]
      exact hp.mono hsize.ge
    · rw [hother o' heq]
      exact (hh.known o').mono hsize.ge
  · obtain ⟨l', hl'⟩ := hh.ends o'
    exact hwalk hl'

end IsGrounded

end Heap

/-! ## Making objects -/

/-- The prototypes that new objects get for want of another. -/
def Realm.prototypes (r : Realm) : List ObjectRef :=
  [r.objectPrototype, r.functionPrototype, r.booleanPrototype, r.numberPrototype,
    r.stringPrototype, r.symbolPrototype, r.typeErrorPrototype, r.rangeErrorPrototype,
    r.referenceErrorPrototype, r.syntaxErrorPrototype]

theorem Realm.errorPrototype_mem (r : Realm) (kind : ErrorKind) :
    r.errorPrototype kind ∈ r.prototypes := by
  cases kind <;> simp [errorPrototype, prototypes]

/-- The heap is grounded and has the prototypes of the realm and the objects listed. -/
structure State.IsGrounded (known : List ObjectRef) (σ : State) : Prop where
  heap : σ.heap.IsGrounded
  lt : ∀ o ∈ σ.realm.prototypes ++ known, o.index < σ.heap.objects.size

theorem State.IsGrounded.mono {known known' : List ObjectRef} {σ : State}
    (hσ : σ.IsGrounded known')
    (hsubset : ∀ o ∈ known, o ∈ σ.realm.prototypes ++ known') : σ.IsGrounded known := by
  refine ⟨hσ.heap, fun o ho ↦ hσ.lt o ?_⟩
  rcases List.mem_append.1 ho with ho | ho
  · exact List.mem_append_left _ ho
  · exact hsubset o ho

namespace Action

variable {α β : Type} {known : List ObjectRef}

/-- The action leaves a grounded state grounded, however it ends. -/
def Grounds (known : List ObjectRef) (m : Action α) : Prop :=
  ∀ σ, σ.IsGrounded known → (m.run σ).2.IsGrounded known

theorem grounds_of_run {m : Action α} (h : ∀ σ, (m.run σ).2.heap = σ.heap ∧
    (m.run σ).2.realm = σ.realm) : Grounds known m := by
  intro σ hσ
  obtain ⟨hheap, hrealm⟩ := h σ
  exact ⟨hheap ▸ hσ.heap, hheap ▸ hrealm ▸ hσ.lt⟩

theorem grounds_pure (a : α) : Grounds known (pure a) := grounds_of_run fun _ ↦ ⟨rfl, rfl⟩

theorem Grounds.bind {m : Action α} {f : α → Action β} (hm : Grounds known m)
    (hf : ∀ a, Grounds known (f a)) : Grounds known (m >>= f) := by
  intro σ hσ
  have hfirst := hm σ hσ
  rw [run_bind]
  rcases hrun : m.run σ with ⟨e | a, σ₁⟩
  · rw [hrun] at hfirst
    exact hfirst
  · rw [hrun] at hfirst
    exact hf a σ₁ hfirst

/-- What follows a look at the state knows the prototypes of its realm. -/
theorem grounds_get_bind {f : State → Action α}
    (hf : ∀ σ, Grounds (σ.realm.prototypes ++ known) (f σ)) : Grounds known (get >>= f) := by
  intro σ hσ
  have hknown : σ.IsGrounded (σ.realm.prototypes ++ known) := hσ.mono fun o ho ↦ by simp_all
  exact (hf σ σ hknown).mono fun o ho ↦ by simp [ho]

theorem grounds_realm_bind {f : Realm → Action α}
    (hf : ∀ r, Grounds (r.prototypes ++ known) (f r)) : Grounds known (realm >>= f) :=
  grounds_get_bind (f := fun σ ↦ f σ.realm) fun σ ↦ hf σ.realm

theorem grounds_addObject {data : Object} (hdata : ∀ p, data.prototype = some p → p ∈ known) :
    Grounds known (onHeap (·.addObject data)) := by
  intro σ hσ
  have hknows : σ.heap.Knows data.prototype :=
    fun p hp ↦ hσ.lt p (List.mem_append_right _ (hdata p hp))
  refine ⟨hσ.heap.addObject hknows, fun o ho ↦ ?_⟩
  change o.index < (σ.heap.objects.push data).size
  rw [Array.size_push]
  exact Nat.lt_succ_of_lt (hσ.lt o ho)

theorem grounds_modifyObject (o : ObjectRef) {f : Object → Object}
    (hf : ∀ data, (f data).prototype = data.prototype) :
    Grounds known (Action.modifyObject o f) := by
  intro σ hσ
  refine ⟨hσ.heap.modifyObject o hf, fun p hp ↦ ?_⟩
  exact Nat.lt_of_lt_of_eq (hσ.lt p hp) (σ.heap.samePrototypes_modifyObject o hf).size.symm

theorem grounds_store (o : ObjectRef) (k : PropertyKey) (d : Descriptor) :
    Grounds known (store o k d) :=
  grounds_modifyObject o fun data ↦ data.prototype_store k d

theorem grounds_newCell_constant (v : Value) : Grounds known (newCell (.constant v)) :=
  fun _ hσ ↦ ⟨hσ.heap.addCell _ nofun, hσ.lt⟩

theorem grounds_newObject (c : ObjectClass) {prototype : Option ObjectRef}
    (hprototype : ∀ p, prototype = some p → p ∈ known) :
    Grounds known (newObject c prototype) :=
  grounds_get_bind fun _ ↦ grounds_addObject fun p hp ↦ List.mem_append_right _ (hprototype p hp)

theorem grounds_newPlainObject : Grounds known newPlainObject :=
  grounds_realm_bind fun r ↦ grounds_newObject _ fun p hp ↦ by
    cases hp
    simp [Realm.prototypes]

theorem grounds_newError (kind : ErrorKind) (message : String) :
    Grounds known (newError kind message) := by
  refine grounds_realm_bind fun r ↦ (grounds_newObject _ fun p hp ↦ ?_).bind fun o ↦ ?_
  · cases hp
    exact List.mem_append_left _ (r.errorPrototype_mem kind)
  · exact (grounds_store o _ _).bind fun _ ↦ grounds_pure _

theorem grounds_throwNew (e : ScriptError) : Grounds known (throwNew e : Action α) := by
  have hlocation : Grounds known (setThrowLocation none) := grounds_of_run fun _ ↦ ⟨rfl, rfl⟩
  refine hlocation.bind fun _ ↦ (grounds_newError _ _).bind fun v ↦ ?_
  exact grounds_of_run fun _ ↦ ⟨rfl, rfl⟩

end Action

open Ecma.Action

variable {known : List ObjectRef}

theorem Function.grounds_create (f : Callable) (name : String) (length : Nat) :
    Grounds known (create f name length) := by
  have hdata (r : Realm) (cutover : Nat) (p : ObjectRef)
      (hp : (baseData r.functionPrototype cutover f name length).prototype = some p) :
      p ∈ r.prototypes ++ known := by
    have hfunction : p = r.functionPrototype := by simpa [baseData, Object.new] using hp.symm
    simp [hfunction, Realm.prototypes]
  refine grounds_get_bind fun σ ↦ (grounds_addObject (hdata _ _)).bind fun o ↦ ?_
  dsimp only
  split
  · refine Grounds.bind ?_ fun _ ↦ grounds_pure o
    refine grounds_newPlainObject.bind fun prototype ↦ ?_
    exact (grounds_store prototype _ _).bind fun _ ↦ grounds_store o _ _
  · exact grounds_pure o

namespace Arguments

theorem prototype_storeValues (i : Nat) (args : List Value) (data : Object) :
    (storeValues i args data).prototype = data.prototype := by
  induction args generalizing i data with
  | nil => rfl
  | cons v rest ih => rw [storeValues, ih, Object.prototype_store]

theorem prototype_storeMapped (s : ScopeRef) (entries : List (String × Nat)) (data : Object) :
    (storeMapped s entries data).prototype = data.prototype := by
  induction entries generalizing data with
  | nil => rfl
  | cons e rest ih => exact (ih _).trans (Object.prototype_store _ _ _)

theorem grounds_createBase (args : List Value) : Grounds known (createBase args) := by
  refine grounds_get_bind fun σ ↦ grounds_addObject fun p hp ↦ ?_
  rw [baseData, Object.prototype_store, prototype_storeValues] at hp
  cases hp
  simp [Realm.prototypes]

theorem grounds_createUnmapped (args : List Value) : Grounds known (createUnmapped args) := by
  refine (grounds_createBase args).bind fun o ↦ Grounds.bind ?_ fun f ↦ ?_
  · exact (Function.grounds_create _ _ _).bind fun _ ↦ grounds_pure _
  · exact (grounds_store o _ _).bind fun _ ↦ grounds_pure o

theorem grounds_createMapped (callee : ObjectRef) (params : List String) (args : List Value)
    (s : ScopeRef) : Grounds known (createMapped callee params args s) := by
  refine (grounds_createBase args).bind fun o ↦ ?_
  refine (grounds_modifyObject o fun data ↦ prototype_storeMapped s _ data).bind fun _ ↦ ?_
  exact (grounds_store o _ _).bind fun _ ↦ grounds_pure o

end Arguments

namespace Conversion

/-- The units of a text change nothing about the prototype of its object. -/
theorem grounds_storeUnits_bind {α : Type} (units : List UInt16) (i : Nat) (data : Object)
    {k : Object → Action α}
    (hk : ∀ data' : Object, data'.prototype = data.prototype → Grounds known (k data')) :
    Grounds known (storeUnits i units data >>= k) := by
  induction units generalizing i data with
  | nil => exact hk data rfl
  | cons u rest ih =>
      rw [storeUnits, bind_assoc]
      refine (grounds_newCell_constant _).bind fun cell ↦ ih (i + 1) _ fun data' hdata' ↦ ?_
      exact hk data' (hdata'.trans (Object.prototype_store _ _ _))

theorem grounds_wrap (c : ObjectClass) {prototype : ObjectRef} (hprototype : prototype ∈ known)
    (v : Value) : Grounds known (wrap c prototype v) := by
  have hadd {known' : List ObjectRef} {data : Object} (hdata : data.prototype = some prototype) :
      Grounds (known' ++ known) (onHeap (·.addObject data)) :=
    grounds_addObject fun p hp ↦ by
      rw [hdata] at hp
      cases hp
      exact List.mem_append_right _ hprototype
  refine grounds_get_bind fun σ ↦ ?_
  dsimp only
  split
  · rw [storeText, bind_assoc]
    refine grounds_storeUnits_bind _ 0 _ fun data hdata ↦ hadd ?_
    rw [Object.prototype_store, hdata]
    rfl
  · exact hadd rfl

theorem grounds_toObject (v : Value) : Grounds known (toObject v) := by
  refine grounds_realm_bind fun r ↦ ?_
  have hwrap (c : ObjectClass) {prototype : ObjectRef} (hprototype : prototype ∈ r.prototypes) :
      Grounds (r.prototypes ++ known) (wrap c prototype v) :=
    grounds_wrap c (List.mem_append_left _ hprototype) v
  have hrefused : Grounds (r.prototypes ++ known)
      (do Action.throwNew (.notObject (← Action.display v)) : Action ObjectRef) := by
    have hdisplay : Grounds (r.prototypes ++ known) (Action.display v) :=
      grounds_of_run fun _ ↦ ⟨rfl, rfl⟩
    exact hdisplay.bind fun _ ↦ grounds_throwNew _
  cases v with
  | object o => exact grounds_pure o
  | undefined => exact hrefused
  | null => exact hrefused
  | boolean b => exact hwrap .boolean (by simp [Realm.prototypes])
  | number n => exact hwrap .number (by simp [Realm.prototypes])
  | string t => exact hwrap .string (by simp [Realm.prototypes])
  | symbol s => exact hwrap .symbol (by simp [Realm.prototypes])

end Conversion

namespace Object

/-- The object changes its prototype only if the new chain does not lead to it. -/
theorem run_setPrototype (o : ObjectRef) (p : Option ObjectRef) (σ : State) :
    (setPrototype o p).run σ =
      if (σ.heap.object o).prototype = p then (.ok true, σ)
      else if !(σ.heap.object o).isExtensible then (.ok false, σ)
      else if (σ.heap.chain p).contains o then (.ok false, σ)
      else (.ok true, { σ with
        heap := σ.heap.modifyObject o fun data ↦ { data with prototype := p } }) := by
  have hread : (setPrototype o p).run σ = (
      if (σ.heap.object o).prototype = p then return true
      else if !(σ.heap.object o).isExtensible then return false
      else if (σ.heap.chain p).contains o then return false
      else do
        Action.modifyObject o fun data ↦ { data with prototype := p }
        return true : Action Bool).run σ := rfl
  rw [hread]
  split
  · rfl
  · split
    · rfl
    · split <;> rfl

theorem grounds_setPrototype (o : ObjectRef) {p : Option ObjectRef}
    (hp : ∀ q, p = some q → q ∈ known) : Grounds known (setPrototype o p) := by
  intro σ hσ
  have hknows : σ.heap.Knows p := fun q hq ↦ hσ.lt q (List.mem_append_right _ (hp q hq))
  obtain ⟨l, hl⟩ := hσ.heap.exists_walk p
  rw [run_setPrototype, hσ.heap.chain_eq hknows hl]
  split
  · exact hσ
  · split
    · exact hσ
    · split
      · exact hσ
      next ho =>
        refine ⟨hσ.heap.withPrototype hknows hl (by simpa using ho), fun q hq ↦ ?_⟩
        have hlt := hσ.lt q hq
        simpa [Heap.modifyObject] using hlt

end Object

/-! ## New realms -/

theorem Heap.isGrounded_empty : Heap.empty.IsGrounded := by
  have hprototype (o : ObjectRef) : (Heap.empty.object o).prototype = none := by
    simp only [Heap.object, Heap.empty, Array.getD_eq_getD_getElem?, Array.getElem?_empty]
    rfl
  refine ⟨fun o p hp ↦ ?_, fun o ↦ ⟨[o], .step o ?_⟩, fun c ↦ ?_⟩
  · rw [hprototype] at hp
    cases hp
  · rw [hprototype]
    exact .done
  · have hcell : Heap.empty.cell c = .resolving := by
      simp only [Heap.cell, Heap.empty, Array.getD_eq_getD_getElem?, Array.getElem?_empty]
      rfl
    rw [hcell]
    trivial

theorem Realm.isGrounded_build (cutover : Nat) {h : Heap} (hh : h.IsGrounded) :
    (build cutover h).2.IsGrounded ∧
      ∀ o ∈ (build cutover h).1.prototypes, o.index < (build cutover h).2.objects.size := by
  have hadd {h' : Heap} {data : Object} {p : ObjectRef} (hdata : data.prototype = some p)
      (hp : p.index < h'.objects.size) (hh' : h'.IsGrounded) : (h'.addObject data).2.IsGrounded :=
    hh'.addObject fun q hq ↦ Option.some.inj (hdata.symm.trans hq) ▸ hp
  have haddScope {h' : Heap} (hh' : h'.IsGrounded) (data : Scope) :
      (h'.addScope data).2.IsGrounded :=
    hh'.of_samePrototypes ⟨rfl, fun _ ↦ rfl⟩ hh'.quiet
  have herror (p : ObjectRef) (name : String) :
      (errorObject p name cutover).prototype = some p := by
    simp [errorObject, storeHidden, Object.new]
  have hglobal (p self : ObjectRef) : (globalData p self cutover).prototype = some p := by
    simp [globalData, storeHidden, storeFrozen, Object.new]
  constructor
  · unfold build
    refine haddScope ?_ _
    refine hadd (hglobal _ _) ?_ (hadd (herror _ _) ?_ (hadd (herror _ _) ?_ ?_))
    rotate_left 3
    refine hadd (herror _ _) ?_ (hadd (herror _ _) ?_ (hadd (herror _ _) ?_ ?_))
    rotate_left 3
    refine hadd rfl ?_ (hadd rfl ?_ (hadd rfl ?_ (hadd rfl ?_ (hadd rfl ?_ ?_))))
    rotate_left 5
    exact hh.addObject nofun
    all_goals
      simp only [Heap.addObject, Array.size_push]
      omega
  · intro o ho
    simp only [build, prototypes, Heap.addObject, Heap.addScope, Array.size_push, List.mem_cons,
      List.not_mem_nil, or_false] at ho ⊢
    rcases ho with rfl | rfl | rfl | rfl | rfl | rfl | rfl | rfl | rfl | rfl <;>
      (dsimp only; omega)

/-! ## Looking along a chain -/

namespace Object

variable {σ : State} {o : ObjectRef} {k : PropertyKey}

/-- Looking up a key reads the property of the nearest object that has one. -/
theorem run_findFrom_walk (eng : Engine) {l : List ObjectRef} {n : Nat}
    (hl : σ.heap.Walk (some o) l) (hn : l.length ≤ n) :
    (findFrom eng k n o).run σ =
      match l.find? fun q ↦ (σ.heap.object q).hasOwn k with
      | none => (.ok none, σ)
      | some q => (getOwn eng q k).run σ := by
  induction n generalizing o l with
  | zero =>
      cases hl
      simp at hn
  | succ n ih =>
      cases hl with
      | step _ hrest =>
          rename_i rest
          cases hown : σ.heap.own? o k with
          | none =>
              have habsent : (σ.heap.object o).hasOwn k = false := by
                simpa [hasOwn, Heap.own?] using hown
              rw [run_findFrom_absent eng hown, List.find?_cons, habsent]
              cases hprototype : (σ.heap.object o).prototype with
              | none =>
                  rw [hprototype] at hrest
                  cases hrest
                  rfl
              | some q =>
                  rw [hprototype] at hrest
                  exact ih hrest (by simpa using hn)
          | some d =>
              have hpresent : (σ.heap.object o).hasOwn k = true := by
                rw [Heap.own?] at hown
                rw [hasOwn, hown]
                rfl
              rw [run_findFrom_present eng hown, List.find?_cons, hpresent]

end Object

namespace Action

variable {α β : Type}

/-- Where cells are quiet the action comes to an end, and every prototype is the same
after it. -/
def Looks (m : Action α) : Prop :=
  ∀ σ, (∀ c, (σ.heap.cell c).IsQuiet) → (m.run σ).1 ≠ .error (.fault .outOfFuel) ∧
    σ.heap.SamePrototypes (m.run σ).2.heap ∧ ∀ c, ((m.run σ).2.heap.cell c).IsQuiet

theorem looks_pure (a : α) : Looks (pure a) := fun σ hσ ↦ ⟨nofun, σ.heap.samePrototypes_refl, hσ⟩

theorem Looks.bind {m : Action α} {f : α → Action β} (hm : Looks m) (hf : ∀ a, Looks (f a)) :
    Looks (m >>= f) := by
  intro σ hσ
  obtain ⟨hends, hsame, hquiet⟩ := hm σ hσ
  rw [run_bind]
  rcases hrun : m.run σ with ⟨e | a, τ⟩
  · rw [hrun] at hends hsame hquiet
    exact ⟨fun h ↦ hends (congrArg _ (Except.error.inj h)), hsame, hquiet⟩
  · rw [hrun] at hsame hquiet
    obtain ⟨hends', hsame', hquiet'⟩ := hf a τ hquiet
    exact ⟨hends', hsame.trans hsame', hquiet'⟩

theorem looks_getOwn (eng : Engine) (o : ObjectRef) (k : PropertyKey) :
    Looks (Object.getOwn eng o k) := by
  intro σ hσ
  have hshown (r : Option Descriptor) :
      ((.ok r, σ) : Except Failure (Option Descriptor) × State).1 ≠ .error (.fault .outOfFuel) ∧
        σ.heap.SamePrototypes σ.heap ∧ ∀ c, (σ.heap.cell c).IsQuiet :=
    ⟨nofun, σ.heap.samePrototypes_refl, hσ⟩
  rw [Object.run_getOwn]
  split
  next => exact hshown none
  next a c hlazy =>
    have hmemo (h : Heap) (v : Value) :
        h.SamePrototypes (h.modifyObject o (Object.memoize k c v)) :=
      h.samePrototypes_modifyObject o fun data ↦ data.prototype_modify k _
    rw [Lazy.run_resolve]
    cases hcell : σ.heap.cell c with
    | resolved v => exact ⟨nofun, hmemo _ v, hσ⟩
    | resolving => exact ⟨nofun, σ.heap.samePrototypes_refl, hσ⟩
    | unresolved r =>
        have hsteps := hσ c
        rw [hcell] at hsteps
        obtain ⟨log, hlog⟩ := Lazy.run_runSteps_log eng hsteps (σ.marking c)
        have hcells : (σ.marking c).heap.setCell c (.resolved r.value) =
            σ.heap.setCell c (.resolved r.value) := σ.heap.setCell_setCell c _ _
        have hv : (σ.heap.cell c).value? = some r.value := by
          rw [hcell]
          rfl
        dsimp only
        rw [hlog]
        dsimp only
        rw [hcells]
        refine ⟨nofun, ?_, fun c' ↦ Heap.isQuiet_setCell hv c' (hσ c')⟩
        have hset : σ.heap.SamePrototypes (σ.heap.setCell c (.resolved r.value)) :=
          ⟨rfl, fun _ ↦ rfl⟩
        exact hset.trans (hmemo _ r.value)
  next => exact hshown _
  next => exact hshown _

theorem looks_search (eng : Engine) (o : ObjectRef) (keys visited : List Text) :
    Looks (ForIn.search eng o visited keys) := by
  induction keys generalizing visited with
  | nil => exact looks_pure _
  | cons t rest ih =>
      rw [ForIn.search]
      split
      · exact ih visited
      · refine (looks_getOwn eng o (.string t)).bind fun found ↦ ?_
        split
        · split
          · exact looks_pure _
          · exact ih _
        · exact ih visited

end Action

/-- The next key of an enumeration is found, or known to be missing, when the chain from
where it stands has been walked. -/
theorem ForIn.nextFrom_ends (eng : Engine) {n : Nat} {it : ForIn} {σ : State}
    {l : List ObjectRef} (hσ : ∀ c, (σ.heap.cell c).IsQuiet) (hl : σ.heap.Walk it.object l)
    (hn : l.length < n) : ((nextFrom eng n it).run σ).1 ≠ .error (.fault .outOfFuel) := by
  induction n generalizing it σ l with
  | zero => exact absurd hn (Nat.not_lt_zero _)
  | succ n ih =>
      obtain ⟨object, remaining, visited⟩ := it
      cases hl with
      | done =>
          intro h
          cases h
      | step o hrest =>
          -- The keys of the object are searched, and then it is done or goes on.
          obtain ⟨keys, next, hrun, hkey, hexhausted⟩ : ∃ keys next,
              (nextFrom eng (n + 1) ⟨some o, remaining, visited⟩).run σ =
                (search eng o visited keys >>= next).run σ ∧
              (∀ t rest visited τ, ∃ r, ((next (.key t rest visited)).run τ).1 = .ok r) ∧
              ∀ visited τ, (next (.exhausted visited)).run τ =
                (nextFrom eng n ⟨(τ.heap.object o).prototype, none, visited⟩).run τ := by
            cases remaining with
            | some keys =>
                exact ⟨keys, _, rfl, fun _ _ _ _ ↦ ⟨_, rfl⟩, fun _ _ ↦ rfl⟩
            | none =>
                exact ⟨(σ.heap.object o).ownTexts, _, rfl, fun _ _ _ _ ↦ ⟨_, rfl⟩, fun _ _ ↦ rfl⟩
          obtain ⟨hends, hsame, hquiet⟩ := Action.looks_search eng o keys visited σ hσ
          rw [hrun, Action.run_bind]
          rcases hsearch : (search eng o visited keys).run σ with ⟨e | found, τ⟩
          · rw [hsearch] at hends
            exact fun h ↦ hends (congrArg _ (Except.error.inj h))
          · rw [hsearch] at hsame hquiet
            cases found with
            | key t remaining visited =>
                obtain ⟨r, hr⟩ := hkey t remaining visited τ
                intro h
                cases hr.symm.trans h
            | exhausted visited =>
                -- The walk goes on from the prototype, which is the same in the new state.
                dsimp only
                rw [hexhausted]
                refine ih hquiet (l := _) ?_ (Nat.lt_of_succ_lt_succ hn)
                change τ.heap.Walk (τ.heap.object o).prototype _
                rw [hsame.prototype]
                exact hrest.congr fun o' _ ↦ hsame.prototype o'

/-! ## All that is made and changed -/

/-- What changes the objects of a heap: making one in any of the ways that there are,
setting a prototype, and changing anything else of one. -/
inductive HeapOperation where
  | newPlain
  | newObject (c : ObjectClass) (prototype : Option ObjectRef)
  | toObject (v : Value)
  | newFunction (f : Callable) (name : String) (length : Nat)
  | newError (kind : ErrorKind) (message : String)
  | newArguments (args : List Value)
  | newMappedArguments (callee : ObjectRef) (params : List String) (args : List Value)
      (s : ScopeRef)
  | setPrototype (o : ObjectRef) (prototype : Option ObjectRef)
  | change (o : ObjectRef) (f : Object → Object)

namespace HeapOperation

def perform : HeapOperation → Action Unit
  | .newPlain => discard Action.newPlainObject
  | .newObject c prototype => discard (Action.newObject c prototype)
  | .toObject v => discard (Conversion.toObject v)
  | .newFunction f name length => discard (Function.create f name length)
  | .newError kind message => discard (Action.newError kind message)
  | .newArguments args => discard (Arguments.createUnmapped args)
  | .newMappedArguments callee params args s =>
    discard (Arguments.createMapped callee params args s)
  | .setPrototype o prototype => discard (Object.setPrototype o prototype)
  | .change o f => Action.modifyObject o f

/-- The prototype given is there, and a change of something else is one. -/
def IsProper (h : Heap) : HeapOperation → Prop
  | .newObject _ prototype | .setPrototype _ prototype => h.Knows prototype
  | .change _ f => ∀ data, (f data).prototype = data.prototype
  | _ => True

/-- The states that operations lead to from a new realm. -/
inductive Reaches (options : Options) : State → Prop where
  | initial : Reaches options (.initial options)
  | step {σ : State} (hσ : Reaches options σ) (op : HeapOperation) (hop : op.IsProper σ.heap) :
      Reaches options (op.perform.run σ).2

/-- An operation keeps chains from running in circles. -/
theorem isGrounded_perform {σ : State} (hσ : σ.IsGrounded []) {op : HeapOperation}
    (hop : op.IsProper σ.heap) : (op.perform.run σ).2.IsGrounded [] := by
  have hdiscard {α : Type} (known : List ObjectRef) {m : Action α} (hm : Grounds known m)
      (hknown : ∀ o ∈ known, o.index < σ.heap.objects.size) :
      ((discard m).run σ).2.IsGrounded [] := by
    have hσ' : σ.IsGrounded known := ⟨hσ.heap, fun o ho ↦ by
      rcases List.mem_append.1 ho with ho | ho
      · exact hσ.lt o (List.mem_append_left _ ho)
      · exact hknown o ho⟩
    rw [Action.run_discard]
    exact (hm σ hσ').mono nofun
  have hlisted {prototype : Option ObjectRef} (hp : σ.heap.Knows prototype) :
      ∀ o ∈ prototype.toList, o.index < σ.heap.objects.size :=
    fun o ho ↦ hp o (Option.mem_toList.1 ho)
  cases op with
  | newPlain => exact hdiscard [] grounds_newPlainObject nofun
  | newObject c prototype =>
      exact hdiscard _ (grounds_newObject c fun p hp ↦ Option.mem_toList.2 hp) (hlisted hop)
  | toObject v => exact hdiscard [] (Conversion.grounds_toObject v) nofun
  | newFunction f name length =>
      exact hdiscard [] (Function.grounds_create f name length) nofun
  | newError kind message => exact hdiscard [] (grounds_newError kind message) nofun
  | newArguments args => exact hdiscard [] (Arguments.grounds_createUnmapped args) nofun
  | newMappedArguments callee params args s =>
      exact hdiscard [] (Arguments.grounds_createMapped callee params args s) nofun
  | setPrototype o prototype =>
      exact hdiscard _ (Object.grounds_setPrototype o fun p hp ↦ Option.mem_toList.2 hp)
        (hlisted hop)
  | change o f => exact grounds_modifyObject o hop σ hσ

theorem Reaches.isGrounded {options : Options} {σ : State} (hσ : Reaches options σ) :
    σ.IsGrounded [] := by
  induction hσ with
  | initial =>
      obtain ⟨hheap, hlt⟩ := Realm.isGrounded_build options.cutover Heap.isGrounded_empty
      refine ⟨hheap, fun o ho ↦ hlt o ?_⟩
      rwa [List.append_nil] at ho
  | step _ op hop ih => exact isGrounded_perform ih hop

end HeapOperation

/-- In every heap that operations lead to, following prototypes from an object ends, and
so does all that follows them: setting a prototype, asking for a property, looking up a
key to read or write it, enumerating keys and asking for the prototype of a
constructor.  Each of these gets to see the whole chain. -/
theorem prototype_chains_end {options : Options} {σ : State}
    (hσ : HeapOperation.Reaches options σ) :
    (∀ o, ∃ l, σ.heap.Walk (some o) l) ∧
    (∀ o p l, σ.heap.Knows p → σ.heap.Walk p l →
      (Object.setPrototype o p).run σ =
        if (σ.heap.object o).prototype = p then (.ok true, σ)
        else if !(σ.heap.object o).isExtensible then (.ok false, σ)
        else if o ∈ l then (.ok false, σ)
        else (.ok true, { σ with
          heap := σ.heap.modifyObject o fun data ↦ { data with prototype := p } })) ∧
    (∀ o k l, o.index < σ.heap.objects.size → σ.heap.Walk (some o) l →
      σ.heap.hasProperty o k = l.any fun q ↦ (σ.heap.object q).hasOwn k) ∧
    (∀ (eng : Engine) o k l, σ.heap.objects.size < eng.fuel → o.index < σ.heap.objects.size →
      σ.heap.Walk (some o) l →
      ((Object.find eng o k).run σ).1 ≠ .error (.fault .outOfFuel) ∧
      (Object.find eng o k).run σ =
        match l.find? fun q ↦ (σ.heap.object q).hasOwn k with
        | none => (.ok none, σ)
        | some q => (Object.getOwn eng q k).run σ) ∧
    (∀ (eng : Engine) (it : ForIn), σ.heap.objects.size < eng.fuel → σ.heap.Knows it.object →
      ((ForIn.next eng it).run σ).1 ≠ .error (.fault .outOfFuel)) ∧
    ∀ (eng : Engine) c o prototype l σ₀, σ.heap.Walk (σ.heap.object o).prototype l →
      (Object.get eng c (.ofString "prototype") (.object c)).run σ₀ =
        (.ok (.object prototype), σ) →
      (Operator.inheritsFrom eng (.object c) (.object o)).run σ₀ =
        (.ok (.boolean (decide (prototype ∈ l))), σ) := by
  have hheap := hσ.isGrounded.heap
  have hknows {o : ObjectRef} (ho : o.index < σ.heap.objects.size) : σ.heap.Knows (some o) :=
    fun p hp ↦ Option.some.inj hp ▸ ho
  refine ⟨hheap.ends, fun o p l hp hl ↦ ?_, fun o k l ho hl ↦ ?_, fun eng o k l hfuel ho hl ↦ ?_,
    fun eng it hfuel hit ↦ ?_, fun eng c o prototype l σ₀ hl hget ↦ ?_⟩
  · rw [Object.run_setPrototype, hheap.chain_eq hp hl]
    simp only [List.contains_iff_mem]
  · rw [Heap.hasProperty, hheap.chain_eq (hknows ho) hl]
  · have hlength := hheap.length_le_of_walk (hknows ho) hl
    have hfind := Object.run_findFrom_walk (k := k) eng hl (Nat.le_trans hlength hfuel.le)
    refine ⟨?_, hfind⟩
    rw [Object.find, hfind]
    split
    · exact nofun
    · exact (Action.looks_getOwn eng _ k σ hheap.quiet).1
  · obtain ⟨l, hl⟩ := hheap.exists_walk it.object
    have hlength := hheap.length_le_of_walk hit hl
    exact ForIn.nextFrom_ends eng hheap.quiet hl (Nat.lt_of_le_of_lt hlength hfuel)
  · rw [Operator.inheritsFrom, Action.run_bind, hget]
    have hchain := hheap.chain_eq (hheap.known o) hl
    dsimp only
    rw [Action.run_bind, Action.run_heap, ← List.contains_eq_mem, ← hchain]
    rfl

/-- Of two new objects the second is made the prototype of the first; the first cannot
become that of the second then. -/
theorem prototype_chains_end_refused :
    let σ₁ := (HeapOperation.newPlain.perform.run (.initial .standard)).2
    let σ₂ := (HeapOperation.newPlain.perform.run σ₁).2
    let σ := ((HeapOperation.setPrototype ⟨12⟩ (some ⟨13⟩)).perform.run σ₂).2
    HeapOperation.Reaches .standard σ ∧ σ.heap.Walk (some ⟨12⟩) [⟨12⟩, ⟨13⟩, ⟨0⟩] ∧
      (Object.setPrototype ⟨13⟩ (some ⟨12⟩)).run σ = (.ok false, σ) := by
  intro σ₁ σ₂ σ
  have hfirst : HeapOperation.Reaches .standard σ₁ := .step .initial .newPlain trivial
  have hmade : HeapOperation.Reaches .standard σ₂ := .step hfirst .newPlain trivial
  have hproper : (HeapOperation.setPrototype ⟨12⟩ (some ⟨13⟩)).IsProper σ₂.heap := by
    intro o ho
    cases ho
    decide +kernel
  have hσ : HeapOperation.Reaches .standard σ := .step hmade _ hproper
  have hwalk : σ.heap.Walk (some ⟨12⟩) [⟨12⟩, ⟨13⟩, ⟨0⟩] := by
    have h12 : (σ.heap.object ⟨12⟩).prototype = some ⟨13⟩ := by decide +kernel
    have h13 : (σ.heap.object ⟨13⟩).prototype = some ⟨0⟩ := by decide +kernel
    have h0 : (σ.heap.object ⟨0⟩).prototype = none := by decide +kernel
    refine .step _ ?_
    rw [h12]
    refine .step _ ?_
    rw [h13]
    refine .step _ ?_
    rw [h0]
    exact .done
  have hknows : σ.heap.Knows (some ⟨12⟩) := by
    intro o ho
    cases ho
    decide +kernel
  obtain ⟨-, hset, -⟩ := prototype_chains_end hσ
  refine ⟨hσ, hwalk, ?_⟩
  have hother : (σ.heap.object ⟨13⟩).prototype ≠ some ⟨12⟩ := by decide +kernel
  rw [hset ⟨13⟩ _ _ hknows hwalk, if_neg hother]
  simp

end Ecma
