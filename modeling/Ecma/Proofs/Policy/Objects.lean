import Ecma.Object.ForIn
import Ecma.Proofs.Policy.Basic

/-!
# Operations on objects and scopes

They go through the operations on own properties, through the engine for
accessors and resolvers, and otherwise only read and change scopes.
-/

namespace Ecma

namespace Policy

variable {P : Policy} {eng : Engine}

namespace Governs

variable (hG : P.Governs eng)

include hG

/-! ## Properties -/

theorem keeps_getOwn (o : ObjectRef) (k : PropertyKey) : P.Keeps (Object.getOwn eng o k) :=
  hG.properties.getOwn eng hG.toServes o k

theorem keeps_define (o : ObjectRef) (k : PropertyKey) {patch : Descriptor}
    (hpatch : P.host.Patches patch) : P.Keeps (Object.define eng o k patch) :=
  hG.properties.define eng hG.toServes o k patch hpatch

theorem keeps_createData (o : ObjectRef) (k : PropertyKey) (v : Value) :
    P.Keeps (Object.createData eng o k v) :=
  hG.keeps_define o k (hG.basics.patches _ trivial)

theorem keeps_defineOrThrow (o : ObjectRef) (k : PropertyKey) {patch : Descriptor}
    (hpatch : patch.IsStandard) : P.Keeps (Object.defineOrThrow eng o k patch) := by
  refine (hG.keeps_define o k (hG.basics.patches patch hpatch)).bind fun done ↦ ?_
  exact keeps_ite (hG.basics.keeps_throwNew _) (keeps_pure _)

theorem keeps_createDataOrThrow (o : ObjectRef) (k : PropertyKey) (v : Value) :
    P.Keeps (Object.createDataOrThrow eng o k v) :=
  hG.keeps_defineOrThrow o k trivial

theorem keeps_enumerableAmong (o : ObjectRef) (texts : List Text) :
    P.Keeps (Object.enumerableAmong eng o texts) := by
  induction texts with
  | nil => exact keeps_pure _
  | cons t rest ih =>
      exact (hG.keeps_getOwn o _).bind fun _ ↦ ih.bind fun _ ↦ keeps_pure _

theorem keeps_enumerableKeys (o : ObjectRef) : P.Keeps (Object.enumerableKeys eng o) :=
  (hG.basics.keeps_object o).bind fun _ ↦ hG.keeps_enumerableAmong o _

theorem keeps_findFrom (k : PropertyKey) (n : Nat) (o : ObjectRef) :
    P.Keeps (Object.findFrom eng k n o) := by
  induction n generalizing o with
  | zero => exact hG.basics.keeps_outOfFuel
  | succ n ih =>
      refine (hG.keeps_getOwn o k).bind fun found ↦ ?_
      split
      · exact keeps_pure _
      · refine (hG.basics.keeps_object o).bind fun data ↦ ?_
        split
        · exact ih _
        · exact keeps_pure _

theorem keeps_find (o : ObjectRef) (k : PropertyKey) : P.Keeps (Object.find eng o k) :=
  hG.keeps_findFrom k _ o

theorem keeps_get (o : ObjectRef) (k : PropertyKey) (receiver : Value) :
    P.Keeps (Object.get eng o k receiver) := by
  refine (hG.keeps_find o k).bind fun found ↦ ?_
  split
  · exact keeps_pure _
  · split
    · exact keeps_ite (keeps_pure _) (hG.call _ _ _)
    · exact keeps_pure _

theorem keeps_setOnReceiver (k : PropertyKey) (v receiver : Value) :
    P.Keeps (Object.setOnReceiver eng k v receiver) := by
  unfold Object.setOnReceiver
  split
  · refine (hG.keeps_getOwn _ k).bind fun found ↦ ?_
    split
    · exact keeps_ite (keeps_pure _) (hG.keeps_define _ k (hG.basics.patches _ trivial))
    · exact hG.keeps_createData _ k v
  · exact keeps_pure _

theorem keeps_set (o : ObjectRef) (k : PropertyKey) (v receiver : Value) :
    P.Keeps (Object.set eng o k v receiver) := by
  refine (hG.keeps_find o k).bind fun found ↦ ?_
  dsimp only
  split
  · exact keeps_ite (hG.keeps_setOnReceiver k v receiver) (keeps_pure _)
  · refine (hG.basics.keeps_isCallable _).bind fun callable ↦ ?_
    split
    · exact (hG.call _ _ _).discard.bind fun _ ↦ keeps_pure _
    · exact keeps_pure _

/-! ## Enumerations -/

theorem keeps_search (o : ObjectRef) (visited texts : List Text) :
    P.Keeps (ForIn.search eng o visited texts) := by
  induction texts generalizing visited with
  | nil => exact keeps_pure _
  | cons t rest ih =>
      unfold ForIn.search
      split
      · exact ih visited
      · refine (hG.keeps_getOwn o _).bind fun found ↦ ?_
        split
        · exact keeps_ite (keeps_pure _) (ih _)
        · exact ih visited

theorem keeps_nextFrom (n : Nat) (it : ForIn) : P.Keeps (ForIn.nextFrom eng n it) := by
  induction n generalizing it with
  | zero => exact hG.basics.keeps_outOfFuel
  | succ n ih =>
      unfold ForIn.nextFrom
      split
      · exact keeps_pure _
      next o _ =>
        extract_lets rest
        have hrest (remaining : List Text) : P.Keeps (rest remaining) := by
          refine (hG.keeps_search o _ _).bind fun found ↦ ?_
          split
          · exact keeps_pure _
          · exact (hG.basics.keeps_object o).bind fun _ ↦ ih _
        split
        · exact hrest _
        · exact (hG.basics.keeps_object o).bind fun _ ↦ hrest _

theorem keeps_next (it : ForIn) : P.Keeps (it.next eng) := hG.keeps_nextFrom _ it

/-! ## Variables -/

theorem keeps_isUnscopable (o : ObjectRef) (name : String) :
    P.Keeps (Scope.isUnscopable eng o name) := by
  refine (hG.keeps_get o _ _).bind fun v ↦ ?_
  split
  · exact (hG.keeps_get _ _ _).bind fun _ ↦ keeps_pure _
  · exact keeps_pure _

theorem keeps_objectHas (o : ObjectRef) (isWith : Bool) (name : String) :
    P.Keeps (Scope.objectHas eng o isWith name) := by
  refine hG.basics.keeps_heap.bind fun h ↦ ?_
  split
  · split
    · exact (hG.keeps_isUnscopable o name).bind fun _ ↦ keeps_pure _
    · exact keeps_pure _
  · exact keeps_pure _

theorem keeps_objectCreate (o : ObjectRef) (name : String) (canDelete : Bool) :
    P.Keeps (Scope.objectCreate eng o name canDelete) :=
  hG.keeps_defineOrThrow o _ trivial

theorem keeps_objectSet (o : ObjectRef) (name : String) (v : Value) (strict : Bool) :
    P.Keeps (Scope.objectSet eng o name v strict) := by
  refine hG.basics.keeps_heap.bind fun h ↦ ?_
  split
  · exact hG.basics.keeps_throwNew _
  · exact (hG.keeps_set o _ v _).bind fun _ ↦
      keeps_ite (hG.basics.keeps_throwNew _) (keeps_pure _)

theorem keeps_objectGet (o : ObjectRef) (name : String) (strict : Bool) :
    P.Keeps (Scope.objectGet eng o name strict) := by
  refine hG.basics.keeps_heap.bind fun h ↦ ?_
  split
  · exact hG.keeps_get o _ _
  · exact keeps_ite (hG.basics.keeps_throwNew _) (keeps_pure _)

theorem keeps_hasBinding (s : ScopeRef) (name : String) : P.Keeps (Scope.has eng s name) := by
  refine (hG.basics.keeps_scope s).bind fun scope ↦ ?_
  split
  · exact keeps_pure _
  · exact hG.keeps_objectHas _ _ name
  · exact keeps_ite (keeps_pure _) (hG.keeps_objectHas _ _ name)

theorem holds_createMutable (s : ScopeRef) (name : String) :
    P.Holds {.holder s} (Scope.createMutable eng s name false) fun _ ↦ {.declared s name} :=
  hG.scopes.createMutable eng s name fun o ↦ hG.keeps_objectCreate o name false

theorem holds_initialise (s : ScopeRef) (name : String) (v : Value) :
    P.Holds {.declared s name} (Scope.initialise eng s name v) fun _ ↦ ∅ :=
  hG.scopes.initialise eng s name v fun o ↦ hG.keeps_objectSet o name v false

theorem keeps_setBinding (s : ScopeRef) (name : String) (v : Value) (strict : Bool) :
    P.Keeps (Scope.set eng s name v strict) :=
  hG.scopes.set eng s name v strict fun o ↦ hG.keeps_objectSet o name v strict

theorem keeps_readBindings (b : Bindings) (name : String) :
    P.Keeps (Scope.readBindings b name) := by
  unfold Scope.readBindings Bindings.get
  rcases b.find? name with _ | ⟨_ | v, _, _, _⟩
  · exact hG.basics.keeps_throwNew _
  · exact hG.basics.keeps_throwNew _
  · exact keeps_pure _

theorem keeps_getBinding (s : ScopeRef) (name : String) (strict : Bool) :
    P.Keeps (Scope.get eng s name strict) := by
  refine (hG.basics.keeps_scope s).bind fun scope ↦ ?_
  split
  · exact hG.keeps_readBindings _ name
  · exact hG.keeps_objectGet _ name strict
  · exact keeps_ite (hG.keeps_readBindings _ name) (hG.keeps_objectGet _ name strict)

theorem keeps_deleteVariable (s : ScopeRef) (name : String) : P.Keeps (Scope.delete s name) :=
  hG.scopes.delete s name fun o ↦ hG.properties.delete o _

/-! ## Global declarations -/

theorem keeps_isRestricted (o : ObjectRef) (name : String) :
    P.Keeps (Scope.isRestricted eng o name) :=
  (hG.keeps_getOwn o _).bind fun _ ↦ keeps_pure _

theorem keeps_canDeclareFunction (o : ObjectRef) (name : String) :
    P.Keeps (Scope.canDeclareFunction eng o name) := by
  refine (hG.keeps_getOwn o _).bind fun found ↦ ?_
  split
  · exact (hG.basics.keeps_object o).bind fun _ ↦ keeps_pure _
  · exact keeps_pure _

theorem holds_createGlobalVar (s : ScopeRef) (o : ObjectRef) (name : String) (canDelete : Bool) :
    P.Holds {.holder s} (Scope.createGlobalVar eng s o name canDelete) fun _ ↦ ∅ := by
  refine (hG.basics.keeps_object o).bind_holds fun data ↦ ?_
  dsimp only
  split
  · refine (hG.keeps_objectCreate o name canDelete).bind_holds fun _ ↦ ?_
    exact (hG.keeps_objectSet o name _ _).bind_holds fun _ ↦ hG.scopes.modifyVarNames s _
  · exact hG.scopes.modifyVarNames s _

theorem holds_createGlobalFunction (s : ScopeRef) (o : ObjectRef) (name : String) (v : Value)
    (canDelete : Bool) :
    P.Holds {.holder s} (Scope.createGlobalFunction eng s o name v canDelete) fun _ ↦ ∅ := by
  refine (hG.keeps_getOwn o _).bind_holds fun found ↦ ?_
  refine Keeps.bind_holds (hG.keeps_defineOrThrow o _ ?_) fun _ ↦ ?_
  · split
    · split <;> trivial
    · trivial
  · exact (hG.keeps_set o _ v _).discard.bind_holds fun _ ↦ hG.scopes.modifyVarNames s _

end Governs

end Policy

end Ecma
