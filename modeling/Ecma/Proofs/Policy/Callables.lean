import Ecma.Engine.Level
import Ecma.Proofs.OwnProperties

/-!
# What can be called

A condition on everything in a heap that can be called.  An object keeps what it
calls, so only a new object can break it.
-/

namespace Ecma

namespace Heap

/-- What the objects of the heap call is as `C` says. -/
def AllCallable (C : Callable → Prop) (h : Heap) : Prop :=
  ∀ o f, (h.object o).callable = some f → C f

variable {C : Callable → Prop} {h : Heap}

theorem callable_of_le {o : ObjectRef} (ho : h.objects.size ≤ o.index) :
    (h.object o).callable = none := by
  simp only [object, Array.getD_eq_getD_getElem?, Array.getElem?_eq_none ho]
  rfl

theorem allCallable_empty : empty.AllCallable C := by
  intro o f hf
  rw [callable_of_le (Nat.zero_le _)] at hf
  cases hf

namespace AllCallable

variable (hh : h.AllCallable C)

include hh

theorem of_objects {h' : Heap} (hobjects : h'.objects = h.objects) : h'.AllCallable C := by
  intro o f hf
  have hobject : h'.object o = h.object o := by simp [object, hobjects]
  exact hh o f (hobject ▸ hf)

theorem modifyObject (o : ObjectRef) {g : Object → Object}
    (hg : ∀ data : Object, (g data).callable = data.callable) :
    (h.modifyObject o g).AllCallable C := by
  intro p f hf
  by_cases hp : p.index < h.objects.size
  · by_cases hpo : p = o
    · rw [hpo, object_modifyObject_self (hpo ▸ hp), hg] at hf
      exact hh o f hf
    · rw [object_modifyObject_of_ne h hpo] at hf
      exact hh p f hf
  · have hle : (h.modifyObject o g).objects.size ≤ p.index := by
      simpa [Heap.modifyObject] using Nat.le_of_not_lt hp
    rw [callable_of_le hle] at hf
    cases hf

theorem addObject {data : Object} (hdata : ∀ f, data.callable = some f → C f) :
    (h.addObject data).2.AllCallable C := by
  intro o f hf
  by_cases ho : o.index < h.objects.size
  · rw [object_addObject_of_lt ho] at hf
    exact hh o f hf
  · by_cases hlast : o = (h.addObject data).1
    · rw [hlast, object_addObject_self] at hf
      exact hdata f hf
    · have hne : o.index ≠ h.objects.size := fun heq ↦ hlast (congrArg ObjectRef.mk heq)
      have hle : (h.addObject data).2.objects.size ≤ o.index := by
        simp only [Heap.addObject, Array.size_push]
        omega
      rw [callable_of_le hle] at hf
      cases hf

/-- Of the objects of a new realm only the prototype of functions can be called. -/
theorem build (hempty : C Realm.emptyFunction) (cutover : Nat) :
    (Realm.build cutover h).2.AllCallable C := by
  have hplain (c : ObjectClass) (prototype : Option ObjectRef) (v : Option Value) (f : Callable)
      (hf : { Object.new c prototype cutover with primitive := v }.callable = some f) : C f := by
    cases hf
  have herror (prototype : ObjectRef) (name : String) (f : Callable)
      (hf : (Realm.errorObject prototype name cutover).callable = some f) : C f := by
    simp only [Realm.errorObject, Realm.storeHidden, Object.callable_store] at hf
    cases hf
  unfold Realm.build
  refine AllCallable.of_objects (h := (Heap.addObject _ _).2) ?_ rfl
  refine AllCallable.addObject ?_ fun f hf ↦ ?_
  · refine AllCallable.addObject ?_ (herror _ _)
    refine AllCallable.addObject ?_ (herror _ _)
    refine AllCallable.addObject ?_ (herror _ _)
    refine AllCallable.addObject ?_ (herror _ _)
    refine AllCallable.addObject ?_ (herror _ _)
    refine AllCallable.addObject ?_ (hplain _ _ none)
    refine AllCallable.addObject ?_ (hplain _ _ _)
    refine AllCallable.addObject ?_ (hplain _ _ _)
    refine AllCallable.addObject ?_ (hplain _ _ _)
    refine AllCallable.addObject ?_ fun f hf ↦ Option.some.inj hf ▸ hempty
    exact hh.addObject (hplain _ _ none)
  · simp only [Realm.globalData, Realm.storeHidden, Realm.storeFrozen,
      Object.callable_store] at hf
    cases hf

end AllCallable

end Heap

end Ecma
