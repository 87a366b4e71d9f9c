import Ecma.Proofs.ArgumentsObjects
import Ecma.Proofs.BoundProperties
import Ecma.Proofs.DeclaredNames

/-!
# Arguments that stay in step with parameters

While an index of an arguments object is bound to a parameter, the two have one
value, whichever of them is written.  The index is cut off when it is deleted,
becomes an accessor or becomes read-only, and nothing binds it again.
-/

namespace Ecma

/-! ## Operations -/

/-- What may be done to the variables of a call and to its arguments object. -/
inductive ArgumentsOperation where
  | assign (name : String) (v : Value) (strict : Bool)
  | set (k : PropertyKey) (v receiver : Value)
  | define (k : PropertyKey) (patch : Descriptor)
  | delete (k : PropertyKey)

namespace ArgumentsOperation

def perform (eng : Engine) (s : ScopeRef) (ao : ObjectRef) : ArgumentsOperation → Action Unit
  | .assign name v strict => Scope.set eng s name v strict
  | .set k v receiver => discard (Object.set eng ao k v receiver)
  | .define k patch => discard (Object.define eng ao k patch)
  | .delete k => discard (Object.delete ao k)

/-- Properties are defined by ordinary patches only. -/
def IsOrdinary : ArgumentsOperation → Prop
  | .define _ patch => patch.IsOrdinary
  | _ => True

/-- The state after the operations are done in turn.  One that fails leaves its
state to the next. -/
def runAll (eng : Engine) (s : ScopeRef) (ao : ObjectRef) (ops : List ArgumentsOperation)
    (σ : State) : State :=
  ops.foldl (fun σ op ↦ ((op.perform eng s ao).run σ).2) σ

variable {eng : Engine} {s : ScopeRef} {ao : ObjectRef}

theorem runAll_append (eng : Engine) (s : ScopeRef) (ao : ObjectRef)
    (before after : List ArgumentsOperation) (σ : State) :
    runAll eng s ao (before ++ after) σ = runAll eng s ao after (runAll eng s ao before σ) :=
  List.foldl_append

theorem keeps_perform {P : Policy} (hG : P.Governs eng)
    (hpatches : ∀ d : Descriptor, d.IsOrdinary → P.host.Patches d) {op : ArgumentsOperation}
    (hop : op.IsOrdinary) : P.Keeps (op.perform eng s ao) := by
  cases op with
  | assign name v strict => exact hG.keeps_setBinding s name v strict
  | set k v receiver => exact (hG.keeps_set ao k v receiver).discard
  | define k patch => exact (hG.keeps_define ao k (hpatches patch hop)).discard
  | delete k => exact (hG.properties.delete ao k).discard

/-- Whatever runs on the way, no property is bound and no variable is lost. -/
theorem runs (s : ScopeRef) (ao : ObjectRef) (n : Nat) {ops : List ArgumentsOperation}
    (hops : ∀ op ∈ ops, op.IsOrdinary) {σ : State} (hσ : σ.heap.IsLinked) :
    (runAll (.level n) s ao ops σ).heap.IsLinked ∧
      σ.heap.Fades (runAll (.level n) s ao ops σ).heap ∧
      σ.heap.ScopesEvolve (runAll (.level n) s ao ops σ).heap := by
  induction ops generalizing σ with
  | nil => exact ⟨hσ, .of_objects rfl, .of_scopes rfl⟩
  | cons op rest ih =>
      have hop := hops op List.mem_cons_self
      have hrest : ∀ op ∈ rest, op.IsOrdinary := fun op h ↦ hops op (List.mem_cons_of_mem _ h)
      have hnames : (declaredNames False).Governs (.level n) := declaredNames.lawful.governs_level n
      have hfades : fading.Allows σ ((op.perform (.level n) s ao).run σ) :=
        keeps_perform (fading.lawful.governs_level n).policy (fun _ hd ↦ hd.boundTo?) hop σ hσ
      have hevolves : KeepsNames False σ ((op.perform (.level n) s ao).run σ) fun _ ↦ ∅ :=
        keeps_perform hnames (fun _ _ ↦ trivial) hop σ σ.heap.isPlaced_undemanding False.elim
      obtain ⟨hlinked, hfades', hevolves'⟩ := ih hrest hfades.good
      exact ⟨hlinked, hfades.step.trans hfades', hevolves.evolves.trans hevolves'⟩

end ArgumentsOperation

/-! ## The invariant -/

/-- The heap of a call with an arguments object: the parameters are variables, and the
indices are bound to the last parameters of their names. -/
structure Heap.IsAligned (params : List String) (s : ScopeRef) (ao : ObjectRef) (h : Heap) :
    Prop where
  linked : h.IsLinked
  lt : ao.index < h.objects.size
  parameter : ∀ p ∈ params, h.IsVariable s p
  bound : ∀ i x, h.boundTo? ao (.index i) = some x →
    ∃ p, x = (s, p) ∧ params[i]? = some p ∧ p ∉ params.drop (i + 1)

namespace Heap.IsAligned

variable {params : List String} {s : ScopeRef} {ao : ObjectRef} {h h' : Heap}
  (hh : h.IsAligned params s ao)

include hh

theorem later (hlinked : h'.IsLinked) (hfades : h.Fades h') (hev : h.ScopesEvolve h') :
    h'.IsAligned params s ao where
  linked := hlinked
  lt := Nat.lt_of_lt_of_le hh.lt hfades.objects_le
  parameter p hp := (hh.parameter p hp).evolves hev
  bound i x hx := hh.bound i x (hfades.object ao hh.lt _ x hx)

theorem valid : (h.object ao).Valid := (hh.linked ao hh.lt).valid

theorem mem_params {i : Nat} {p : String} (hp : h.boundTo? ao (.index i) = some (s, p)) :
    p ∈ params := by
  obtain ⟨_, hx, hi, -⟩ := hh.bound i _ hp
  cases hx
  exact List.mem_of_getElem? hi

theorem distinct {i j : Nat} {x : ScopeRef × String} (hi : h.boundTo? ao (.index i) = some x)
    (hj : h.boundTo? ao (.index j) = some x) : i = j := by
  obtain ⟨p, rfl, hpi, hlast⟩ := hh.bound i x hi
  obtain ⟨_, hx, hpj, hlast'⟩ := hh.bound j _ hj
  cases hx
  -- If one of the places came later, the name would occur after the other.
  have hlater {i j : Nat} (hlt : i < j) (hj : params[j]? = some p) : p ∈ params.drop (i + 1) := by
    refine List.mem_of_getElem? (i := j - (i + 1)) ?_
    rw [List.getElem?_drop, Nat.add_sub_cancel' hlt]
    exact hj
  rcases Nat.lt_trichotomy i j with hlt | heq | hlt
  · exact absurd (hlater hlt hpj) hlast
  · exact heq
  · exact absurd (hlater hlt hpi) hlast'

end Heap.IsAligned

/-! ## In step -/

/-- What holds in a state of a call's parameters and its arguments object. -/
structure InStep (params : List String) (s : ScopeRef) (ao : ObjectRef) (σ : State) : Prop where
  /-- An index is bound to a parameter, if at all. -/
  shared : ∀ i scope p, σ.heap.boundTo? ao (.index i) = some (scope, p) → scope = s ∧ p ∈ params
  /-- No two indices are bound to the same one. -/
  distinct : ∀ i j x, σ.heap.boundTo? ao (.index i) = some x →
    σ.heap.boundTo? ao (.index j) = some x → i = j
  /-- The index and the parameter have one value. -/
  read : ∀ i p, σ.heap.boundTo? ao (.index i) = some (s, p) →
    ∃ v, σ.VariableIs s p v ∧ σ.PropertyIs ao (.index i) v
  /-- A write to the index is a write to the parameter. -/
  set : ∀ i p, σ.heap.boundTo? ao (.index i) = some (s, p) → ∀ n v, ∃ τ,
    (Object.set (.level (n + 1)) ao (.index i) v (.object ao)).run σ = (.ok true, τ) ∧
      State.Assigns params s p v σ τ ∧ τ.heap.boundTo? ao (.index i) = some (s, p) ∧
      σ.heap.SameElsewhere ao (.index i) τ.heap
  /-- So is a patch with a value; an accessor and a read-only property are cut off. -/
  define : ∀ i p v d, σ.heap.boundTo? ao (.index i) = some (s, p) → σ.VariableIs s p v →
    σ.heap.own? ao (.index i) = some d → ∀ n patch, patch.IsOrdinary → ∃ τ,
      (Object.define (.level n) ao (.index i) patch).run σ =
          (.ok ((d.shownIn σ.heap).permits patch), τ) ∧
        if (d.shownIn σ.heap).permits patch then
          State.Assigns params s p (patch.value?.getD v) σ τ ∧
            Object.Patched ao (.index i) (s, p) v patch τ.heap ∧
            σ.heap.SameElsewhere ao (.index i) τ.heap
        else τ = σ
  /-- So is an index that is deleted. -/
  delete : ∀ i d, σ.heap.own? ao (.index i) = some d → ∃ τ,
    (Object.delete ao (.index i)).run σ = (.ok d.isConfigurable, τ) ∧
      if d.isConfigurable then
        τ.heap.own? ao (.index i) = none ∧ σ.heap.ChangesAt ao (.index i) τ.heap
      else τ = σ
  /-- An assignment to a parameter is seen at the index that is bound to it, and
  changes no property. -/
  assign : ∀ p ∈ params, ∀ n v strict, ∃ τ,
    (Scope.set (.level n) s p v strict).run σ = (.ok (), τ) ∧ State.Assigns params s p v σ τ ∧
      τ.heap.objects = σ.heap.objects ∧
      ∀ i, σ.heap.boundTo? ao (.index i) = some (s, p) → τ.PropertyIs ao (.index i) v
  /-- Patches to an index that is not bound change no variable. -/
  defineApart : ∀ i, σ.heap.boundTo? ao (.index i) = none →
    (∀ d, σ.heap.own? ao (.index i) = some d → ∀ c, d.form ≠ .lazy c) →
    ∀ n patch, σ.heap.ChangesAt ao (.index i)
      ((Object.define (.level n) ao (.index i) patch).run σ).2.heap
  /-- Nor do writes, unless the property that is found has a setter. -/
  setApart : ∀ i, σ.heap.boundTo? ao (.index i) = none → σ.heap.IsResolved ao (.index i) →
    ∀ n v r τ, (Object.set (.level n) ao (.index i) v (.object ao)).run σ = (r, τ) →
      σ.heap.ChangesAt ao (.index i) τ.heap ∨ ∃ d setter r',
        (Object.find (.level n) ao (.index i)).run σ = (.ok (some d), σ) ∧
          d.setter? = some setter ∧
          ((Engine.level n).call setter (.object ao) [v]).run σ = (r', τ)

namespace Heap.IsAligned

variable {params : List String} {s : ScopeRef} {ao : ObjectRef} {σ : State}
  (hσ : σ.heap.IsAligned params s ao) {i : Nat} {p : String}
  (hp : σ.heap.boundTo? ao (.index i) = some (s, p))

include hσ hp

theorem variableIs : σ.VariableIs s p (σ.heap.boundValue s p) :=
  (State.variableIs_iff (hσ.parameter p (hσ.mem_params hp))).2 rfl

omit hσ in
theorem propertyIs : σ.PropertyIs ao (.index i) (σ.heap.boundValue s p) := by
  obtain ⟨a, hown⟩ := Heap.boundTo?_eq_some.1 hp
  exact fun n receiver ↦ Object.run_get_bound hown n receiver

variable {a : Attributes} (hown : σ.heap.own? ao (.index i) = some ⟨a, .bound s p⟩) (eng : Engine)
  {patch : Descriptor}
  (hpermits : Descriptor.permits ⟨a, .data (some (σ.heap.boundValue s p))⟩ patch = true)

include hown hpermits

/-- A permitted accessor leaves the parameter alone. -/
theorem run_define_accessor (ha : patch.isAccessor = true) :
    ∃ τ, (Object.define eng ao (.index i) patch).run σ = (.ok true, τ) ∧
      State.Assigns params s p (patch.value?.getD (σ.heap.boundValue s p)) σ τ ∧
      Object.Patched ao (.index i) (s, p) (σ.heap.boundValue s p) patch τ.heap ∧
      σ.heap.SameElsewhere ao (.index i) τ.heap := by
  obtain ⟨d, hd, hrun⟩ := Object.run_define_accessor eng hown ha hpermits
  refine ⟨_, hrun, ?_, ?_, Heap.sameElsewhere_store hσ.lt hσ.valid _ _⟩
  · rw [Descriptor.value?_of_isAccessor ha]
    exact State.assigns_of_scopes rfl hσ.parameter (hσ.mem_params hp) (hσ.variableIs hp)
  · refine Object.patched_of_isAccessor ha ?_ hd
    rw [Heap.own?_store hσ.lt hσ.valid, if_pos (PropertyKey.same_self _)]

/-- Any other patch that is permitted assigns its value, if it has one. -/
theorem run_define_data (hpatch : patch.IsOrdinary) (ha : patch.isAccessor = false) :
    ∃ τ, (Object.define eng ao (.index i) patch).run σ = (.ok true, τ) ∧
      State.Assigns params s p (patch.value?.getD (σ.heap.boundValue s p)) σ τ ∧
      Object.Patched ao (.index i) (s, p) (σ.heap.boundValue s p) patch τ.heap ∧
      σ.heap.SameElsewhere ao (.index i) τ.heap := by
  have hmem := hσ.mem_params hp
  have hwritable : a.writable = some true := by
    simpa [Descriptor.isWritable] using
      ((hσ.linked ao hσ.lt).own _ _ hown).bound s p rfl
  have hrun := Object.run_define_data eng hown hpatch ha hpermits
  dsimp only at hrun
  -- The variable is written first, which no object notices, and the property after that.
  generalize hvalue : patch.value?.getD (σ.heap.boundValue s p) = value at hrun ⊢
  generalize hheap :
    (if patch.value?.isSome then σ.heap.storeBound s p value else σ.heap) = heap at hrun
  have hobjects : heap.objects = σ.heap.objects := by
    rw [← hheap]
    split <;> rfl
  have hobject : heap.object ao = σ.heap.object ao := by rw [Heap.object, hobjects]; rfl
  have hlt : ao.index < heap.objects.size := hobjects ▸ hσ.lt
  have hvalid : (heap.object ao).Valid := hobject ▸ hσ.valid
  have hassigns {τ : State} (hτ : τ.heap.scopes = heap.scopes) :
      State.Assigns params s p value σ τ := by
    cases hv : patch.value? with
    | none =>
        rw [hv] at hvalue hheap
        cases hvalue
        cases hheap
        exact State.assigns_of_scopes hτ hσ.parameter hmem (hσ.variableIs hp)
    | some v =>
        rw [hv] at hheap
        cases hheap
        exact State.assigns_storeBound hτ hσ.parameter hmem
  refine ⟨_, hrun, hassigns rfl, ?_, fun k' hk' ↦ ?_⟩
  · refine Object.patched_of_own? ha hwritable ?_
    rw [Heap.own?_store hlt hvalid, if_pos (PropertyKey.same_self _), hvalue]
  · rw [Heap.sameElsewhere_store hlt hvalid _ _ k' hk', Heap.own?, hobject]
    rfl

omit hp hown hpermits in
theorem inStep : InStep params s ao σ where
  shared i scope p hp := by
    obtain ⟨q, hx, hi, -⟩ := hσ.bound i _ hp
    cases hx
    exact ⟨rfl, List.mem_of_getElem? hi⟩
  distinct _ _ _ hi hj := hσ.distinct hi hj
  read _ _ hp := ⟨_, hσ.variableIs hp, propertyIs hp⟩
  set i p hp n v := by
    obtain ⟨a, hown⟩ := Heap.boundTo?_eq_some.1 hp
    have hwritable : Descriptor.isWritable ⟨a, .bound s p⟩ = true :=
      ((hσ.linked ao hσ.lt).own _ _ hown).bound s p rfl
    have hpatch : (Descriptor.generic.withValue v).IsOrdinary := trivial
    have hpermits := Descriptor.permits_withValue
      (d := ⟨a, .data (some (σ.heap.boundValue s p))⟩) rfl hwritable v
    obtain ⟨τ, hrun, hassigns, hpatched, helsewhere⟩ :=
      hσ.run_define_data hp hown (.level (n + 1)) hpermits hpatch rfl
    refine ⟨τ, ?_, hassigns, hpatched, helsewhere⟩
    rw [Object.run_set_shown _ hown nofun rfl hwritable, Engine.fuel_level,
      if_neg (Nat.succ_ne_zero n)]
    exact hrun
  define i p v d hp hv hd n patch hpatch := by
    obtain ⟨a, hown⟩ := Heap.boundTo?_eq_some.1 hp
    cases hd.symm.trans hown
    cases (State.variableIs_iff (hσ.parameter p (hσ.mem_params hp))).1 hv
    split
    next hpermits =>
      rw [hpermits]
      cases ha : patch.isAccessor with
      | true => exact hσ.run_define_accessor hp hown (.level n) hpermits ha
      | false => exact hσ.run_define_data hp hown (.level n) hpermits hpatch ha
    next hpermits =>
      refine ⟨σ, ?_, rfl⟩
      rw [Object.run_define_bound _ hown, Bool.eq_false_iff.2 hpermits]
      exact if_neg hpermits
  delete i d hown := by
    have hrun := Object.run_delete ao (.index i) σ
    rw [hown] at hrun
    dsimp only at hrun
    cases hc : d.isConfigurable with
    | true =>
        rw [hc, if_pos rfl] at hrun
        refine ⟨_, hrun, ?_, rfl, Heap.sameElsewhere_remove hσ.lt hσ.valid _⟩
        rw [Heap.own?_remove hσ.lt hσ.valid, if_pos (PropertyKey.same_self _)]
    | false =>
        rw [hc, if_neg Bool.false_ne_true] at hrun
        exact ⟨σ, hrun, rfl⟩
  assign p hp n v strict := by
    let τ : State := { σ with heap := σ.heap.storeBound s p v }
    have hassigns : State.Assigns params s p v σ τ :=
      State.assigns_storeBound rfl hσ.parameter hp
    refine ⟨τ, Scope.run_set _ (hσ.parameter p hp) v strict, hassigns, rfl, fun i hi ↦ ?_⟩
    have hproperty : τ.PropertyIs ao (.index i) (τ.heap.boundValue s p) := propertyIs hi
    rwa [Heap.boundValue_storeBound_self (hσ.parameter p hp)] at hproperty
  defineApart i hi hlazy n patch :=
    Object.changesAt_run_define _ hσ.lt hσ.valid hi hlazy patch
  setApart i hi hresolved n v r τ hrun :=
    Object.changesAt_run_set _ hσ.lt hσ.valid hi hresolved hrun

end Heap.IsAligned

/-! ## Calls -/

namespace Function

/-- A sloppy call that makes an arguments object starts with its indices bound. -/
theorem isAligned_prepare (eng : Engine) {callee : ObjectRef} {f : FunctionNode}
    {closure s : ScopeRef} {this : Option Value} {args : List Value} {σ σ₁ : State}
    (hσ : σ.heap.IsLinked) (harguments : needsArguments f (.analyze f.body) = true)
    (hrun : (prepare eng callee f closure this false args).run σ = (.ok s, σ₁)) :
    ∃ ao, σ₁.heap.IsAligned f.params s ao ∧ σ₁.VariableIs s argumentsName (.object ao) ∧
      ∀ i x, σ₁.heap.boundTo? ao (.index i) = some x ↔
        ∃ p, x = (s, p) ∧ f.params[i]? = some p ∧ i < args.length ∧ p ∉ f.params.drop (i + 1) := by
  obtain ⟨_, σ₂, hscope, hrun⟩ := Action.run_bind_eq_ok hrun
  obtain ⟨_, _, hdeclare, hpure⟩ := Action.run_bind_eq_ok hrun
  cases hscope
  cases hpure
  obtain ⟨ao, prototype, cutover, hgrows, hlt, hobject, hvariables, hvalue⟩ :=
    declares_arguments eng (by simp) (Heap.scope_addScope_self _ _) harguments
      hdeclare
  have hbound (i : Nat) (x : ScopeRef × String) : σ₁.heap.boundTo? ao (.index i) = some x ↔
      ∃ p, x = (⟨σ.heap.scopes.size⟩, p) ∧ f.params[i]? = some p ∧ i < args.length ∧
        p ∉ f.params.drop (i + 1) := by
    rw [Heap.boundTo?, hobject]
    exact Arguments.boundTo?_mappedData
  refine ⟨ao, ⟨?_, hlt, fun p hp ↦ hvariables p (List.mem_cons_of_mem _ hp), fun i x hx ↦ ?_⟩, ?_,
    hbound⟩
  · refine Heap.AllConform.of_grows ?_ (fun _ hd ↦ hd.isSettled) hgrows
    exact Heap.AllConform.of_objects hσ rfl
  · obtain ⟨p, hp, hi, -, hlast⟩ := (hbound i x).1 hx
    exact ⟨p, hp, hi, hlast⟩
  · rw [State.variableIs_iff (hvariables _ List.mem_cons_self)]
    exact hvalue.symm

end Function

open ArgumentsOperation in
/-- In a sloppy call with an arguments object, each index that has an argument is bound
to the parameter in its place, unless a later one has the same name.  Whatever is
assigned, written, patched and deleted afterwards, the indices that are bound stay in
step with their parameters, and an index that is not bound is not bound again. -/
theorem arguments_stay_in_step (n : Nat) (callee : ObjectRef) (f : FunctionNode)
    (closure s : ScopeRef) (this : Option Value) (args : List Value) (σ σ₁ : State)
    (hσ : σ.heap.IsLinked) (harguments : Function.needsArguments f (.analyze f.body) = true)
    (hcall : (Function.prepare (.level n) callee f closure this false args).run σ = (.ok s, σ₁)) :
    ∃ ao, σ₁.VariableIs s Function.argumentsName (.object ao) ∧
      (∀ i p, σ₁.heap.boundTo? ao (.index i) = some (s, p) ↔
        f.params[i]? = some p ∧ i < args.length ∧ p ∉ f.params.drop (i + 1)) ∧
      ∀ m ops, (∀ op ∈ ops, op.IsOrdinary) →
        InStep f.params s ao (runAll (.level m) s ao ops σ₁) ∧
        ∀ later, (∀ op ∈ later, op.IsOrdinary) → ∀ i,
          (runAll (.level m) s ao ops σ₁).heap.boundTo? ao (.index i) = none →
          (runAll (.level m) s ao (ops ++ later) σ₁).heap.boundTo? ao (.index i) = none := by
  obtain ⟨ao, haligned, hvalue, hbound⟩ := Function.isAligned_prepare (.level n) hσ harguments hcall
  refine ⟨ao, hvalue, fun i p ↦ ?_, fun m ops hops ↦ ?_⟩
  · rw [hbound]
    simp
  · obtain ⟨hlinked, hfades, hevolves⟩ := runs s ao m hops haligned.linked
    have haligned' := haligned.later hlinked hfades hevolves
    refine ⟨haligned'.inStep, fun later hlater i hi ↦ ?_⟩
    rw [runAll_append]
    exact (runs s ao m hlater hlinked).2.1.boundTo?_none haligned'.lt hi

theorem eq_ok_of_toOption {ε α : Type} {r : Except ε α} {a : α}
    (h : r.toOption = some a) : r = .ok a := by
  cases r with
  | error e => cases h
  | ok b => exact congrArg Except.ok (Option.some.inj h)

/-- Of three parameters, two with one name, the last two are bound.  One is assigned and
written, the other made read-only and deleted. -/
theorem arguments_stay_in_step_twice :
    let σ := State.initial .standard
    let f : FunctionNode := .mk (some "f") ["a", "b", "a"] [] false
    let args : List Value := [.ofInt32 1, .ofInt32 2, .ofInt32 3]
    let s : ScopeRef := ⟨1⟩
    let r := (Function.prepare (.level 9) ⟨1⟩ f σ.realm.globalScope none false args).run σ
    let ops : List ArgumentsOperation :=
      [.assign "a" .null false, .define (.index 1) (Descriptor.generic.withWritable false),
        .set (.index 2) (.ofInt32 4) .undefined, .delete (.index 1)]
    σ.heap.IsLinked ∧ Function.needsArguments f (.analyze f.body) = true ∧ r.1 = .ok s ∧
      ∃ ao, r.2.heap.boundTo? ao (.index 0) ≠ some (s, "a") ∧
        r.2.heap.boundTo? ao (.index 1) = some (s, "b") ∧
        r.2.heap.boundTo? ao (.index 2) = some (s, "a") ∧
        InStep ["a", "b", "a"] s ao (ArgumentsOperation.runAll (.level 9) s ao ops r.2) := by
  intro σ f args s r ops
  have harguments : Function.needsArguments f (.analyze f.body) = true := rfl
  have hrun : r.1 = .ok s := eq_ok_of_toOption (by decide +kernel)
  have hops : ∀ op ∈ ops, op.IsOrdinary := by
    simp [ops, ArgumentsOperation.IsOrdinary, Descriptor.IsOrdinary, Descriptor.generic,
      Descriptor.withWritable]
  have hcall : r = (.ok s, r.2) := by rw [← hrun]
  have hmain := arguments_stay_in_step 9 ⟨1⟩ f σ.realm.globalScope s none args σ
    r.2 (State.isLinked_initial .standard) harguments hcall
  -- From here on it does not matter what the run gives.
  clear_value r
  obtain ⟨ao, -, hbound, hstep⟩ := hmain
  refine ⟨State.isLinked_initial .standard, harguments, hrun, ao, ?_, ?_, ?_, (hstep 9 ops hops).1⟩
  · rw [Ne, hbound]
    decide
  · rw [hbound]
    decide
  · rw [hbound]
    decide

end Ecma
