import Ecma.Proofs.BoundProperties
import Ecma.Proofs.CallFreeReads

/-!
# Declaring the names of a script, all or none

The names of a script are checked before any of them is declared.  When its
lexical names are distinct, the checks foresee all that could go wrong: once
they have passed, every declaration succeeds, and if they do not pass, nothing
has been declared.  A lexical name that the script declares twice escapes them.
-/

namespace Ecma

/-! ## Results -/

namespace Action

variable {α β : Type}

/-- From a heap as `P` says, the action ends with a result, in a heap as `Q` says,
unless the engine has no fuel. -/
def Leads (eng : Engine) (P Q : Heap → Prop) (m : Action α) : Prop :=
  ∀ σ, P σ.heap → (∃ a σ', m.run σ = (.ok a, σ') ∧ Q σ'.heap) ∨
    eng.fuel = 0 ∧ ∃ σ', m.run σ = (.error (.fault .outOfFuel), σ')

variable {eng : Engine} {P Q R : Heap → Prop}

theorem leads_pure (a : α) : Leads eng P P (pure a : Action α) :=
  fun σ hσ ↦ .inl ⟨a, σ, rfl, hσ⟩

theorem Leads.bind {m : Action α} {f : α → Action β} (hm : Leads eng P Q m)
    (hf : ∀ a, Leads eng Q R (f a)) : Leads eng P R (m >>= f) := by
  intro σ hσ
  rw [run_bind]
  rcases hm σ hσ with ⟨a, σ₁, hrun, hσ₁⟩ | ⟨hfuel, σ₁, hrun⟩
  · rw [hrun]
    exact hf a σ₁ hσ₁
  · rw [hrun]
    exact .inr ⟨hfuel, σ₁, rfl⟩

theorem Leads.weaken {m : Action α} (hm : Leads eng P Q m) (hQ : ∀ h, Q h → R h) :
    Leads eng P R m := by
  intro σ hσ
  rcases hm σ hσ with ⟨a, σ₁, hrun, hσ₁⟩ | hrun
  · exact .inl ⟨a, σ₁, hrun, hQ _ hσ₁⟩
  · exact .inr hrun

theorem Leads.discard {m : Action α} (hm : Leads eng P Q m) : Leads eng P Q (discard m) := by
  change Leads eng P Q ((fun _ ↦ PUnit.unit) <$> m)
  rw [← bind_pure_comp]
  exact hm.bind fun _ ↦ leads_pure _

/-- An action that comes down to another, from another state. -/
theorem Leads.run_eq {m : Action α} (hm : Leads eng P Q m) {m' : Action α} {σ σ' : State}
    (hrun : m'.run σ = m.run σ') (hσ' : P σ'.heap) :
    (∃ a τ, m'.run σ = (.ok a, τ) ∧ Q τ.heap) ∨
      eng.fuel = 0 ∧ ∃ τ, m'.run σ = (.error (.fault .outOfFuel), τ) := by
  rw [hrun]
  exact hm σ' hσ'

end Action

/-! ## Checks change nothing -/

namespace Script

open Ecma.Action.OnlyReads

variable (n : Nat) (s : ScopeRef) (o : ObjectRef)

theorem onlyReads_declaresVar (name : String) : (declaresVar s name).OnlyReads := by
  refine (scope s).bind fun scope ↦ ?_
  split
  · exact pure _
  · exact pure _

theorem onlyReads_declaresLexical (name : String) : (declaresLexical s name).OnlyReads := by
  refine (scope s).bind fun scope ↦ ?_
  split
  · exact pure _
  · exact pure _

theorem onlyReads_clashes (d : Declarations) (name : String) :
    (clashes (.reading n) d s o name).OnlyReads := by
  unfold clashes
  split
  · exact pure _
  · refine (onlyReads_declaresVar s name).bind fun _ ↦ ite (pure _) ?_
    refine (onlyReads_declaresLexical s name).bind fun _ ↦ ite (pure _) ?_
    exact (getOwn n o _).bind fun _ ↦ pure _

theorem onlyReads_canDeclareFunction (name : String) :
    (Scope.canDeclareFunction (.reading n) o name).OnlyReads := by
  refine (getOwn n o _).bind fun found ↦ ?_
  split
  · exact (object o).bind fun _ ↦ pure _
  · exact pure _

theorem onlyReads_checkLexical (d : Declarations) (ls : List LexicalName) :
    (checkLexical (.reading n) d s o ls).OnlyReads := by
  induction ls with
  | nil => exact pure _
  | cons l rest ih =>
      refine (onlyReads_clashes n s o d l.name).bind fun clash ↦ ?_
      exact ite ((throwNew _).bind fun _ ↦ ih) ih

theorem onlyReads_checkNames (names : List String) : (checkNames s names).OnlyReads := by
  induction names with
  | nil => exact pure _
  | cons name rest ih =>
      refine (onlyReads_declaresLexical s name).bind fun declared ↦ ?_
      exact ite ((throwNew _).bind fun _ ↦ ih) ih

theorem onlyReads_checkFunctions (names : List String) :
    (checkFunctions (.reading n) o names).OnlyReads := by
  induction names with
  | nil => exact pure _
  | cons name rest ih =>
      refine (onlyReads_canDeclareFunction n o name).bind fun can ↦ ?_
      exact ite ((throwNew _).bind fun _ ↦ ih) ih

theorem onlyReads_checkVars (names : List String) : (checkVars o names).OnlyReads := by
  induction names with
  | nil => exact pure _
  | cons name rest ih =>
      have hcan : (Scope.canDeclareVar o name).OnlyReads := (object o).bind fun _ ↦ pure _
      exact hcan.bind fun can ↦ ite ((throwNew _).bind fun _ ↦ ih) ih

theorem onlyReads_check (d : Declarations) : (check (.reading n) d s o).OnlyReads := by
  refine (onlyReads_checkLexical n s o d _).bind fun _ ↦ ?_
  refine (onlyReads_checkNames s _).bind fun _ ↦ ?_
  exact (onlyReads_checkFunctions n o _).bind fun _ ↦ onlyReads_checkVars o _

/-! ### Checks by an engine that cannot call -/

variable {n o}

theorem follows_clashes (d : Declarations) (name : String) :
    (clashes (.reading n) d s o name).Follows (clashes (.level n) d s o name) := by
  unfold clashes
  split
  · exact .refl _
  · refine .bind (.refl _) fun isVar ↦ ?_
    split
    · exact .refl _
    · refine .bind (.refl _) fun isLexical ↦ ?_
      split
      · exact .refl _
      · exact .bind (Object.follows_getOwn (Engine.follows_get_reading n) o _) fun _ ↦ .refl _

theorem follows_checkLexical (d : Declarations) (ls : List LexicalName) :
    (checkLexical (.reading n) d s o ls).Follows (checkLexical (.level n) d s o ls) := by
  induction ls with
  | nil => exact .refl _
  | cons l rest ih =>
      refine .bind (follows_clashes s d l.name) fun clash ↦ ?_
      cases clash with
      | true => exact .bind (.refl _) fun _ ↦ ih
      | false => exact ih

theorem follows_checkFunctions (names : List String) :
    (checkFunctions (.reading n) o names).Follows (checkFunctions (.level n) o names) := by
  induction names with
  | nil => exact .refl _
  | cons name rest ih =>
      have hread := Object.follows_getOwn (Engine.follows_get_reading n) o (Scope.keyOf name)
      refine .bind (.bind hread fun _ ↦ .refl _) fun can ↦ ?_
      cases can with
      | true => exact ih
      | false => exact .bind (.refl _) fun _ ↦ ih

theorem follows_check (d : Declarations) :
    (check (.reading n) d s o).Follows (check (.level n) d s o) := by
  refine .bind (follows_checkLexical s d _) fun _ ↦ .bind (.refl _) fun _ ↦ ?_
  exact .bind (follows_checkFunctions _) fun _ ↦ .refl _

end Script

/-! ## What passing the checks tells -/

/-- An action that throws and then goes on does not go on. -/
theorem Action.run_throwNew_bind_ne_ok {α β : Type} (e : ScriptError) (f : α → Action β)
    (σ τ : State) (b : β) : (Action.throwNew e >>= f).run σ ≠ (.ok b, τ) := by
  intro h
  obtain ⟨a, σ₁, hthrow, -⟩ := run_bind_eq_ok h
  cases hthrow

namespace Heap

/-- The lexical names that scripts have declared in a global scope. -/
def IsGlobal (h : Heap) (s : ScopeRef) (o : ObjectRef) (b : Bindings) : Prop :=
  s.index < h.scopes.size ∧ ∃ names, (h.scope s).record = .global o b names

/-- The heap in which the scope has other variables of its own. -/
def withVariables (h : Heap) (s : ScopeRef) (b : Bindings) : Heap :=
  h.modifyScope s fun scope ↦ { scope with record := scope.record.withBindings b }

/-- No property is an accessor and says whether it is writable. -/
def IsCoherent (o : ObjectRef) (h : Heap) : Prop :=
  ∀ k d, h.own? o k = some d → d.isAccessor = true → d.isWritable = false

/-- So far as the property has one of the names. -/
def IsCoherentOn (o : ObjectRef) (names : List String) (h : Heap) : Prop :=
  ∀ name ∈ names, ∀ d, h.own? o (Scope.keyOf name) = some d → d.isAccessor = true →
    d.isWritable = false

/-- A function can be declared under the name, and nothing has to be resolved for it. -/
def AllowsFunction (h : Heap) (o : ObjectRef) (name : String) : Prop :=
  match h.own? o (Scope.keyOf name) with
  | none => (h.object o).isExtensible = true
  | some d => (∀ c, d.form ≠ .lazy c) ∧ (d.isConfigurable = true ∨
      d.isAccessor = false ∧ d.isWritable = true ∧ d.isEnumerable = true)

variable {h h' : Heap} {s : ScopeRef} {o : ObjectRef} {b : Bindings} {name : String}

theorem IsGlobal.withVariables (hs : h.IsGlobal s o b) (b' : Bindings) :
    (h.withVariables s b').IsGlobal s o b' := by
  obtain ⟨hlt, names, hrecord⟩ := hs
  refine ⟨by simpa [Heap.withVariables, modifyScope] using hlt, names, ?_⟩
  rw [Heap.withVariables, scope_modifyScope_self hlt, hrecord]
  rfl

theorem IsGlobal.memoises (hs : h.IsGlobal s o b) (hm : h.Memoises h') : h'.IsGlobal s o b := by
  obtain ⟨hlt, names, hrecord⟩ := hs
  exact ⟨Nat.lt_of_lt_of_le hlt hm.scopes_le, names, hm.scope s hlt ▸ hrecord⟩

theorem IsCoherent.on (hh : h.IsCoherent o) (names : List String) : h.IsCoherentOn o names :=
  fun name _ ↦ hh (Scope.keyOf name)

theorem IsCoherentOn.memoises {names : List String} (hh : h.IsCoherentOn o names)
    (ho : o.index < h.objects.size) (hm : h.Memoises h') : h'.IsCoherentOn o names := by
  intro name hname d hown ha
  rcases hm.own o ho (Scope.keyOf name) with hsame | ⟨_, _, _, _, _, hplain⟩
  · exact hh name hname d (hsame ▸ hown) ha
  · rw [hplain] at hown
    cases hown
    cases ha

theorem AllowsFunction.memoises (hf : h.AllowsFunction o name) (ho : o.index < h.objects.size)
    (hm : h.Memoises h') : h'.AllowsFunction o name := by
  have hsame : h'.own? o (Scope.keyOf name) = h.own? o (Scope.keyOf name) := by
    rcases hm.own o ho (Scope.keyOf name) with hsame | ⟨a, c, v, hlazy, -, -⟩
    · exact hsame
    · rw [AllowsFunction, hlazy] at hf
      exact absurd rfl (hf.1 c)
  unfold AllowsFunction at hf ⊢
  rw [hsame, hm.extensible o ho]
  exact hf

end Heap

namespace Script

variable {eng : Engine} {n : Nat} {s : ScopeRef} {o : ObjectRef} {b : Bindings} {σ τ : State}

theorem run_declaresLexical (hs : σ.heap.IsGlobal s o b) (name : String) :
    (declaresLexical s name).run σ = (.ok (b.contains name), σ) := by
  obtain ⟨-, names, hrecord⟩ := hs
  rw [declaresLexical, Action.run_bind, Action.run_scope]
  dsimp only
  rw [hrecord]
  rfl

theorem not_contains_of_run_clashes {d : Declarations} {name : String}
    (hs : σ.heap.IsGlobal s o b) (hrun : (clashes eng d s o name).run σ = (.ok false, τ)) :
    b.contains name = false := by
  unfold clashes at hrun
  split at hrun
  · cases hrun
  · obtain ⟨isVar, σ₁, hvar, hrest⟩ := Action.run_bind_eq_ok hrun
    have hσ₁ : σ₁ = σ := by
      rw [declaresVar, Action.run_bind, Action.run_scope] at hvar
      dsimp only at hvar
      split at hvar <;> cases hvar <;> rfl
    rw [hσ₁] at hrest
    split at hrest
    · cases hrest
    · obtain ⟨isLexical, σ₂, hlexical, hrest⟩ := Action.run_bind_eq_ok hrest
      rw [run_declaresLexical hs] at hlexical
      cases hlexical
      split at hrest
      · cases hrest
      next hcontains => exact Bool.eq_false_iff.2 hcontains

theorem not_contains_of_run_checkLexical {d : Declarations} {names : List LexicalName}
    (hσ : σ.heap.IsStored) (hs : σ.heap.IsGlobal s o b)
    (hrun : (checkLexical (.reading n) d s o names).run σ = (.ok (), τ)) :
    ∀ l ∈ names, b.contains l.name = false := by
  induction names generalizing σ with
  | nil => exact nofun
  | cons l rest ih =>
      obtain ⟨clash, σ₁, hclash, hrun⟩ := Action.run_bind_eq_ok hrun
      obtain ⟨hσ₁, hm⟩ := (onlyReads_clashes n s o d l.name).memoises hσ hclash nofun
      cases clash with
      | true => exact absurd hrun (Action.run_throwNew_bind_ne_ok _ _ _ _ _)
      | false =>
          have hrest := ih hσ₁ (hs.memoises hm) hrun
          intro l' hl'
          rcases List.mem_cons.1 hl' with rfl | hl'
          · exact not_contains_of_run_clashes hs hclash
          · exact hrest l' hl'

/-- After a read that calls nothing nothing is left to resolve under the key. -/
theorem own_of_run_getOwn {k : PropertyKey} {found : Option Descriptor} (hσ : σ.heap.IsStored)
    (hrun : (Object.getOwn (.reading n) o k).run σ = (.ok found, τ)) :
    (found = none ∧ τ.heap.own? o k = none) ∨
      ∃ d shown, found = some shown ∧ τ.heap.own? o k = some d ∧ (∀ c, d.form ≠ .lazy c) ∧
        shown.attributes = d.attributes ∧ shown.isAccessor = d.isAccessor := by
  cases found with
  | none =>
      rcases Object.run_getOwn_cases hrun with ⟨-, hown, rfl⟩ | ⟨d, -, -, hsome, -⟩ |
        ⟨a, c, v, ρ, -, -, hsome, -⟩
      · exact .inl ⟨rfl, hown⟩
      · cases hsome
      · cases hsome
  | some shown =>
      obtain ⟨d, hown, hd, rfl⟩ :=
        retaining.own?_of_run_getOwn (retaining.keeps_get_reading n) hσ hrun
      exact .inr ⟨d, _, rfl, hown, hd, d.attributes_shownIn _, d.isAccessor_shownIn _⟩

theorem allowsFunction_of_run_canDeclareFunction {name : String} {names : List String}
    (hσ : σ.heap.IsStored) (ho : o.index < σ.heap.objects.size)
    (hcoherent : σ.heap.IsCoherentOn o names) (hname : name ∈ names)
    (hrun : (Scope.canDeclareFunction (.reading n) o name).run σ = (.ok true, τ)) :
    τ.heap.AllowsFunction o name := by
  obtain ⟨found, σ₁, hread, hrest⟩ := Action.run_bind_eq_ok hrun
  obtain ⟨-, hm⟩ := (Action.OnlyReads.getOwn n o _).memoises hσ hread nofun
  rcases own_of_run_getOwn hσ hread with
    ⟨rfl, hown⟩ | ⟨d, shown, rfl, hown, hd, hattributes, haccessor⟩
  · have hresult : ((.ok (σ₁.heap.object o).isExtensible : Except Failure Bool), σ₁) =
        (.ok true, τ) := hrest
    obtain ⟨hext, rfl⟩ := Prod.mk.inj hresult
    rw [Heap.AllowsFunction, hown]
    exact Except.ok.inj hext
  · have hresult : ((.ok (shown.isConfigurable || (shown.isData && shown.isWritable &&
        shown.isEnumerable)) : Except Failure Bool), σ₁) = (.ok true, τ) := hrest
    obtain ⟨hcan, rfl⟩ := Prod.mk.inj hresult
    have hcan := Except.ok.inj hcan
    simp only [Descriptor.isConfigurable, Descriptor.isWritable, Descriptor.isEnumerable,
      hattributes, Bool.or_eq_true, Bool.and_eq_true] at hcan
    rw [Heap.AllowsFunction, hown]
    refine ⟨hd, hcan.imp id fun hplain ↦ ?_⟩
    obtain ⟨⟨-, hwritable⟩, henumerable⟩ := hplain
    refine ⟨Bool.eq_false_iff.2 fun ha ↦ ?_, hwritable, henumerable⟩
    have hnot := hcoherent.memoises ho hm name hname d hown ha
    exact Bool.eq_false_iff.1 hnot hwritable

theorem allowsFunction_of_run_checkFunctions {checked names : List String}
    (hσ : σ.heap.IsStored) (ho : o.index < σ.heap.objects.size)
    (hcoherent : σ.heap.IsCoherentOn o names) (hchecked : checked ⊆ names)
    (hrun : (checkFunctions (.reading n) o checked).run σ = (.ok (), τ)) :
    ∀ name ∈ checked, τ.heap.AllowsFunction o name := by
  induction checked generalizing σ with
  | nil => exact nofun
  | cons name rest ih =>
      obtain ⟨can, σ₁, hcan, hrun⟩ := Action.run_bind_eq_ok hrun
      obtain ⟨hname, hrest⟩ := List.cons_subset.1 hchecked
      obtain ⟨hσ₁, hm⟩ := (onlyReads_canDeclareFunction n o name).memoises hσ hcan nofun
      have ho₁ := Nat.lt_of_lt_of_le ho hm.objects_le
      cases can with
      | false => exact absurd hrun (Action.run_throwNew_bind_ne_ok _ _ _ _ _)
      | true =>
          have hallows := ih hσ₁ ho₁ (hcoherent.memoises ho hm) hrest hrun
          have hrun : (checkFunctions (.reading n) o rest).run σ₁ = (.ok (), τ) := hrun
          obtain ⟨-, hlast⟩ := (onlyReads_checkFunctions n o rest).memoises hσ₁ hrun nofun
          intro name' hname'
          rcases List.mem_cons.1 hname' with rfl | hname'
          · have hallows := allowsFunction_of_run_canDeclareFunction hσ ho hcoherent hname hcan
            exact hallows.memoises ho₁ hlast
          · exact hallows name' hname'

end Script

/-! ## Properties that declarations make -/

/-- A property of the kind that a global declaration makes. -/
structure Descriptor.IsOpen (d : Descriptor) : Prop where
  resolved : ∀ c, d.form ≠ .lazy c
  data : d.isAccessor = false
  writable : d.isWritable = true
  enumerable : d.isEnumerable = true

theorem Descriptor.isOpen_data (v : Value) (canDelete : Bool) :
    (Descriptor.data v true true canDelete).IsOpen :=
  ⟨nofun, rfl, rfl, rfl⟩

namespace Heap

/-- Functions can be declared under all the names. -/
structure Ready (o : ObjectRef) (names : List String) (h : Heap) : Prop where
  lt : o.index < h.objects.size
  valid : (h.object o).Valid
  allows : ∀ name ∈ names, h.AllowsFunction o name

/-- Besides, the property under the key can be assigned. -/
def ReadyAt (o : ObjectRef) (names : List String) (k : PropertyKey) (h : Heap) : Prop :=
  h.Ready o names ∧ ∃ d, h.own? o k = some d ∧ d.IsOpen

/-- A value goes to a variable, if there is one for it. -/
def storeVariable (h : Heap) (v : Value) : Option (ScopeRef × String) → Heap
  | some (scope, name) => h.storeBound scope name v
  | none => h

/-- The property can be assigned in the later heap and has been given the value; it is
bound if it was, and then the variable has been given the value. -/
def Assigned (o : ObjectRef) (k : PropertyKey) (v : Value) (h h' : Heap) : Prop :=
  ∃ d : Descriptor, d.IsOpen ∧ d.form.boundTo? = h.boundTo? o k ∧
    (h.boundTo? o k = none → d.form = .data (some v)) ∧
    h' = (h.storeVariable v (h.boundTo? o k)).modifyObject o (·.store k d)

variable {o : ObjectRef} {names : List String} {h h' : Heap} {k : PropertyKey}

@[simp] theorem objects_storeVariable (h : Heap) (v : Value) (x : Option (ScopeRef × String)) :
    (h.storeVariable v x).objects = h.objects := by
  cases x <;> rfl

@[simp] theorem cells_storeVariable (h : Heap) (v : Value) (x : Option (ScopeRef × String)) :
    (h.storeVariable v x).cells = h.cells := by
  cases x <;> rfl

theorem Ready.of_object (hh : h.Ready o names) (hsize : h.objects.size ≤ h'.objects.size)
    (hobject : h'.object o = h.object o) : h'.Ready o names where
  lt := Nat.lt_of_lt_of_le hh.lt hsize
  valid := hobject ▸ hh.valid
  allows name hname := by
    have hallows := hh.allows name hname
    unfold AllowsFunction own? at hallows ⊢
    rw [hobject]
    exact hallows

theorem Ready.of_objects (hh : h.Ready o names) (hobjects : h'.objects = h.objects) :
    h'.Ready o names :=
  hh.of_object (by rw [hobjects]) (by simp [object, hobjects])

theorem Ready.store (hh : h.Ready o names) (k : PropertyKey) {d : Descriptor} (hd : d.IsOpen) :
    (h.modifyObject o (·.store k d)).ReadyAt o names k := by
  have hobject := object_modifyObject_self hh.lt (·.store k d)
  have hown (k' : PropertyKey) : (h.modifyObject o (·.store k d)).own? o k' =
      if k.same k' then some d else h.own? o k' := by
    rw [own?, hobject, hh.valid.own?_store]
    rfl
  refine ⟨⟨by simpa [modifyObject] using hh.lt, ?_, fun name hname ↦ ?_⟩, d, ?_, hd⟩
  · rw [hobject]
    exact hh.valid.store k d
  · have hallows := hh.allows name hname
    unfold AllowsFunction at hallows ⊢
    rw [hown, hobject]
    by_cases hsame : k.same (Scope.keyOf name) = true
    · rw [if_pos hsame]
      exact ⟨hd.resolved, .inr ⟨hd.data, hd.writable, hd.enumerable⟩⟩
    · rw [if_neg hsame, Object.isExtensible_store]
      exact hallows
  · rw [hown, if_pos k.same_self]

theorem Ready.assigned (hh : h.Ready o names) {v : Value} (ha : h.Assigned o k v h') :
    h'.ReadyAt o names k := by
  obtain ⟨d, hopen, -, -, rfl⟩ := ha
  exact (hh.of_objects (h.objects_storeVariable v _)).store k hopen

end Heap

/-! ## Declarations that succeed -/

/-- The variable that a lexical name becomes when it is declared. -/
def LexicalName.binding (l : LexicalName) : Binding := ⟨none, false, !l.isConstant, l.isConstant⟩

namespace Script

open Ecma.Action

variable {eng : Engine} {s : ScopeRef} {o : ObjectRef} {names : List String} {k : PropertyKey}

/-- A patch that leaves the property one that can be assigned. -/
theorem run_define_open (eng : Engine) {σ : State} {d patch : Descriptor} {v : Value}
    (hown : σ.heap.own? o k = some d) (hd : ∀ c, d.form ≠ .lazy c)
    (hpermits : (d.shownIn σ.heap).permits patch = true) (hvalue : patch.value? = some v)
    (hnew : ((d.shownIn σ.heap).patched patch).IsOpen)
    (hform : ((d.shownIn σ.heap).patched patch).form = .data (some v)) :
    ∃ σ', (Object.define eng o k patch).run σ = (.ok true, σ') ∧
      σ.heap.Assigned o k v σ'.heap := by
  rw [Object.run_define, Object.run_getOwn_shown eng hown hd]
  dsimp only
  rw [if_pos hpermits]
  generalize (d.shownIn σ.heap).patched patch = new at hnew hform
  have hbound := Heap.boundTo?_of_own? hown
  rw [Object.storePatched, run_bind, run_heap]
  dsimp only
  split
  next scope name hown' =>
    cases hown.symm.trans hown'
    rw [Object.rebind, hform, hvalue]
    refine ⟨_, rfl, ⟨new.attributes, .bound scope name⟩,
      ⟨fun c h ↦ ?_, rfl, hnew.writable, hnew.enumerable⟩, hbound.symm, fun hnone ↦ ?_, ?_⟩
    · cases h
    · cases hbound.symm.trans hnone
    · rw [hbound, Descriptor.isWritable_iff.1 hnew.writable]
      rfl
  next hnot =>
    have hnone : σ.heap.boundTo? o k = none := by
      obtain ⟨a, form⟩ := d
      rw [hbound]
      cases form with
      | bound scope name => exact absurd hown (hnot a scope name)
      | _ => rfl
    refine ⟨_, rfl, new, hnew, ?_, fun _ ↦ hform, ?_⟩
    · rw [hform, hnone]
      rfl
    · rw [hnone]
      rfl

/-- Assigning to such a property succeeds. -/
theorem run_assign (eng : Engine) {σ : State} {d : Descriptor} (hown : σ.heap.own? o k = some d)
    (hd : d.IsOpen) (v : Value) :
    ∃ σ', (Object.define eng o k (Descriptor.generic.withValue v)).run σ = (.ok true, σ') ∧
      σ.heap.Assigned o k v σ'.heap := by
  have ha : (d.shownIn σ.heap).isAccessor = false := by rw [d.isAccessor_shownIn, hd.data]
  have hw : (d.shownIn σ.heap).isWritable = true := by rw [d.isWritable_shownIn, hd.writable]
  have hpatched := Descriptor.patched_withValue ha v
  refine run_define_open eng hown hd.resolved (Descriptor.permits_withValue ha hw v) rfl ?_ ?_
  · rw [hpatched]
    exact ⟨nofun, rfl, hw, (d.isEnumerable_shownIn σ.heap).trans hd.enumerable⟩
  · rw [hpatched]

theorem run_define_new (eng : Engine) {σ : State} (hown : σ.heap.own? o k = none)
    (hext : (σ.heap.object o).isExtensible = true) (v : Value) :
    ∃ σ', (Object.define eng o k (.data v true true false)).run σ = (.ok true, σ') ∧
      σ.heap.Assigned o k v σ'.heap := by
  have hnone : σ.heap.boundTo? o k = none := by
    rw [Heap.boundTo?, Object.boundTo?, ← Heap.own?, hown]
    rfl
  rw [Object.run_define, Object.run_getOwn_none eng hown]
  dsimp only
  rw [if_pos hext]
  refine ⟨_, rfl, _, Descriptor.isOpen_data v false, hnone.symm, fun _ ↦ rfl, ?_⟩
  rw [hnone]
  rfl

theorem leads_set (eng : Engine) (k : PropertyKey) (v : Value) :
    Leads eng (Heap.ReadyAt o names k) (Heap.ReadyAt o names k)
      (Object.set eng o k v (.object o)) := by
  rintro σ ⟨hσ, d, hown, hd⟩
  rw [Object.run_set_shown eng hown hd.resolved hd.data hd.writable]
  split
  next hfuel => exact .inr ⟨hfuel, σ, rfl⟩
  · obtain ⟨σ', hrun, hassigned⟩ := run_assign eng hown hd v
    exact .inl ⟨true, σ', hrun, hσ.assigned hassigned⟩

theorem run_defineOrThrow {patch : Descriptor} {σ σ' : State}
    (hdefine : (Object.define eng o k patch).run σ = (.ok true, σ')) :
    (Object.defineOrThrow eng o k patch).run σ = (.ok (), σ') := by
  rw [Object.defineOrThrow, run_bind, hdefine]
  rfl

theorem leads_modifyVarNames (f : List String → List String) :
    Leads eng (Heap.Ready o names) (Heap.Ready o names) (Scope.modifyVarNames s f) :=
  fun _ hσ ↦ .inl ⟨(), _, rfl, hσ.of_objects rfl⟩

theorem leads_instantiate (f : FunctionNode) :
    Leads eng (Heap.Ready o names) (Heap.Ready o names) (Function.instantiate f s none) := by
  intro σ hσ
  obtain ⟨v, σ', hrun, hgrows, -⟩ :=
    Function.allocates_instantiate (H := ordinaryHost) f s none σ σ.heap.grows_refl
  exact .inl ⟨v, σ', hrun, hσ.of_object hgrows.objects_le (hgrows.object_eq o hσ.lt)⟩

/-- A function is defined as a property, and then assigned to it. -/
theorem run_createGlobalFunction (eng : Engine) (s : ScopeRef) {σ : State}
    (hσ : σ.heap.Ready o names) {name : String} (hname : name ∈ names) (v : Value) :
    ∃ σ', σ.heap.Assigned o (Scope.keyOf name) v σ'.heap ∧
      (Scope.createGlobalFunction eng s o name v false).run σ = (do
        discard (Object.set eng o (Scope.keyOf name) v (.object o))
        Scope.modifyVarNames s (Scope.addVarName name)).run σ' := by
  have hallows := hσ.allows name hname
  unfold Heap.AllowsFunction at hallows
  cases hown : σ.heap.own? o (Scope.keyOf name) with
  | none =>
      rw [hown] at hallows
      obtain ⟨σ', hdefine, hσ'⟩ := run_define_new eng hown hallows v
      refine ⟨σ', hσ', ?_⟩
      rw [Scope.createGlobalFunction, run_bind, Object.run_getOwn_none eng hown]
      dsimp only
      rw [run_bind, run_defineOrThrow hdefine]
  | some d =>
      rw [hown] at hallows
      obtain ⟨hd, hallows⟩ := hallows
      rw [Scope.createGlobalFunction, run_bind, Object.run_getOwn_shown eng hown hd]
      dsimp only
      rw [d.isConfigurable_shownIn]
      by_cases hc : d.isConfigurable = true
      · have hpermits : (d.shownIn σ.heap).permits (.data v true true false) = true := by
          rw [Descriptor.permits, d.isConfigurable_shownIn, if_pos hc]
        have hpatched := (d.shownIn σ.heap).patched_data v true true false
        obtain ⟨σ', hdefine, hσ'⟩ := run_define_open eng hown hd hpermits rfl
          (by rw [hpatched]; exact Descriptor.isOpen_data v false) (by rw [hpatched]; rfl)
        refine ⟨σ', hσ', ?_⟩
        rw [if_pos hc, run_bind, run_defineOrThrow hdefine]
      · obtain ⟨ha, hw, he⟩ := hallows.resolve_left hc
        obtain ⟨σ', hdefine, hσ'⟩ := run_assign eng hown ⟨hd, ha, hw, he⟩ v
        refine ⟨σ', hσ', ?_⟩
        rw [if_neg hc, run_bind, run_defineOrThrow hdefine]

theorem leads_createGlobalFunction {name : String} (hname : name ∈ names) (v : Value) :
    Leads eng (Heap.Ready o names) (Heap.Ready o names)
      (Scope.createGlobalFunction eng s o name v false) := by
  intro σ hσ
  obtain ⟨σ₁, hassigned, hrun⟩ := run_createGlobalFunction eng s hσ hname v
  have hset := (leads_set eng (Scope.keyOf name) v).discard.weaken
    fun _ (hh : Heap.ReadyAt o names _ _) ↦ hh.1
  exact (hset.bind fun _ ↦ leads_modifyVarNames _).run_eq hrun (hσ.assigned hassigned)

theorem leads_objectSet (name : String) (v : Value) :
    Leads eng (Heap.ReadyAt o names (Scope.keyOf name)) (Heap.Ready o names)
      (Scope.objectSet eng o name v false) := by
  have hset := (leads_set eng (Scope.keyOf name) v).weaken
    fun _ (hh : Heap.ReadyAt o names _ _) ↦ hh.1
  have hread : Leads eng (Heap.ReadyAt o names (Scope.keyOf name))
      (Heap.ReadyAt o names (Scope.keyOf name)) heap :=
    fun σ hσ ↦ .inl ⟨σ.heap, σ, rfl, hσ⟩
  unfold Scope.objectSet
  refine hread.bind fun h ↦ ?_
  rw [if_neg (by simp)]
  refine hset.bind fun assigned ↦ ?_
  rw [if_neg (by simp)]
  exact leads_pure ()

theorem leads_createGlobalVar (name : String) :
    Leads eng (Heap.Ready o names) (Heap.Ready o names)
      (Scope.createGlobalVar eng s o name false) := by
  intro σ hσ
  rw [Scope.createGlobalVar, run_bind, run_object]
  dsimp only
  split
  next hnew =>
    obtain ⟨habsent, hext⟩ := Bool.and_eq_true_iff.1 hnew
    have hown : σ.heap.own? o (Scope.keyOf name) = none := by
      simpa [Object.hasOwn, Heap.own?] using habsent
    obtain ⟨σ₁, hdefine, hassigned⟩ := run_define_new eng hown hext .undefined
    have hcreate : (Scope.objectCreate eng o name false).run σ = (.ok (), σ₁) :=
      run_defineOrThrow hdefine
    rw [run_bind, hcreate]
    exact ((leads_objectSet name .undefined).bind fun _ ↦ leads_modifyVarNames _) σ₁
      (hσ.assigned hassigned)
  next => exact leads_modifyVarNames _ σ hσ

theorem leads_createFunctions {fs : List FunctionNode}
    (hfs : ∀ f ∈ fs, ∀ name, f.name? = some name → name ∈ names) :
    Leads eng (Heap.Ready o names) (Heap.Ready o names) (createFunctions eng s o fs) := by
  induction fs with
  | nil => exact leads_pure ()
  | cons f rest ih =>
      have ih := ih fun f hf ↦ hfs f (List.mem_cons_of_mem _ hf)
      unfold createFunctions
      split
      next => exact ih
      next name hname =>
        refine (leads_instantiate f).bind fun closure ↦ ?_
        exact (leads_createGlobalFunction (hfs f List.mem_cons_self name hname) closure).bind
          fun _ ↦ ih

theorem leads_createVars (vars : List String) :
    Leads eng (Heap.Ready o names) (Heap.Ready o names) (createVars eng s o vars) := by
  induction vars with
  | nil => exact leads_pure ()
  | cons name rest ih => exact (leads_createGlobalVar name).bind fun _ ↦ ih

/-- The names are not in the scope, so that each can be declared. -/
def Fresh (s : ScopeRef) (o : ObjectRef) (ls : List LexicalName) (h : Heap) : Prop :=
  ∃ b, h.IsGlobal s o b ∧ ∀ l ∈ ls, b.contains l.name = false

/-- In a global scope every lexical name becomes a variable of the scope itself. -/
theorem run_createLexical_cons (eng : Engine) {σ : State} {b : Bindings}
    (hs : σ.heap.IsGlobal s o b) (l : LexicalName) (rest : List LexicalName) :
    (Function.createLexical eng s (l :: rest)).run σ = (do
      Scope.update s b (·.create l.name l.binding)
      Function.createLexical eng s rest).run σ := by
  obtain ⟨-, names, hrecord⟩ := hs
  obtain ⟨name, isConstant⟩ := l
  cases isConstant with
  | true =>
      have hname : (Scope.createImmutable s name true).run σ =
          (Scope.update s b (·.create name (LexicalName.binding ⟨name, true⟩))).run σ := by
        rw [Scope.createImmutable, run_bind, run_scope]
        dsimp only
        rw [hrecord]
        rfl
      change (Scope.createImmutable s name true >>= fun _ ↦ _).run σ = _
      rw [run_bind, hname, run_bind]
  | false =>
      have hname : (Scope.createMutable eng s name false).run σ =
          (Scope.update s b (·.create name (LexicalName.binding ⟨name, false⟩))).run σ := by
        rw [Scope.createMutable, run_bind, run_scope]
        dsimp only
        rw [hrecord]
        rfl
      change (Scope.createMutable eng s name false >>= fun _ ↦ _).run σ = _
      rw [run_bind, hname, run_bind]

theorem run_update_create {b : Bindings} {name : String} (hname : b.contains name = false)
    (x : Binding) (σ : State) :
    (Scope.update s b (·.create name x)).run σ =
      (.ok (), { σ with heap := σ.heap.withVariables s (b.insert name x) }) := by
  have hok : b.create name x = .ok (b.insert name x) := by simp [Bindings.create, hname]
  rw [Scope.update, hok]
  rfl

theorem leads_createLexical {ls : List LexicalName} (hdistinct : (ls.map LexicalName.name).Nodup) :
    Leads eng (fun h ↦ h.Ready o names ∧ Fresh s o ls h) (Heap.Ready o names)
      (Function.createLexical eng s ls) := by
  induction ls with
  | nil => exact fun σ hσ ↦ .inl ⟨(), σ, rfl, hσ.1⟩
  | cons l rest ih =>
      obtain ⟨hl, hrest⟩ := List.nodup_cons.1 hdistinct
      rintro σ ⟨hσ, b, hs, hfresh⟩
      rw [run_createLexical_cons eng hs, run_bind,
        run_update_create (hfresh l List.mem_cons_self)]
      refine ih hrest _ ⟨hσ.of_objects rfl, _, hs.withVariables _, fun l' hl' ↦ ?_⟩
      -- What has been declared now is none of the names that are left.
      have hne : l'.name ≠ l.name := fun heq ↦ hl (heq ▸ List.mem_map_of_mem hl')
      rw [Bindings.contains, Bindings.find?_insert_of_ne _ hne]
      exact hfresh l' (List.mem_cons_of_mem _ hl')

/-! ## All or nothing -/

/-- What passing all checks tells of the heap after them. -/
theorem ready_of_run_check {n : Nat} {d : Declarations} {b : Bindings} {σ τ : State}
    (hσ : σ.heap.IsStored) (ho : o.index < σ.heap.objects.size)
    (hcoherent : σ.heap.IsCoherentOn o d.functionNames) (hs : σ.heap.IsGlobal s o b)
    (hrun : (check (.reading n) d s o).run σ = (.ok (), τ)) :
    τ.heap.Ready o d.functionNames ∧ Fresh s o d.lexical τ.heap := by
  obtain ⟨hτ, hm⟩ := (onlyReads_check n s o d).memoises hσ hrun nofun
  obtain ⟨⟨⟩, σ₁, hlexical, hrun⟩ := run_bind_eq_ok hrun
  obtain ⟨⟨⟩, σ₂, hnames, hrun⟩ := run_bind_eq_ok hrun
  obtain ⟨⟨⟩, σ₃, hfunctions, hrun⟩ := run_bind_eq_ok hrun
  obtain ⟨hσ₁, hm₁⟩ := (onlyReads_checkLexical n s o d _).memoises hσ hlexical nofun
  obtain ⟨hσ₂, hm₂⟩ := (onlyReads_checkNames s _).memoises hσ₁ hnames nofun
  obtain ⟨hσ₃, hm₃⟩ := (onlyReads_checkFunctions n o _).memoises hσ₂ hfunctions nofun
  obtain ⟨-, hm₄⟩ := (onlyReads_checkVars o _).memoises hσ₃ hrun nofun
  have ho₁ := Nat.lt_of_lt_of_le ho hm₁.objects_le
  have ho₂ := Nat.lt_of_lt_of_le ho₁ hm₂.objects_le
  have hoτ := Nat.lt_of_lt_of_le ho hm.objects_le
  -- Functions were found to be allowed in an earlier heap; the check of the variables,
  -- which came after, has only memoised.
  have hallows := allowsFunction_of_run_checkFunctions hσ₂ ho₂
    ((hcoherent.memoises ho hm₁).memoises ho₁ hm₂) (List.Subset.refl _) hfunctions
  exact ⟨⟨hoτ, (hτ o hoτ).valid,
      fun name hname ↦ (hallows name hname).memoises (Nat.lt_of_lt_of_le ho₂ hm₃.objects_le) hm₄⟩,
    b, hs.memoises hm, not_contains_of_run_checkLexical hσ hs hlexical⟩

theorem run_globalObject {b : Bindings} {σ : State} (hs : σ.heap.IsGlobal s o b) :
    (globalObject s).run σ = (.ok o, σ) := by
  obtain ⟨-, names, hrecord⟩ := hs
  rw [globalObject, run_bind, run_scope]
  dsimp only
  rw [hrecord]
  rfl

/-- Once the checks have passed, nothing fails. -/
theorem leads_create (eng : Engine) (d : Declarations)
    (hdistinct : (d.lexical.map LexicalName.name).Nodup) :
    Leads eng (fun h ↦ h.Ready o d.functionNames ∧ Fresh s o d.lexical h)
      (Heap.Ready o d.functionNames) (do
        Function.createLexical eng s d.lexical
        createFunctions eng s o d.functions
        createVars eng s o (pureVars d)) := by
  refine (leads_createLexical hdistinct).bind fun _ ↦ ?_
  refine (leads_createFunctions fun f hf name hname ↦ ?_).bind fun _ ↦ leads_createVars _
  exact List.mem_filterMap.2 ⟨f, hf, hname⟩

end Script

/-- If declaring the names of a script fails, and its lexical names are distinct, then
every scope is as before, and so is every object, but for lazy properties that have been
read; the checks may read them, provided that no function is called for it. -/
theorem failed_declaration_changes_nothing (n : Nat) (body : List Statement)
    (hdistinct : ((Tree.lexicalNames body).map LexicalName.name).Nodup) (σ : State)
    (s : ScopeRef) (o : ObjectRef) (b : Bindings) (hs : σ.heap.IsGlobal s o b)
    (hσ : σ.heap.IsStored) (ho : o.index < σ.heap.objects.size)
    (hcalls : Engine.CallsNothing n (Script.check · (.analyze body) s o) σ)
    (hcoherent : σ.heap.IsCoherent o) (e : Failure) (he : e ≠ .fault .outOfFuel) (σ' : State)
    (hrun : (Script.declare (.level n) (.analyze body) s).run σ = (.error e, σ')) :
    σ.heap.Memoises σ'.heap := by
  rw [Script.declare, Action.run_bind, Script.run_globalObject hs] at hrun
  dsimp only at hrun
  rw [Action.run_bind, ← hcalls] at hrun
  rcases hcheck : (Script.check (.reading n) (.analyze body) s o).run σ with ⟨e' | ⟨⟩, τ⟩
  · rw [hcheck] at hrun
    cases hrun
    refine ((Script.onlyReads_check n s o _).memoises hσ hcheck fun h ↦ ?_).2
    exact he (Except.error.inj h)
  · rw [hcheck] at hrun
    have hready := Script.ready_of_run_check hσ ho (hcoherent.on _) hs hcheck
    rcases Script.leads_create (.level n) (.analyze body) hdistinct τ hready with
      ⟨_, _, hok, -⟩ | ⟨-, _, hfuel⟩
    · cases hok.symm.trans hrun
    · cases hfuel.symm.trans hrun
      exact absurd rfl he

theorem Realm.own?_globalData {prototype self : ObjectRef} {cutover : Nat} {k : PropertyKey}
    {d : Descriptor} (hd : (globalData prototype self cutover).own? k = some d) :
    ∃ v w e c, d = .data v w e c := by
  let IsData (d : Descriptor) : Prop := ∃ v w e c, d = .data v w e c
  have hstore {data : Object} (hdata : data.Conforms IsData ordinaryHost) (k : PropertyKey)
      (v : Value) (w e c : Bool) : (data.store k (.data v w e c)).Conforms IsData ordinaryHost :=
    hdata.store k ⟨v, w, e, c, rfl⟩
  have hnew : (Object.new .object (some prototype) cutover).Conforms IsData ordinaryHost :=
    Object.conforms_new _ _ _
  exact (hstore (hstore (hstore (hstore hnew _ _ _ _ _) _ _ _ _ _) _ _ _ _ _) _ _ _ _ _).own k d hd

/-- A script declares a new name and one that an earlier script has declared: the new
name is not there afterwards. -/
theorem failed_declaration_changes_nothing_redeclared :
    let fresh := State.initial .standard
    let s := fresh.realm.globalScope
    let o := fresh.realm.globalObject
    let b := Bindings.empty.insert "a" ⟨some .null, false, true, false⟩
    let heap := fresh.heap.modifyScope s fun scope ↦ { scope with record := .global o b [] }
    let σ : State := { fresh with heap }
    let body : List Statement :=
      [.mk .origin (.variable .lexical [.mk "b" none]),
        .mk .origin (.variable .lexical [.mk "a" none])]
    let r := (Script.declare (.level 9) (.analyze body) s).run σ
    heap.IsGlobal s o b ∧ heap.IsCoherent o ∧
      Engine.CallsNothing 9 (Script.check · (.analyze body) s o) σ ∧
      r.1 = .error (.thrown (.object ⟨12⟩)) ∧ heap.Memoises r.2.heap := by
  intro fresh s o b heap σ body r
  have hobject : heap.object o = Realm.globalData fresh.realm.objectPrototype o 9 := rfl
  have hown {k : PropertyKey} {d : Descriptor} (hd : heap.own? o k = some d) :
      ∃ v w e c, d = .data v w e c := by
    rw [Heap.own?, hobject] at hd
    exact Realm.own?_globalData hd
  have hs : heap.IsGlobal s o b := ⟨Nat.zero_lt_one, [], rfl⟩
  have hstored : heap.IsStored :=
    (Realm.allConform_build (fun _ _ _ _ ↦ trivial) _ Heap.allConform_empty).of_objects rfl
  have hcoherent : heap.IsCoherent o := by
    intro k d hd ha
    obtain ⟨_, _, _, _, rfl⟩ := hown hd
    cases ha
  have hcalls : Engine.CallsNothing 9 (Script.check · (.analyze body) s o) σ := by
    refine Engine.callsNothing_of_follows (Script.follows_check s _) fun hend ↦ ?_
    have hthrown : ((Script.check (.reading 9) (.analyze body) s o).run σ).1 =
        .error (.thrown (.object ⟨12⟩)) := rfl
    cases hthrown.symm.trans hend
  have hrun : r.1 = .error (.thrown (.object ⟨12⟩)) := rfl
  exact ⟨hs, hcoherent, hcalls, hrun, failed_declaration_changes_nothing 9 body (by decide) σ s o b
    hs hstored (by decide) hcalls hcoherent (.thrown (.object ⟨12⟩)) (fun h ↦ by cases h) r.2
    (Prod.ext hrun rfl)⟩

/-- A name that a script declares twice is found out when it is declared for the second
time; the first declaration stays, and the name has no value. -/
theorem repeated_declaration_stays :
    let σ := State.initial .standard
    let s := σ.realm.globalScope
    let body : List Statement :=
      [.mk .origin (.variable .lexical [.mk "a" none]),
        .mk .origin (.variable .lexical [.mk "a" none])]
    let r := (Script.declare (.level 9) (.analyze body) s).run σ
    r.1 = .error (.thrown (.object ⟨12⟩)) ∧
      (σ.heap.scope s).record = .global σ.realm.globalObject .empty [] ∧
      (r.2.heap.scope s).record =
        .global σ.realm.globalObject (Bindings.empty.insert "a" ⟨none, false, true, false⟩) [] :=
  ⟨rfl, rfl, rfl⟩

end Ecma
