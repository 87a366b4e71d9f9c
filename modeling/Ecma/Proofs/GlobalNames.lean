import Ecma.Proofs.Policy.Laws
import Ecma.Proofs.Policy.Statements
import Ecma.Proofs.ScopeEvolution

/-!
# Names in a global scope

A global scope has lexical names, which are variables of its own, and a list of
the names that scripts have declared by `var` or `function`.  Only the
declarations of a script add a name to it; whatever else runs may at most take
names away.
-/

namespace Ecma

/-! ## Scopes that lose names -/

/-- Of a global scope names may be lost, but none is added, and every record stays
of its kind. -/
inductive ScopeRecord.Narrows : ScopeRecord → ScopeRecord → Prop where
  | declarative (b b' : Bindings) (this : Option Value) :
      Narrows (.declarative b this) (.declarative b' this)
  | object (o : ObjectRef) (isWith : Bool) : Narrows (.object o isWith) (.object o isWith)
  | «global» (o : ObjectRef) {b b' : Bindings} {names names' : List String}
      (lexical : ∀ name, b'.contains name = true → b.contains name = true)
      (vars : names' ⊆ names) : Narrows (.global o b names) (.global o b' names')

namespace ScopeRecord

theorem narrows_refl (r : ScopeRecord) : r.Narrows r := by
  cases r with
  | declarative b this => exact .declarative b b this
  | object o isWith => exact .object o isWith
  | «global» o b names => exact .global o (fun _ ↦ id) (List.Subset.refl names)

theorem Narrows.trans {r r' r'' : ScopeRecord} (h : r.Narrows r') (h' : r'.Narrows r'') :
    r.Narrows r'' := by
  cases h with
  | declarative b _ this => cases h' with
    | declarative _ b'' _ => exact .declarative b b'' this
  | object o isWith => exact h'
  | «global» o hlexical hvars => cases h' with
    | «global» _ hlexical' hvars' =>
        exact .global o (fun name h ↦ hlexical name (hlexical' name h))
          (List.Subset.trans hvars' hvars)

theorem narrows_withBindings {r : ScopeRecord} {b b' : Bindings} (hb : r.bindings? = some b)
    (h : ∀ name, b'.contains name = true → b.contains name = true) :
    r.Narrows (r.withBindings b') := by
  cases r with
  | declarative b₀ this => exact .declarative b₀ b' this
  | object o isWith => exact .object o isWith
  | «global» o b₀ names =>
      cases hb
      exact .global o h (List.Subset.refl names)

end ScopeRecord

namespace Bindings

variable {b b' : Bindings} {name : String} {v : Value}

@[simp] theorem contains_write (b : Bindings) (name other : String) (v : Value) :
    (b.write name v).contains other = b.contains other := by
  by_cases hne : other = name
  · subst hne
    rw [contains, find?_write_self, Option.isSome_map, contains]
  · rw [contains, find?_write_of_ne b hne, contains]

@[simp] theorem contains_store (b : Bindings) (name other : String) (v : Value) :
    (b.store name v).contains other = b.contains other := by
  unfold store
  split
  · split
    · exact b.contains_write name other v
    · rfl
  · rfl

theorem contains_initialise {other : String} (h : b.initialise name v = .ok b') :
    b'.contains other = b.contains other := by
  rw [initialise_eq_ok h, contains_write]

/-- A variable that is there stays the only one of its name. -/
theorem contains_set {strict : Bool} {other : String} (hname : b.contains name = true)
    (h : b.set name v strict = .ok b') : b'.contains other = b.contains other := by
  obtain ⟨x, hx⟩ := Option.isSome_iff_exists.1 hname
  rw [set, hx] at h
  dsimp only at h
  split at h
  · cases h
  · split at h
    · cases h
      exact b.contains_write name other v
    · split at h
      · cases h
      · cases h
        rfl

theorem contains_of_delete {other : String} (h : (b.delete name).2.contains other = true) :
    b.contains other = true := by
  unfold delete at h
  split at h
  · exact h
  · split at h
    · by_cases hne : other = name
      · subst hne
        rw [contains, find?_erase_self] at h
        cases h
      · rwa [contains, b.find?_erase_of_ne hne] at h
    · exact h

end Bindings

namespace Heap

/-- No global scope that is there gets a name. -/
structure ScopesNarrow (h h' : Heap) : Prop where
  size_le : h.scopes.size ≤ h'.scopes.size
  record : ∀ s : ScopeRef, s.index < h.scopes.size →
    (h.scope s).record.Narrows (h'.scope s).record

namespace ScopesNarrow

variable {h h' h'' : Heap}

theorem of_scopes (hscopes : h'.scopes = h.scopes) : h.ScopesNarrow h' where
  size_le := by rw [hscopes]
  record s _ := by
    have hscope : h'.scope s = h.scope s := by simp [Heap.scope, hscopes]
    rw [hscope]
    exact ScopeRecord.narrows_refl _

theorem trans (hn : h.ScopesNarrow h') (hn' : h'.ScopesNarrow h'') : h.ScopesNarrow h'' where
  size_le := Nat.le_trans hn.size_le hn'.size_le
  record s hs := (hn.record s hs).trans (hn'.record s (Nat.lt_of_lt_of_le hs hn.size_le))

theorem addScope (h : Heap) (data : Scope) : h.ScopesNarrow (h.addScope data).2 where
  size_le := by simp [Heap.addScope]
  record s hs := by
    rw [scope_addScope_of_lt hs]
    exact ScopeRecord.narrows_refl _

theorem build (cutover : Nat) (h : Heap) : h.ScopesNarrow (Realm.build cutover h).2 := by
  unfold Realm.build
  refine trans ?_ (addScope _ _)
  exact of_scopes rfl

theorem modifyScope {s : ScopeRef} {f : Scope → Scope}
    (hf : (h.scope s).record.Narrows (f (h.scope s)).record) :
    h.ScopesNarrow (h.modifyScope s f) where
  size_le := by simp [Heap.modifyScope]
  record t ht := by
    by_cases hts : t = s
    · subst hts
      rw [scope_modifyScope_self ht]
      exact hf
    · rw [scope_modifyScope_of_ne h hts]
      exact ScopeRecord.narrows_refl _

theorem storeBound (h : Heap) (s : ScopeRef) (name : String) (v : Value) :
    h.ScopesNarrow (h.storeBound s name v) := by
  refine modifyScope ?_
  split
  next b hb =>
    refine ScopeRecord.narrows_withBindings hb fun other hother ↦ ?_
    rwa [Bindings.contains_store] at hother
  next => exact ScopeRecord.narrows_refl _

end ScopesNarrow

/-- The scope is there and holds variables, but is not a global one. -/
def IsLocal (h : Heap) (s : ScopeRef) : Prop :=
  s.index < h.scopes.size ∧ ∃ b this, (h.scope s).record = .declarative b this

theorem IsLocal.narrows {h h' : Heap} {s : ScopeRef} (hs : h.IsLocal s) (hn : h.ScopesNarrow h') :
    h'.IsLocal s := by
  obtain ⟨hlt, b, this, hrecord⟩ := hs
  have hnarrows := hn.record s hlt
  rw [hrecord] at hnarrows
  generalize hrecord' : (h'.scope s).record = r' at hnarrows
  cases hnarrows
  exact ⟨Nat.lt_of_lt_of_le hlt hn.size_le, _, _, hrecord'⟩

end Heap

/-! ## Actions that add no names -/

variable {α β : Type}

/-- What an action must lead to from `σ`: no names are added, and the scopes that it
tells of are local. -/
structure AddsNoNames (σ : State) (r : Except Failure α × State) (Φ : α → Set Fact) : Prop where
  narrows : σ.heap.ScopesNarrow r.2.heap
  tells : ∀ a, r.1 = .ok a → ∀ s, .holder s ∈ Φ a → r.2.heap.IsLocal s

theorem AddsNoNames.after {σ τ : State} {r : Except Failure α × State} {Φ : α → Set Fact}
    (h : AddsNoNames τ r Φ) (hn : σ.heap.ScopesNarrow τ.heap) : AddsNoNames σ r Φ :=
  ⟨hn.trans h.narrows, h.tells⟩

/-- Where the scopes that are known to hold variables are local. -/
def HoldsNoNames (Γ : Set Fact) (m : Action α) (Φ : α → Set Fact) : Prop :=
  ∀ σ, (∀ s, .holder s ∈ Γ → σ.heap.IsLocal s) → AddsNoNames σ (m.run σ) Φ

namespace HoldsNoNames

variable {Γ Γ' : Set Fact} {Φ Φ' : α → Set Fact} {Ψ : β → Set Fact}

/-- An action that tells nothing. -/
theorem of_run {m : Action α} (hm : ∀ σ : State, σ.heap.ScopesNarrow (m.run σ).2.heap) :
    HoldsNoNames ∅ m fun _ ↦ ∅ :=
  fun σ _ ↦ ⟨hm σ, fun _ _ _ h ↦ nomatch h⟩

/-- An action that leaves the scopes alone. -/
theorem of_scopes {m : Action α} (hm : ∀ σ : State, (m.run σ).2.heap.scopes = σ.heap.scopes) :
    HoldsNoNames ∅ m fun _ ↦ ∅ :=
  of_run fun σ ↦ .of_scopes (hm σ)

theorem pure (a : α) (Φ : α → Set Fact) : HoldsNoNames (Φ a) (pure a) Φ := by
  refine fun σ hΓ ↦ ⟨.of_scopes rfl, fun a' ha' ↦ ?_⟩
  cases ha'
  exact hΓ

theorem bind {m : Action α} {f : α → Action β} (hm : HoldsNoNames Γ m Φ)
    (hf : ∀ a, HoldsNoNames (Φ a) (f a) Ψ) : HoldsNoNames Γ (m >>= f) Ψ := by
  intro σ hΓ
  have hfirst := hm σ hΓ
  rw [Action.run_bind]
  rcases hrun : m.run σ with ⟨e | a, σ₁⟩
  · rw [hrun] at hfirst
    exact ⟨hfirst.narrows, nofun⟩
  · rw [hrun] at hfirst
    exact (hf a σ₁ (hfirst.tells a rfl)).after hfirst.narrows

theorem idle {m : Action α} (hΓ : ∀ s, .holder s ∈ Γ → .holder s ∈ Γ')
    (hΦ : ∀ a s, .holder s ∈ Φ' a → .holder s ∈ Φ a) (hm : HoldsNoNames Γ m Φ) :
    HoldsNoNames Γ' m Φ' := by
  intro σ hlocal
  obtain ⟨hnarrows, htells⟩ := hm σ fun s hs ↦ hlocal s (hΓ s hs)
  exact ⟨hnarrows, fun a ha s hs ↦ htells a ha s (hΦ a s hs)⟩

theorem persist {m : Action α} (hm : HoldsNoNames Γ m Φ) :
    HoldsNoNames Γ m fun a ↦ Γ ∪ Φ a := by
  intro σ hΓ
  obtain ⟨hnarrows, htells⟩ := hm σ hΓ
  refine ⟨hnarrows, fun a ha s hs ↦ ?_⟩
  rcases hs with hs | hs
  · exact (hΓ s hs).narrows hnarrows
  · exact htells a ha s hs

/-- An action that needs to know nothing. -/
theorem narrows {m : Action α} (hm : HoldsNoNames ∅ m Φ) (σ : State) :
    σ.heap.ScopesNarrow (m.run σ).2.heap :=
  (hm σ fun _ h ↦ nomatch h).narrows

end HoldsNoNames

/-- Nothing adds a name to a global scope. -/
def noNewNames : Policy where
  host := ⟨fun _ ↦ True, fun _ ↦ True⟩
  demands := False
  Holds Γ m Φ := HoldsNoNames Γ m Φ
  holds_pure := HoldsNoNames.pure
  holds_bind := HoldsNoNames.bind
  mono hΓ hΦ hm := hm.idle (fun _ h ↦ hΓ h) fun a _ h ↦ hΦ a h
  persist := HoldsNoNames.persist
  idle _ hΓ hΦ hm := hm.idle hΓ hΦ

namespace noNewNames

open HoldsNoNames

/-! ## Failures, host programs and executions -/

theorem holds_run {eng : Engine}
    (hperform : ∀ request : Request, HoldsNoNames ∅ (Host.perform eng request) fun _ ↦ ∅)
    (program : HostProgram α) : HoldsNoNames ∅ (Host.run eng program) fun _ ↦ ∅ := by
  induction program with
  | done result => exact of_scopes fun _ ↦ rfl
  | perform request next ih =>
      refine of_run fun σ ↦ ?_
      have hfirst := (hperform request).narrows σ
      rw [Host.run, Action.run_bind, Action.run_attempt]
      dsimp only
      split
      · exact hfirst
      · exact hfirst.trans ((ih _).narrows _)

theorem executes_recovers {e : Failure} {m : Execution Completion} (hm : Statement.Recovers e m) :
    HoldsNoNames ∅ (Action.ofExecution m) fun _ ↦ ∅ := by
  cases hm with
  | report location => cases e <;> exact of_scopes fun _ ↦ rfl
  | drop c => exact of_scopes fun _ ↦ rfl

theorem executes_handle {Γ : Set Fact} {m : Action α} {Φ : α → Set Fact}
    (next : Except Failure α → Execution Completion) (hm : HoldsNoNames Γ m Φ)
    (hok : ∀ a, (∃ σ τ, m.run σ = (.ok a, τ)) →
      HoldsNoNames (Φ a) (Action.ofExecution (next (.ok a))) fun _ ↦ ∅)
    (herror : ∀ e, Statement.Recovers e (next (.error e))) :
    HoldsNoNames Γ (Action.ofExecution (Execution.ofAction m >>= next)) fun _ ↦ ∅ := by
  intro σ hΓ
  have hfirst := hm σ hΓ
  rw [Policy.run_ofAction_bind]
  rcases hrun : m.run σ with ⟨e | a, τ⟩
  · rw [hrun] at hfirst
    exact (executes_recovers (herror e) τ fun _ h ↦ nomatch h).after hfirst.narrows
  · rw [hrun] at hfirst
    exact (hok a ⟨σ, τ, hrun⟩ τ (hfirst.tells a rfl)).after hfirst.narrows

theorem executes_takeInterrupt :
    HoldsNoNames ∅ (Action.ofExecution (modifyGet State.takeInterrupt)) fun _ ↦ ∅ := by
  refine of_scopes fun σ ↦ ?_
  change σ.takeInterrupt.2.heap.scopes = _
  unfold State.takeInterrupt
  split <;> rfl

/-! ## Laws -/

theorem basics : noNewNames.Basics where
  patches _ _ := trivial
  read m f hrun := of_scopes fun σ ↦ by rw [hrun]
  fault _ _ _ := of_scopes fun _ ↦ rfl
  raise _ _ := of_scopes fun _ ↦ rfl
  log _ _ := of_scopes fun _ ↦ rfl
  raises _ _ := trivial
  interrupt := of_scopes fun _ ↦ rfl
  newSymbol _ := of_scopes fun _ ↦ rfl
  callable o next hnone hsome := by
    refine of_run fun σ ↦ ?_
    change σ.heap.ScopesNarrow ((next (σ.heap.object o).callable).run σ).2.heap
    cases (σ.heap.object o).callable with
    | none => exact HoldsNoNames.narrows hnone σ
    | some f =>
        refine HoldsNoNames.narrows (hsome f ?_) σ
        refine Policy.admissible_of_honours id (fun _ ↦ trivial) ?_
        cases f with
        | closure f s strict => trivial
        | native name arity run =>
            refine fun this args ↦ (run this args).honours_of_forall ?_ fun _ ↦ trivial
            exact fun _ ↦ trivial
  depth m m' hm hm' := by
    refine of_run fun σ ↦ ?_
    change σ.heap.ScopesNarrow
      ((if σ.options.maxCallDepth ≤ σ.callDepth then m else m').run σ).2.heap
    split
    · exact HoldsNoNames.narrows hm σ
    · exact HoldsNoNames.narrows hm' σ
  counted m hm :=
    of_run fun σ ↦ HoldsNoNames.narrows hm { σ with callDepth := σ.callDepth + 1 }
  program eng hperform _ program _ _ := by
    refine holds_run (fun request ↦ hperform request ?_ ⟨trivial, ?_⟩) program
    · cases request <;> trivial
    · exact request.isPlaced_of_not id
  finish c := by cases c <;> exact of_scopes fun _ ↦ rfl
  handle := executes_handle
  forget := of_scopes fun _ ↦ rfl
  takeInterrupt := executes_takeInterrupt

theorem lax : noNewNames.Lax where
  basics := basics
  newCell _ _ := of_scopes fun _ ↦ rfl
  constant _ := trivial
  addObject _ _ := of_scopes fun _ ↦ rfl
  modifyObject _ _ _ := of_scopes fun _ ↦ rfl
  storeBound s name v := of_run fun σ ↦ .storeBound σ.heap s name v
  resolve eng heng := by
    have hlog (line : String) : noNewNames.Keeps (Action.log line) := of_scopes fun _ ↦ rfl
    refine basics.keeps_resolve hlog (fun _ _ ↦ of_scopes fun _ ↦ rfl) fun o k ↦ ?_
    refine of_run fun σ ↦ ?_
    have hinner := HoldsNoNames.narrows (heng.get o k (.object o)) σ.beside
    have hbuild : σ.heap.ScopesNarrow σ.beside.heap := .build _ _
    have hreport := HoldsNoNames.narrows (basics.keeps_report hlog
      ((eng.get o k (.object o)).run σ.beside).2.heap ((eng.get o k (.object o)).run σ.beside).1)
      (σ.resume ((eng.get o k (.object o)).run σ.beside).2)
    rw [Lazy.run_readApart]
    exact (hbuild.trans hinner).trans hreport

/-! ## Scopes -/

theorem holds_addScope {m : Action ScopeRef} (data : State → Scope)
    (hrun : ∀ σ, m.run σ =
      (.ok (σ.heap.addScope (data σ)).1, { σ with heap := (σ.heap.addScope (data σ)).2 }))
    (hdata : ∀ σ, ∃ b this, (data σ).record = .declarative b this) :
    HoldsNoNames ∅ m fun s ↦ {.holder s} := by
  intro σ _
  rw [hrun]
  refine ⟨.addScope _ _, fun s hs t ht ↦ ?_⟩
  cases hs
  cases ht
  refine ⟨by simp [Heap.addScope], ?_⟩
  rw [Heap.scope_addScope_self]
  exact hdata σ

/-- A change of the variables that declares none. -/
theorem narrows_update {s : ScopeRef} {b : Bindings} {σ : State}
    (hb : (σ.heap.scope s).record.bindings? = some b)
    {f : Bindings → Except BindingError Bindings}
    (hf : ∀ b', f b = .ok b' → ∀ name, b'.contains name = true → b.contains name = true) :
    σ.heap.ScopesNarrow ((Scope.update s b f).run σ).2.heap := by
  unfold Scope.update
  split
  next b' hb' => exact .modifyScope (ScopeRecord.narrows_withBindings hb (hf b' hb'))
  next e _ => cases e <;> exact .of_scopes rfl

/-- In a local scope any variable may be declared. -/
theorem narrows_update_local {s : ScopeRef} {b : Bindings} {this : Option Value} {σ : State}
    (hrecord : (σ.heap.scope s).record = .declarative b this)
    (f : Bindings → Except BindingError Bindings) :
    σ.heap.ScopesNarrow ((Scope.update s b f).run σ).2.heap := by
  unfold Scope.update
  split
  next b' _ =>
    refine .modifyScope ?_
    rw [hrecord]
    exact .declarative b b' this
  next e _ => cases e <;> exact .of_scopes rfl

theorem narrows_deleteBinding {s : ScopeRef} {b : Bindings} {σ : State}
    (hb : (σ.heap.scope s).record.bindings? = some b) (name : String) :
    σ.heap.ScopesNarrow ((Scope.deleteBinding s b name).run σ).2.heap :=
  .modifyScope (ScopeRecord.narrows_withBindings hb fun _ ↦ Bindings.contains_of_delete)

theorem narrows_modifyVarNames {f : List String → List String} (hf : ∀ names, f names ⊆ names)
    (s : ScopeRef) (σ : State) :
    σ.heap.ScopesNarrow ((Scope.modifyVarNames s f).run σ).2.heap := by
  refine .modifyScope ?_
  split
  next o b names hrecord =>
    rw [hrecord]
    exact .global o (fun _ ↦ id) (hf names)
  next => exact ScopeRecord.narrows_refl _

theorem holds_delete (s : ScopeRef) (name : String)
    (hobject : ∀ o, noNewNames.Keeps (Object.delete o (Scope.keyOf name))) :
    noNewNames.Keeps (Scope.delete s name) := by
  have hnames : noNewNames.Keeps (Scope.modifyVarNames s (·.filter (· ≠ name))) :=
    of_run (narrows_modifyVarNames (fun _ ↦ List.filter_sublist.subset) s)
  have hproperty (o : ObjectRef) : noNewNames.Keeps (do
      if ((← Action.heap).object o).hasOwn (Scope.keyOf name) then
        let deleted ← Object.delete o (Scope.keyOf name)
        if deleted then Scope.modifyVarNames s (·.filter (· ≠ name))
        return deleted
      else return true) := by
    refine basics.keeps_heap.bind fun h ↦ Policy.keeps_ite ?_ (Policy.keeps_pure _)
    refine (hobject o).bind fun deleted ↦ ?_
    dsimp only
    exact Policy.keeps_ite (hnames.bind fun _ ↦ Policy.keeps_pure _) (Policy.keeps_pure _)
  refine of_run fun σ ↦ ?_
  rw [Scope.delete, Action.run_bind, Action.run_scope]
  dsimp only
  split
  next hrecord => exact narrows_deleteBinding (by rw [hrecord]; rfl) name
  next => exact HoldsNoNames.narrows (hobject _) σ
  next o b _ hrecord =>
    split
    · exact narrows_deleteBinding (by rw [hrecord]; rfl) name
    · exact HoldsNoNames.narrows (hproperty o) σ

theorem scopes : noNewNames.Scopes where
  newBlockScope outer :=
    holds_addScope (fun σ ↦ ⟨.declarative .empty none, some outer, (σ.heap.scope outer).isStrict⟩)
      (fun _ ↦ rfl) fun _ ↦ ⟨_, _, rfl⟩
  newFunctionScope outer this strict :=
    holds_addScope (fun _ ↦ ⟨.declarative .empty this, some outer, strict⟩) (fun _ ↦ rfl)
      fun _ ↦ ⟨_, _, rfl⟩
  newObjectScope _ _ _ := of_run fun σ ↦ .addScope σ.heap _
  createMutable eng s name _ := by
    refine fun σ hΓ ↦ ⟨?_, fun _ _ _ h ↦ nomatch h⟩
    obtain ⟨-, b, this, hrecord⟩ := hΓ s rfl
    rw [Scope.createMutable, Action.run_bind, Action.run_scope]
    dsimp only
    rw [hrecord]
    exact narrows_update_local hrecord _
  createImmutable s name strict := by
    refine fun σ hΓ ↦ ⟨?_, fun _ _ _ h ↦ nomatch h⟩
    obtain ⟨-, b, this, hrecord⟩ := hΓ s rfl
    rw [Scope.createImmutable, Action.run_bind, Action.run_scope]
    dsimp only
    rw [hrecord]
    exact narrows_update_local hrecord _
  initialise eng s name v hobject := by
    refine noNewNames.mono (Set.empty_subset _) (fun _ ↦ subset_rfl) (of_run fun σ ↦ ?_)
    have hinitialise {b : Bindings} (hb : (σ.heap.scope s).record.bindings? = some b) :
        σ.heap.ScopesNarrow ((Scope.update s b (·.initialise name v)).run σ).2.heap :=
      narrows_update hb fun b' hb' other hother ↦
        (Bindings.contains_initialise hb').symm.trans hother
    rw [Scope.initialise, Action.run_bind, Action.run_scope]
    dsimp only
    split
    next hrecord => exact hinitialise (by rw [hrecord]; rfl)
    next => exact HoldsNoNames.narrows (hobject _) σ
    next hrecord =>
      split
      · exact hinitialise (by rw [hrecord]; rfl)
      · exact HoldsNoNames.narrows (hobject _) σ
  set eng s name v strict hobject := by
    refine of_run fun σ ↦ ?_
    rw [Scope.set, Action.run_bind, Action.run_scope]
    dsimp only
    split
    -- Sloppy code may declare the variable by this, but only in a local scope.
    next hrecord => exact narrows_update_local hrecord _
    next => exact HoldsNoNames.narrows (hobject _) σ
    next hrecord =>
      split
      next hname =>
        exact narrows_update (by rw [hrecord]; rfl) fun b' hb' other hother ↦
          (Bindings.contains_set hname hb').symm.trans hother
      next => exact HoldsNoNames.narrows (hobject _) σ
  delete := holds_delete
  modifyVarNames s f := by
    refine fun σ hΓ ↦ ⟨.modifyScope ?_, fun _ _ _ h ↦ nomatch h⟩
    obtain ⟨-, b, this, hrecord⟩ := hΓ s rfl
    split
    next hglobal =>
      rw [hrecord] at hglobal
      cases hglobal
    next => exact ScopeRecord.narrows_refl _

theorem lawful : noNewNames.Lawful := ⟨basics, lax.creation, scopes, lax.properties⟩

theorem narrows_of_run {m : Action α} (hm : noNewNames.Keeps m) {σ τ : State}
    {r : Except Failure α} (hrun : m.run σ = (r, τ)) : σ.heap.ScopesNarrow τ.heap := by
  have hnarrows := HoldsNoNames.narrows hm σ
  rwa [hrun] at hnarrows

end noNewNames

end Ecma
