import Ecma.Proofs.DeclarationRuns
import Ecma.Proofs.DeclaredNames

/-!
# What the declarations of a script bring about

However the declarations of a script end, no name is in both layers of the
global scope.  Once they have succeeded, the lexical names of the script are
variables of the scope without a value, and its other names are properties of
the global object.  A property that was there under a `var` name keeps its
value, and each function is found under its name.

Two things are left to the host.  It may bind a property to a variable, to which
a function of that name then goes; and its lazy properties may run code when the
checks read them, which may spoil what has been checked before.
-/

namespace Ecma

open Scope (keyOf)

/-! ## Reading properties -/

namespace Heap

/-- What reading an own property gives if resolvers run no code: a lazy one has the
value of its cell, and a bound one that of its variable. -/
def reading (h : Heap) (o : ObjectRef) (k : PropertyKey) : Except Failure (Option Descriptor) :=
  match h.own? o k with
  | none => .ok none
  | some ⟨a, .lazy c⟩ =>
    match (h.cell c).value? with
    | some v => .ok (some ⟨a, .data (some v)⟩)
    | none => .error (.fault (.lazyReentrancy k.display))
  | some d => .ok (some (d.shownIn h))

variable {h h' : Heap} {o : ObjectRef} {k : PropertyKey}

theorem reading_of_lazy {a : Attributes} {c : CellRef} {v : Value}
    (hown : h.own? o k = some ⟨a, .lazy c⟩) (hv : (h.cell c).value? = some v) :
    h.reading o k = .ok (some ⟨a, .data (some v)⟩) := by
  rw [reading, hown]
  dsimp only
  rw [hv]

theorem boundValue_eq (h : Heap) (t : ScopeRef) (x : String) :
    h.boundValue t x = ((h.bindingAt t x).bind Binding.value).getD .undefined := by
  rw [boundValue, bindingAt, Option.bind_assoc]
  rfl

theorem reading_congr (hown : h'.own? o k = h.own? o k)
    (hcells : ∀ c, (h'.cell c).value? = (h.cell c).value?)
    (hvalues : ∀ t x, h.boundTo? o k = some (t, x) → h'.boundValue t x = h.boundValue t x) :
    h'.reading o k = h.reading o k := by
  rw [reading, reading, hown]
  cases hd : h.own? o k with
  | none => rfl
  | some d =>
      obtain ⟨a, form⟩ := d
      cases form with
      | lazy c => simp only [hcells]
      | bound t x =>
          have hbound := boundTo?_of_own? hd
          simp only [Descriptor.shownIn, hvalues t x hbound]
      | _ => rfl

theorem Memoises.reading (hm : h.Memoises h') (ho : o.index < h.objects.size) :
    h'.reading o k = h.reading o k := by
  rcases hm.own o ho k with hsame | ⟨a, c, v, hlazy, hc, hplain⟩
  · exact reading_congr hsame hm.values fun t x _ ↦ hm.boundValue t x
  · have hv : (h.cell c).value? = some v := by
      rw [← hm.values c, hc]
      rfl
    rw [reading_of_lazy hlazy hv, Heap.reading, hplain]
    rfl

theorem Memoises.boundTo? (hm : h.Memoises h') (ho : o.index < h.objects.size) :
    h'.boundTo? o k = h.boundTo? o k := by
  rcases hm.own o ho k with hsame | ⟨a, c, v, hlazy, -, hplain⟩
  · rw [Heap.boundTo?, Object.boundTo?, ← own?, hsame]
    rfl
  · rw [boundTo?_of_own? hplain, boundTo?_of_own? hlazy]
    rfl

end Heap

/-- A name that is not lexical is read from the global object. -/
theorem Scope.run_get_property {s : ScopeRef} {o : ObjectRef} {b : Bindings} {name : String}
    {a : Attributes} {v : Value} {σ : State} (hs : σ.heap.IsGlobal s o b)
    (hname : σ.heap.bindingAt s name = none) (ho : o.index < σ.heap.objects.size)
    (hown : σ.heap.own? o (keyOf name) = some ⟨a, .data (some v)⟩) (n : Nat) (strict : Bool) :
    (Scope.get (.level (n + 1)) s name strict).run σ = (.ok v, σ) := by
  have hdata (c : CellRef) : PropertyForm.data (some v) ≠ .lazy c := by
    intro h
    cases h
  have habsent : b.contains name = false := by
    rw [Bindings.contains, ← hs.bindingAt, hname]
    rfl
  have hhas : σ.heap.hasProperty o (keyOf name) = true := by
    have hchain : σ.heap.chain (some o) =
        o :: σ.heap.chainFrom (σ.heap.objects.size - 1) (σ.heap.object o).prototype := by
      rw [Heap.chain, ← Nat.succ_pred_eq_of_pos (Nat.zero_lt_of_lt ho)]
      rfl
    have hfirst : (σ.heap.object o).hasOwn (keyOf name) = true :=
      Option.isSome_iff_exists.2 ⟨_, hown⟩
    rw [Heap.hasProperty, hchain, List.any_cons, hfirst, Bool.true_or]
  obtain ⟨-, names, hrecord⟩ := hs
  rw [Scope.get, Action.run_bind, Action.run_scope]
  dsimp only
  rw [hrecord]
  dsimp only
  rw [habsent, if_neg Bool.false_ne_true, Scope.objectGet, Action.run_bind, Action.run_heap]
  dsimp only
  rw [if_pos hhas, Object.get, Action.run_bind, Object.run_find_shown _ hown hdata,
    Engine.fuel_level, if_neg (Nat.succ_ne_zero n)]
  rfl

/-! ## Declarations that have succeeded -/

namespace Script

/-- What holds once the declarations of a script have succeeded. -/
structure Establishes (body : List Statement) (s : ScopeRef) (o : ObjectRef) (σ τ : State) :
    Prop where
  /-- A lexical name has no value, unless it is the variable of a function's property. -/
  lexical : ∀ l ∈ Tree.lexicalNames body,
    (∀ f ∈ Tree.functionNames body, σ.heap.boundTo? o (keyOf f) ≠ some (s, l.name)) →
    ∃ x, τ.heap.bindingAt s l.name = some x ∧ x.value = none
  /-- Each other name counts as declared and is a property of the global object. -/
  vars : ∀ name ∈ Tree.varNames body ++ Tree.functionNames body, τ.heap.HasVar s o name
  /-- A property that is there under a `var` name reads as before, unless it shares its
  variable with the property of a function. -/
  kept : ∀ name ∈ Tree.varNames body, name ∉ Tree.functionNames body →
    (σ.heap.own? o (keyOf name)).isSome →
    (∀ x, σ.heap.boundTo? o (keyOf name) = some x →
      ∀ f ∈ Tree.functionNames body, σ.heap.boundTo? o (keyOf f) ≠ some x) →
    τ.heap.reading o (keyOf name) = σ.heap.reading o (keyOf name)
  /-- A function's name reads as the closure of the last function that has it, unless
  its property is bound. -/
  functions : ∀ name ∈ Tree.functionNames body, σ.heap.boundTo? o (keyOf name) = none →
    ∃ f c strict, Tree.lastFunction? body name = some f ∧
      (τ.heap.object c).callable = some (.closure f s strict) ∧
      ∀ n strict, (Scope.get (.level (n + 1)) s name strict).run τ = (.ok (.object c), τ)

variable {eng : Engine} {n : Nat} {s : ScopeRef} {o : ObjectRef} {b : Bindings} {σ τ : State}

/-- What has passed the checks can be declared. -/
theorem declare_of_check {d : Declarations} (hs : σ.heap.IsGlobal s o b) (hσ : σ.heap.IsStored)
    (ho : o.index < σ.heap.objects.size)
    (hcalls : Engine.CallsNothing (n + 1) (check · d s o) σ)
    (hcoherent : σ.heap.IsCoherentOn o d.functionNames)
    (hdistinct : (d.lexical.map LexicalName.name).Nodup)
    (hcheck : ((check (.level (n + 1)) d s o).run σ).1 = .ok ()) :
    ((declare (.level (n + 1)) d s).run σ).1 = .ok () := by
  rcases hrun : (check (.level (n + 1)) d s o).run σ with ⟨e | ⟨⟩, τ⟩
  · rw [hrun] at hcheck
    cases hcheck
  · have hready := ready_of_run_check hσ ho hcoherent hs (hcalls.trans hrun)
    rw [declare, Action.run_bind, run_globalObject hs]
    dsimp only
    rw [Action.run_bind, hrun]
    rcases leads_create (.level (n + 1)) d hdistinct τ hready with ⟨⟨⟩, σ', hok, -⟩ | ⟨hzero, -⟩
    · exact congrArg Prod.fst hok
    · exact absurd hzero (Nat.succ_ne_zero n)

theorem allowsVars_of_run_check {d : Declarations}
    (hrun : (check eng d s o).run σ = (.ok (), τ)) :
    ∀ name ∈ pureVars d, (τ.heap.own? o (keyOf name)).isSome ∨
      (τ.heap.object o).isExtensible = true := by
  obtain ⟨⟨⟩, σ₁, -, hrun⟩ := Action.run_bind_eq_ok hrun
  obtain ⟨⟨⟩, σ₂, -, hrun⟩ := Action.run_bind_eq_ok hrun
  obtain ⟨⟨⟩, σ₃, -, hrun⟩ := Action.run_bind_eq_ok hrun
  obtain ⟨rfl, hallows⟩ := of_run_checkVars hrun
  exact hallows

theorem exists_runs_of_run_declare {d : Declarations} (hs : σ.heap.IsGlobal s o b)
    (hrun : (declare eng d s).run σ = (.ok (), τ)) :
    ∃ σ₁ σ₂ σ₃, (check eng d s o).run σ = (.ok (), σ₁) ∧
      (Function.createLexical eng s d.lexical).run σ₁ = (.ok (), σ₂) ∧
      (createFunctions eng s o d.functions).run σ₂ = (.ok (), σ₃) ∧
      (createVars eng s o (pureVars d)).run σ₃ = (.ok (), τ) := by
  rw [declare, Action.run_bind, run_globalObject hs] at hrun
  obtain ⟨⟨⟩, σ₁, hcheck, hrun⟩ := Action.run_bind_eq_ok hrun
  obtain ⟨⟨⟩, σ₂, hlexical, hrun⟩ := Action.run_bind_eq_ok hrun
  obtain ⟨⟨⟩, σ₃, hfunctions, hvars⟩ := Action.run_bind_eq_ok hrun
  exact ⟨σ₁, σ₂, σ₃, hcheck, hlexical, hfunctions, hvars⟩

/-- The lexical names are there afterwards, whatever the checks and the declarations
have run. -/
theorem isSome_bindingAt_of_run_declare {n : Nat} {d : Declarations} (hs : σ.heap.IsGlobal s o b)
    (hrun : (declare (.level n) d s).run σ = (.ok (), τ)) :
    ∀ l ∈ d.lexical, (τ.heap.bindingAt s l.name).isSome := by
  obtain ⟨σ₁, σ₂, σ₃, hcheck, hlexical, hfunctions, hvars⟩ :=
    exists_runs_of_run_declare hs hrun
  obtain ⟨⟨b₁, hs₁⟩, -, -⟩ := hs.narrows (noNewNames.narrows_of_run
    ((noNewNames.lawful.governs_level n).keeps_check d s o) hcheck)
  have hgains := gainsLexical_of_run hs₁ hlexical
  have hG : (declaredNames False).Governs (.level n) := declaredNames.lawful.governs_level n
  have hlater : σ₂.heap.ScopesEvolve τ.heap :=
    (scopesEvolve_of_run (hG.holds_createGlobalFunctions s o fun _ _ ↦ False.elim)
      hfunctions).trans (scopesEvolve_of_run (hG.holds_createGlobalVars s o _) hvars)
  intro l hl
  -- Once it has been declared, the name cannot be deleted.
  obtain ⟨x, hx, -, hdelete⟩ := hgains.declared l hl
  obtain ⟨b₂, hs₂⟩ := hgains.isGlobal
  have hdeclares : σ₂.heap.Declares s l.name := by
    rw [hs₂.bindingAt] at hx
    obtain ⟨hlt, names, hrecord⟩ := hs₂
    exact ⟨hlt, b₂, by rw [hrecord]; rfl, x, hx, hdelete⟩
  obtain ⟨-, b₃, hb₃, x₃, hx₃, -⟩ := hdeclares.evolves hlater
  rw [Heap.bindingAt, hb₃, Option.bind_some, hx₃]
  rfl

/-- How the heap changes on the way: the names are checked, and then the lexical
names, the functions and the `var` names are declared. -/
structure Stages (body : List Statement) (s : ScopeRef) (o : ObjectRef) (h h₁ h₂ h₃ h' : Heap) :
    Prop where
  checked : h.Memoises h₁
  lt : o.index < h.objects.size
  lexical : h₁.GainsLexical s o (Tree.lexicalNames body) h₂
  functions : h₂.Touches s o {name | name ∈ Tree.functionNames body} h₃
  hoisted : ∀ f ∈ Tree.functions body, ∀ name, f.name? = some name → h₃.HasVar s o name ∧
    (h₂.boundTo? o (keyOf name) = none → h₃.HoldsClosure s o name f)
  vars : h₃.Touches s o {name | h₃.own? o (keyOf name) = none} h'
  declared : ∀ name ∈ Tree.varNames body, name ∉ Tree.functionNames body → h'.HasVar s o name

theorem exists_stages {body : List Statement} (hs : σ.heap.IsGlobal s o b)
    (hσ : σ.heap.IsStored) (ho : o.index < σ.heap.objects.size)
    (hcalls : Engine.CallsNothing n (check · (.analyze body) s o) σ)
    (hcoherent : σ.heap.IsCoherentOn o (Tree.functionNames body))
    (hrun : (declare (.level n) (.analyze body) s).run σ = (.ok (), τ)) :
    ∃ h₁ h₂ h₃, Stages body s o σ.heap h₁ h₂ h₃ τ.heap := by
  obtain ⟨σ₁, σ₂, σ₃, hcheck, hlexical, hfunctions, hvars⟩ := exists_runs_of_run_declare hs hrun
  have hreads := hcalls.trans hcheck
  obtain ⟨-, hchecked⟩ := (onlyReads_check n s o (.analyze body)).memoises hσ hreads nofun
  obtain ⟨hready, -⟩ := ready_of_run_check (d := .analyze body) hσ ho hcoherent hs hreads
  have hgains := gainsLexical_of_run (hs.memoises hchecked) hlexical
  obtain ⟨hready₃, hfirst, hhoisted⟩ := of_run_createFunctions (hready.of_objects hgains.objects)
    hgains.isGlobal (fun _ ↦ id) (Tree.nodup_names_keepLast _) hfunctions
  have hallows : ∀ name ∈ pureVars (.analyze body), (σ₃.heap.own? o (keyOf name)).isSome ∨
      (σ₃.heap.object o).isExtensible = true := by
    intro name hname
    rw [hfirst.extensible, hgains.object]
    refine (allowsVars_of_run_check hcheck name hname).imp_left fun hsome ↦ ?_
    exact hfirst.present name (hgains.own? o _ ▸ hsome)
  obtain ⟨hsecond, hdeclared⟩ := of_run_createVars hready₃ (hfirst.isGlobal hgains.isGlobal)
    hallows hvars
  refine ⟨_, _, _, hchecked, ho, hgains, hfirst, hhoisted, hsecond,
    fun name hname hnot ↦ hdeclared name (List.mem_filter.2 ⟨hname, ?_⟩)⟩
  have hnot : name ∉ (Declarations.analyze body).functionNames := hnot
  simpa using hnot

namespace Stages

variable {body : List Statement} {h h₁ h₂ h₃ h' : Heap} (hstages : Stages body s o h h₁ h₂ h₃ h')

include hstages

theorem boundTo? (name : String) : h₂.boundTo? o (keyOf name) = h.boundTo? o (keyOf name) := by
  rw [Heap.boundTo?, hstages.lexical.object, ← Heap.boundTo?, hstages.checked.boundTo? hstages.lt]

/-- After the lexical names, a variable changes only if the property of a function is
bound to it. -/
theorem bindingAt {t : ScopeRef} {x : String} (hx : ∀ f ∈ Tree.functionNames body,
    h.boundTo? o (keyOf f) ≠ some (t, x)) : h'.bindingAt t x = h₂.bindingAt t x := by
  refine (hstages.vars.binding t x fun name hname ↦ ?_).trans
    (hstages.functions.binding t x fun f hf ↦ ?_)
  · rw [Heap.boundTo?, Object.boundTo?, ← Heap.own?, hname]
    exact (Option.some_ne_none _).symm
  · rw [hstages.boundTo?]
    exact hx f hf

theorem hasVar {name : String} (hname : name ∈ Tree.varNames body ++ Tree.functionNames body) :
    h'.HasVar s o name := by
  by_cases hfunction : name ∈ Tree.functionNames body
  · obtain ⟨f, hf, hfname⟩ := List.mem_filterMap.1 hfunction
    exact hstages.vars.hasVar (hstages.hoisted f hf name hfname).1
  · exact hstages.declared name ((List.mem_append.1 hname).resolve_right hfunction) hfunction

/-- A property that is there under the name of no function is the same after the checks. -/
theorem own? {name : String} (hfunction : name ∉ Tree.functionNames body)
    (hown : (h.own? o (keyOf name)).isSome) : h'.own? o (keyOf name) = h₁.own? o (keyOf name) := by
  have hown₁ : (h₁.own? o (keyOf name)).isSome := by
    rcases hstages.checked.own o hstages.lt (keyOf name) with hsame | ⟨_, _, _, _, _, hplain⟩
    · rwa [hsame]
    · rw [hplain]
      rfl
  have hown₃ : h₃.own? o (keyOf name) = h₁.own? o (keyOf name) :=
    (hstages.functions.own name hfunction).trans (hstages.lexical.own? o _)
  -- A `var` touches only what is missing, and this property is there.
  refine (hstages.vars.own name fun hnone ↦ ?_).trans hown₃
  rw [← hown₃, show h₃.own? o (keyOf name) = none from hnone] at hown₁
  cases hown₁

theorem cells : h'.cells = h₁.cells :=
  hstages.vars.cells.trans (hstages.functions.cells.trans hstages.lexical.cells)

theorem reading {name : String} (hfunction : name ∉ Tree.functionNames body)
    (hown : (h.own? o (keyOf name)).isSome)
    (hbound : ∀ x, h.boundTo? o (keyOf name) = some x →
      ∀ f ∈ Tree.functionNames body, h.boundTo? o (keyOf f) ≠ some x) :
    h'.reading o (keyOf name) = h.reading o (keyOf name) := by
  rw [← hstages.checked.reading hstages.lt]
  refine Heap.reading_congr (hstages.own? hfunction hown) (fun c ↦ ?_) fun t x hx ↦ ?_
  · rw [Heap.cell, hstages.cells, Heap.cell]
  · -- No function goes to the variable, and the lexical names change no value.
    rw [hstages.checked.boundTo? hstages.lt] at hx
    rw [Heap.boundValue_eq, hstages.bindingAt (hbound (t, x) hx), hstages.lexical.values,
      Heap.boundValue_eq]

theorem holdsClosure {name : String} (hname : name ∈ Tree.functionNames body)
    (hbound : h.boundTo? o (keyOf name) = none) :
    ∃ f, Tree.lastFunction? body name = some f ∧ h'.HoldsClosure s o name f := by
  obtain ⟨f, hf, hfname⟩ := List.mem_filterMap.1 hname
  obtain ⟨⟨-, hown⟩, hclosure⟩ := hstages.hoisted f hf name hfname
  refine ⟨f, Tree.lastFunction?_of_mem hf hfname,
    hstages.vars.holdsClosure (fun hnone ↦ ?_) (hclosure ((hstages.boundTo? name).trans hbound))⟩
  rw [show h₃.own? o (keyOf name) = none from hnone] at hown
  cases hown

end Stages

theorem establishes_of_run {body : List Statement} (hs : σ.heap.IsGlobal s o b)
    (hσ : σ.heap.IsStored) (ho : o.index < σ.heap.objects.size)
    (hcalls : Engine.CallsNothing n (check · (.analyze body) s o) σ)
    (hcoherent : σ.heap.IsCoherentOn o (Tree.functionNames body))
    (hrun : (declare (.level n) (.analyze body) s).run σ = (.ok (), τ))
    (hapart : τ.heap.LayersApart s) : Establishes body s o σ τ := by
  obtain ⟨h₁, h₂, h₃, hstages⟩ := exists_stages hs hσ ho hcalls hcoherent hrun
  obtain ⟨b', hs'⟩ := hstages.vars.isGlobal (hstages.functions.isGlobal hstages.lexical.isGlobal)
  have hlt : o.index < τ.heap.objects.size := by
    have hlt₂ : o.index < h₂.objects.size :=
      hstages.lexical.objects ▸ Nat.lt_of_lt_of_le ho hstages.checked.objects_le
    exact Nat.lt_of_lt_of_le hlt₂
      (Nat.le_trans hstages.functions.objects_le hstages.vars.objects_le)
  exact {
    lexical := fun l hl hx ↦ by
      obtain ⟨x, hdeclared, hvalue, -⟩ := hstages.lexical.declared l hl
      exact ⟨x, (hstages.bindingAt hx).trans hdeclared, hvalue⟩
    vars := fun name ↦ hstages.hasVar
    kept := fun name _ ↦ hstages.reading
    functions := fun name hname hbound ↦ by
      obtain ⟨f, hlast, a, c, strict, hown, -, -, hcallable⟩ := hstages.holdsClosure hname hbound
      obtain ⟨hvar, -⟩ := hstages.hasVar (List.mem_append_right _ hname)
      exact ⟨f, c, strict, hlast, hcallable,
        Scope.run_get_property hs' (hapart name hvar) hlt hown⟩ }

end Script

/-! ## The two layers -/

theorem Failure.eq_ok_of_isOk {r : Except Failure Unit} (h : r.isOk = true) : r = .ok () :=
  match r, h with
  | .ok (), _ => rfl

theorem Failure.exists_eq_thrown {r : Except Failure Unit}
    (h : (match r with | .error e => e.isCatchable | .ok _ => false) = true) :
    ∃ v, r = .error (.thrown v) :=
  match r, h with
  | .error (.thrown v), _ => ⟨v, rfl⟩

end Ecma
