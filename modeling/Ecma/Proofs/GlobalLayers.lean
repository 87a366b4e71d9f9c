import Ecma.Proofs.GlobalDeclarations
import Ecma.Proofs.GlobalNames

/-!
# The two layers of a global scope

The lexical names of a global scope are one layer, the names that scripts have
declared by `var` or `function` the other.  The checks before the declarations
of a script keep a name from getting into both, whatever code they run.
-/

namespace Ecma

variable {α : Type}

/-! ## The two layers -/

/-- The names that scripts have declared by `var` or `function` in a global scope. -/
def ScopeRecord.varNames : ScopeRecord → List String
  | .global _ _ names => names
  | .declarative _ _ | .object _ _ => []

@[simp] theorem ScopeRecord.varNames_withBindings (r : ScopeRecord) (b : Bindings) :
    (r.withBindings b).varNames = r.varNames := by
  cases r <;> rfl

namespace Heap

theorem scope_modifyScope (h : Heap) (s t : ScopeRef) (f : Scope → Scope) :
    (h.modifyScope s f).scope t = h.scope t ∨
      t = s ∧ s.index < h.scopes.size ∧ (h.modifyScope s f).scope t = f (h.scope s) := by
  by_cases hts : t = s
  · subst hts
    by_cases hlt : t.index < h.scopes.size
    · exact .inr ⟨rfl, hlt, scope_modifyScope_self hlt f⟩
    · have hsize : ¬t.index < (h.modifyScope t f).scopes.size := by simpa [modifyScope] using hlt
      refine .inl ?_
      rw [scope, scope, Array.getD, dif_neg hsize, Array.getD, dif_neg hlt]
  · exact .inl (scope_modifyScope_of_ne h hts f)

def varNames (h : Heap) (s : ScopeRef) : List String := (h.scope s).record.varNames

/-- No name is both lexical and declared by `var` or `function`. -/
def LayersApart (h : Heap) (s : ScopeRef) : Prop :=
  ∀ name ∈ h.varNames s, h.bindingAt s name = none

/-- In the global scope the lexical names are among `L` and the others among `V`. -/
structure NamesWithin (s : ScopeRef) (o : ObjectRef) (L V : Set String) (h : Heap) : Prop where
  isGlobal : ∃ b, h.IsGlobal s o b
  lexical : ∀ name, (h.bindingAt s name).isSome → name ∈ L
  vars : ∀ name ∈ h.varNames s, name ∈ V

variable {h h' : Heap} {s : ScopeRef} {o : ObjectRef} {b : Bindings} {L V : Set String}

theorem IsGlobal.bindingAt (hs : h.IsGlobal s o b) (name : String) :
    h.bindingAt s name = b.find? name := by
  obtain ⟨-, names, hrecord⟩ := hs
  rw [Heap.bindingAt, hrecord]
  rfl

/-- A change of one scope that keeps its `var` names keeps those of all scopes. -/
theorem varNames_modifyScope (h : Heap) (s t : ScopeRef) {f : Scope → Scope}
    (hf : (f (h.scope s)).record.varNames = (h.scope s).record.varNames) :
    (h.modifyScope s f).varNames t = h.varNames t := by
  rcases scope_modifyScope h s t f with hsame | ⟨rfl, -, hchanged⟩
  · rw [varNames, hsame, varNames]
  · rw [varNames, hchanged, hf, varNames]

@[simp] theorem varNames_withVariables (h : Heap) (s t : ScopeRef) (b : Bindings) :
    (h.withVariables s b).varNames t = h.varNames t := by
  refine varNames_modifyScope h s t ?_
  rw [ScopeRecord.varNames_withBindings]

/-- The heap in which the `var` names of a global scope are others. -/
def withVarNames (h : Heap) (s : ScopeRef) (f : List String → List String) : Heap :=
  h.modifyScope s fun scope ↦
    match scope.record with
    | .global o b names => { scope with record := .global o b (f names) }
    | _ => scope

theorem IsGlobal.withVarNames (hs : h.IsGlobal s o b) (f : List String → List String) :
    (h.withVarNames s f).IsGlobal s o b ∧ (h.withVarNames s f).varNames s = f (h.varNames s) := by
  obtain ⟨hlt, names, hrecord⟩ := hs
  have hrecord' : ((h.withVarNames s f).scope s).record = .global o b (f names) := by
    rw [Heap.withVarNames, scope_modifyScope_self hlt, hrecord]
  refine ⟨⟨by simpa [Heap.withVarNames, modifyScope] using hlt, f names, hrecord'⟩, ?_⟩
  rw [varNames, hrecord', varNames, hrecord]
  rfl

theorem NamesWithin.layersApart (hh : h.NamesWithin s o L V) (hLV : ∀ name ∈ L, name ∉ V) :
    h.LayersApart s := by
  intro name hname
  refine Option.not_isSome_iff_eq_none.1 fun hlexical ↦ ?_
  exact hLV name (hh.lexical name hlexical) (hh.vars name hname)

/-- A scope that loses names stays global, with what is left. -/
theorem IsGlobal.narrows (hs : h.IsGlobal s o b) (hn : h.ScopesNarrow h') :
    (∃ b', h'.IsGlobal s o b') ∧
      (∀ name, (h'.bindingAt s name).isSome → (h.bindingAt s name).isSome) ∧
      h'.varNames s ⊆ h.varNames s := by
  obtain ⟨hlt, names, hrecord⟩ := id hs
  have hnarrows := hn.record s hlt
  rw [hrecord] at hnarrows
  generalize hrecord' : (h'.scope s).record = r' at hnarrows
  cases hnarrows with
  | «global» _ hlexical hvars =>
      have hs' : h'.IsGlobal s o _ := ⟨Nat.lt_of_lt_of_le hlt hn.size_le, _, hrecord'⟩
      refine ⟨⟨_, hs'⟩, fun name hname ↦ ?_, ?_⟩
      · rw [hs'.bindingAt] at hname
        rw [hs.bindingAt]
        exact hlexical name hname
      · rw [varNames, varNames, hrecord, hrecord']
        exact hvars

theorem NamesWithin.narrows (hh : h.NamesWithin s o L V) (hn : h.ScopesNarrow h') :
    h'.NamesWithin s o L V := by
  obtain ⟨b, hs⟩ := hh.isGlobal
  obtain ⟨hs', hlexical, hvars⟩ := hs.narrows hn
  exact ⟨hs', fun name hname ↦ hh.lexical name (hlexical name hname),
    fun name hname ↦ hh.vars name (hvars hname)⟩

theorem LayersApart.narrows (hh : h.LayersApart s) (hs : h.IsGlobal s o b)
    (hn : h.ScopesNarrow h') : h'.LayersApart s := by
  obtain ⟨-, hlexical, hvars⟩ := hs.narrows hn
  intro name hname
  refine Option.not_isSome_iff_eq_none.1 fun hsome ↦ ?_
  have hnone := hh name (hvars hname)
  exact Option.not_isSome_iff_eq_none.2 hnone (hlexical name hsome)

end Heap

theorem Scope.mem_addVarName {name other : String} {names : List String} :
    other ∈ Scope.addVarName name names ↔ other = name ∨ other ∈ names := by
  unfold Scope.addVarName
  split
  next hmem =>
    refine ⟨.inr, fun h ↦ h.elim (fun heq ↦ ?_) id⟩
    exact heq ▸ List.contains_iff_mem.1 hmem
  next => exact List.mem_cons

/-! ## What the checks rule out -/

namespace Script

variable {n : Nat} {eng : Engine} {d : Declarations} {s : ScopeRef} {o : ObjectRef} {b : Bindings}
  {σ τ : State}

theorem run_declaresVar (hs : σ.heap.IsGlobal s o b) (name : String) :
    (declaresVar s name).run σ = (.ok ((σ.heap.varNames s).contains name), σ) := by
  obtain ⟨-, names, hrecord⟩ := hs
  rw [declaresVar, Action.run_bind, Action.run_scope, Heap.varNames]
  dsimp only
  rw [hrecord]
  rfl

theorem not_mem_of_run_clashes {name : String} (hs : σ.heap.IsGlobal s o b)
    (hrun : (clashes eng d s o name).run σ = (.ok false, τ)) :
    name ∉ d.varNames ++ d.functionNames ∧ name ∉ σ.heap.varNames s := by
  unfold clashes at hrun
  split at hrun
  · cases hrun
  next hdeclared =>
    obtain ⟨isVar, σ₁, hvar, hrest⟩ := Action.run_bind_eq_ok hrun
    rw [run_declaresVar hs] at hvar
    cases hvar
    split at hrest
    · cases hrest
    next hvar =>
      refine ⟨fun hmem ↦ hdeclared ?_, fun hmem ↦ hvar (List.contains_iff_mem.2 hmem)⟩
      simpa using hmem

theorem not_mem_of_run_checkLexical {ls : List LexicalName} (hs : σ.heap.IsGlobal s o b)
    (hrun : (checkLexical (.level n) d s o ls).run σ = (.ok (), τ)) :
    ∀ l ∈ ls, l.name ∉ d.varNames ++ d.functionNames ∧ l.name ∉ τ.heap.varNames s := by
  have hG := noNewNames.lawful.governs_level n
  induction ls generalizing σ b with
  | nil => exact nofun
  | cons l rest ih =>
      obtain ⟨clash, σ₁, hclash, hrest⟩ := Action.run_bind_eq_ok hrun
      have hfirst := noNewNames.narrows_of_run (hG.keeps_clashes d s o l.name) hclash
      obtain ⟨⟨b₁, hs₁⟩, -, -⟩ := hs.narrows hfirst
      cases clash with
      | true => exact absurd hrest (Action.run_throwNew_bind_ne_ok _ _ _ _ _)
      | false =>
          have hrun₁ : (checkLexical (.level n) d s o rest).run σ₁ = (.ok (), τ) := hrest
          have hlater := noNewNames.narrows_of_run (hG.keeps_checkLexical d s o rest) hrun₁
          intro l' hl'
          rcases List.mem_cons.1 hl' with rfl | hl'
          · obtain ⟨hdeclared, hvar⟩ := not_mem_of_run_clashes hs hclash
            exact ⟨hdeclared, fun hmem ↦ hvar ((hs.narrows (hfirst.trans hlater)).2.2 hmem)⟩
          · exact ih hs₁ hrun₁ l' hl'

theorem bindingAt_of_run_checkNames {names : List String} (hs : σ.heap.IsGlobal s o b)
    (hrun : (checkNames s names).run σ = (.ok (), τ)) :
    τ = σ ∧ ∀ name ∈ names, σ.heap.bindingAt s name = none := by
  induction names with
  | nil =>
      cases hrun
      exact ⟨rfl, nofun⟩
  | cons name rest ih =>
      obtain ⟨isLexical, σ₁, hlexical, hrest⟩ := Action.run_bind_eq_ok hrun
      rw [run_declaresLexical hs] at hlexical
      cases hlexical
      split at hrest
      · exact absurd hrest (Action.run_throwNew_bind_ne_ok _ _ _ _ _)
      next hcontains =>
        obtain ⟨hτ, hnames⟩ := ih hrest
        refine ⟨hτ, fun other hother ↦ ?_⟩
        rcases List.mem_cons.1 hother with rfl | hother
        · rw [hs.bindingAt]
          exact Option.not_isSome_iff_eq_none.1 hcontains
        · exact hnames other hother

/-- After the checks, the names of the script can be added to both layers without
bringing any name into both. -/
theorem exists_namesWithin_of_run_check (hs : σ.heap.IsGlobal s o b)
    (hapart : σ.heap.LayersApart s) (hrun : (check (.level n) d s o).run σ = (.ok (), τ)) :
    ∃ L V : Set String, (∀ name ∈ L, name ∉ V) ∧ τ.heap.NamesWithin s o L V ∧
      (∀ l ∈ d.lexical, l.name ∈ L) ∧ ∀ name ∈ d.varNames ++ d.functionNames, name ∈ V := by
  have hG := noNewNames.lawful.governs_level n
  obtain ⟨⟨⟩, σ₁, hlexical, hrun⟩ := Action.run_bind_eq_ok hrun
  obtain ⟨⟨⟩, σ₂, hnames, hrest⟩ := Action.run_bind_eq_ok hrun
  have hfirst := noNewNames.narrows_of_run (hG.keeps_checkLexical d s o d.lexical) hlexical
  obtain ⟨⟨b₁, hs₁⟩, -, -⟩ := hs.narrows hfirst
  have hrestLexical := not_mem_of_run_checkLexical hs hlexical
  obtain ⟨rfl, hnames⟩ := bindingAt_of_run_checkNames hs₁ hnames
  -- What runs after these two checks may only take names away.
  have hlater := noNewNames.narrows_of_run
    ((hG.keeps_checkFunctions o _).bind fun _ ↦ hG.keeps_checkVars o _) hrest
  obtain ⟨hsτ, hbindings, hvars⟩ := hs₁.narrows hlater
  have hapart₂ := hapart.narrows hs hfirst
  refine ⟨{name | (τ.heap.bindingAt s name).isSome ∨ ∃ l ∈ d.lexical, l.name = name},
    {name | name ∈ τ.heap.varNames s ∨ name ∈ d.varNames ++ d.functionNames}, ?_,
    ⟨hsτ, fun _ ↦ .inl, fun _ ↦ .inl⟩, fun l hl ↦ .inr ⟨l, hl, rfl⟩, fun _ ↦ .inr⟩
  rintro name (hbound | ⟨l, hl, rfl⟩) (hvar | hdeclared)
  · have hnone := hapart₂ name (hvars hvar)
    exact Option.not_isSome_iff_eq_none.2 hnone (hbindings name hbound)
  · exact Option.not_isSome_iff_eq_none.2 (hnames name hdeclared) (hbindings name hbound)
  · exact (hrestLexical l hl).2 (hvars hvar)
  · exact (hrestLexical l hl).1 hdeclared

end Script

/-! ## Declaring names -/

/-- The names in the two layers stay among the given ones. -/
def namesWithin (s : ScopeRef) (o : ObjectRef) (L V : Set String) : Discipline where
  Fails _ := True
  Patches _ := True
  Good σ := σ.heap.NamesWithin s o L V
  Step _ _ := True
  refl _ := trivial
  trans _ _ := trivial
  fails _ _ := trivial
  patches _ _ := trivial

namespace namesWithin

open Discipline

variable {s : ScopeRef} {o : ObjectRef} {L V : Set String} {n : Nat}

theorem keeps_of_narrows {m : Action α} (hm : noNewNames.Keeps m) :
    (namesWithin s o L V).Keeps m :=
  fun σ hσ ↦ ⟨Heap.NamesWithin.narrows hσ (HoldsNoNames.narrows hm σ), trivial, fun _ _ ↦ trivial⟩

theorem keeps_modifyVarNames {name : String} (hname : name ∈ V) :
    (namesWithin s o L V).Keeps (Scope.modifyVarNames s (Scope.addVarName name)) := by
  refine fun σ hσ ↦ ⟨?_, trivial, fun _ _ ↦ trivial⟩
  obtain ⟨b, hs⟩ := hσ.isGlobal
  obtain ⟨hs', hvars⟩ := hs.withVarNames (Scope.addVarName name)
  refine ⟨⟨b, hs'⟩, fun other hother ↦ hσ.lexical other ?_, fun other hother ↦ ?_⟩
  · rw [hs.bindingAt, ← hs'.bindingAt]
    exact hother
  · have hmem : other ∈ Scope.addVarName name (σ.heap.varNames s) := hvars ▸ hother
    rcases Scope.mem_addVarName.1 hmem with rfl | hmem
    · exact hname
    · exact hσ.vars other hmem

theorem namesWithin_update {name : String} (hname : name ∈ L) (x : Binding) {σ : State}
    {b : Bindings} (hs : σ.heap.IsGlobal s o b) (hσ : σ.heap.NamesWithin s o L V) :
    ((Scope.update s b (·.create name x)).run σ).2.heap.NamesWithin s o L V := by
  unfold Scope.update
  split
  next b' hb' =>
    obtain ⟨-, rfl⟩ := Bindings.create_eq_ok hb'
    have hs' := hs.withVariables (b.insert name x)
    refine ⟨⟨_, hs'⟩, fun other hother ↦ ?_, fun other hother ↦ hσ.vars other ?_⟩
    · by_cases hne : other = name
      · exact hne ▸ hname
      · refine hσ.lexical other ?_
        have hfind : ((b.insert name x).find? other).isSome := hs'.bindingAt other ▸ hother
        rw [hs.bindingAt]
        rwa [b.find?_insert_of_ne hne] at hfind
    · rw [← σ.heap.varNames_withVariables s s (b.insert name x)]
      exact hother
  next e _ => cases e <;> exact hσ.narrows (.of_scopes rfl)

theorem keeps_createLexical {ls : List LexicalName} (hls : ∀ l ∈ ls, l.name ∈ L) (eng : Engine) :
    (namesWithin s o L V).Keeps (Function.createLexical eng s ls) := by
  induction ls with
  | nil => exact keeps_pure ()
  | cons l rest ih =>
      intro σ hσ
      obtain ⟨b, hs⟩ := hσ.isGlobal
      have hfirst := namesWithin_update (hls l List.mem_cons_self) l.binding hs hσ
      rw [Script.run_createLexical_cons eng hs, Action.run_bind]
      rcases hrun : (Scope.update s b (·.create l.name l.binding)).run σ with ⟨e | ⟨⟩, σ₁⟩
      · rw [hrun] at hfirst
        exact ⟨hfirst, trivial, fun _ _ ↦ trivial⟩
      · rw [hrun] at hfirst
        have hrest := ih (fun l hl ↦ hls l (List.mem_cons_of_mem _ hl)) σ₁ hfirst
        exact ⟨hrest.good, trivial, fun _ _ ↦ trivial⟩

theorem keeps_createGlobalFunction {name : String} (hname : name ∈ V) (v : Value) :
    (namesWithin s o L V).Keeps (Scope.createGlobalFunction (.level n) s o name v false) := by
  have hG := noNewNames.lawful.governs_level n
  refine (keeps_of_narrows (hG.keeps_getOwn o _)).bind fun found ↦ ?_
  refine Keeps.bind (keeps_of_narrows (hG.keeps_defineOrThrow o _ ?_)) fun _ ↦ ?_
  · split
    · split <;> trivial
    · trivial
  · exact (keeps_of_narrows (hG.keeps_set o _ v _).discard).bind fun _ ↦ keeps_modifyVarNames hname

theorem keeps_createFunctions {fs : List FunctionNode}
    (hfs : ∀ f ∈ fs, ∀ name, f.name? = some name → name ∈ V) :
    (namesWithin s o L V).Keeps (Script.createFunctions (.level n) s o fs) := by
  have hG := noNewNames.lawful.governs_level n
  induction fs with
  | nil => exact keeps_pure ()
  | cons f rest ih =>
      have ih := ih fun f hf ↦ hfs f (List.mem_cons_of_mem _ hf)
      unfold Script.createFunctions
      split
      next => exact ih
      next name hname =>
        refine (keeps_of_narrows (hG.creation.instantiate False.elim s none)).bind fun closure ↦ ?_
        exact (keeps_createGlobalFunction (hfs f List.mem_cons_self name hname) closure).bind
          fun _ ↦ ih

theorem keeps_createVars {names : List String} (hnames : ∀ name ∈ names, name ∈ V) :
    (namesWithin s o L V).Keeps (Script.createVars (.level n) s o names) := by
  have hG := noNewNames.lawful.governs_level n
  induction names with
  | nil => exact keeps_pure ()
  | cons name rest ih =>
      refine Keeps.bind ?_ fun _ ↦ ih fun name hname ↦ hnames name (List.mem_cons_of_mem _ hname)
      have hvar : (namesWithin s o L V).Keeps (Scope.modifyVarNames s (Scope.addVarName name)) :=
        keeps_modifyVarNames (hnames name List.mem_cons_self)
      refine (keeps_of_narrows (hG.basics.keeps_object o)).bind fun data ↦ ?_
      dsimp only
      refine keeps_ite ?_ hvar
      refine (keeps_of_narrows (hG.keeps_objectCreate o name false)).bind fun _ ↦ ?_
      exact (keeps_of_narrows (hG.keeps_objectSet o name _ _)).bind fun _ ↦ hvar

end namesWithin

/-- However the declarations of a script end, no name is in both layers. -/
theorem Script.layersApart_declare (n : Nat) (d : Declarations) {s : ScopeRef} {o : ObjectRef}
    {b : Bindings} {σ : State} (hs : σ.heap.IsGlobal s o b) (hapart : σ.heap.LayersApart s) :
    ((Script.declare (.level n) d s).run σ).2.heap.LayersApart s := by
  have hcheck := (noNewNames.lawful.governs_level n).keeps_check d s o
  rw [Script.declare, Action.run_bind, run_globalObject hs]
  dsimp only
  rw [Action.run_bind]
  rcases hrun : (check (.level n) d s o).run σ with ⟨e | ⟨⟩, τ⟩
  · exact hapart.narrows hs (noNewNames.narrows_of_run hcheck hrun)
  · obtain ⟨L, V, hLV, hτ, hlexical, hvars⟩ := exists_namesWithin_of_run_check hs hapart hrun
    have hfunctions : ∀ f ∈ d.functions, ∀ name, f.name? = some name → name ∈ V :=
      fun f hf name hname ↦
        hvars name (List.mem_append_right _ (List.mem_filterMap.2 ⟨f, hf, hname⟩))
    have hpure : ∀ name ∈ pureVars d, name ∈ V :=
      fun name hname ↦ hvars name (List.mem_append_left _ (List.mem_filter.1 hname).1)
    have hcreate : (namesWithin s o L V).Keeps (do
        Function.createLexical (.level n) s d.lexical
        createFunctions (.level n) s o d.functions
        createVars (.level n) s o (pureVars d)) :=
      (namesWithin.keeps_createLexical hlexical _).bind fun _ ↦
        (namesWithin.keeps_createFunctions hfunctions).bind fun _ ↦
          namesWithin.keeps_createVars hpure
    exact (hcreate τ hτ).good.layersApart hLV

end Ecma
