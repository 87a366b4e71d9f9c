import Ecma.Proofs.NameDeclarations

/-!
# The names of a call

A call declares the names of its function in a new scope: the parameters,
`arguments`, the `var` names, the lexical names and the functions, in loops that
meet many names more than once.  They fail for one reason only, a lexical name
that something else has taken; if there is none, each name has the value of the
last loop that is responsible for it.
-/

namespace Ecma

/-! ## What a function declares -/

namespace FunctionNode

variable (f : FunctionNode)

/-- The names that the body declares by `let`, `const` or `class`. -/
def lexicalNames : List String := (Tree.lexicalNames f.body).map LexicalName.name

/-- A lexical name is declared twice, or is taken by something else. -/
def HasClash : Prop :=
  ¬f.lexicalNames.Nodup ∨ ∃ name ∈ f.lexicalNames,
    name ∈ f.params ∨ name ∈ Tree.varNames f.body ∨ name ∈ Tree.functionNames f.body

/-- A call makes an arguments object: the function is no arrow, and the name is not
taken by a parameter, a function or a lexical name. -/
def MakesArguments : Prop :=
  f.isArrow = false ∧ Function.argumentsName ∉ f.params ∧
    Function.argumentsName ∉ Tree.functionNames f.body ∧
    Function.argumentsName ∉ f.lexicalNames

instance : Decidable f.HasClash := inferInstanceAs (Decidable (_ ∨ _))

instance : Decidable f.MakesArguments := inferInstanceAs (Decidable (_ ∧ _))

/-- The names that are there before the `var` names are. -/
def earlyNames : List String :=
  if Function.needsArguments f (.analyze f.body) then Function.argumentsName :: f.params
  else f.params

theorem needsArguments_iff :
    Function.needsArguments f (.analyze f.body) = true ↔ f.MakesArguments := by
  simp [Function.needsArguments, MakesArguments, lexicalNames, Declarations.analyze,
    Declarations.functionNames, Tree.functionNames, and_assoc]

theorem mem_earlyNames {name : String} :
    name ∈ f.earlyNames ↔ name ∈ f.params ∨ name = Function.argumentsName ∧ f.MakesArguments := by
  rw [← needsArguments_iff, earlyNames]
  split
  next h => simp [h, or_comm]
  next h => simp [h]

end FunctionNode

/-! ## The two halves -/

namespace Function

open Ecma.Action

variable (eng : Engine) (callee : ObjectRef) (f : FunctionNode) (s : ScopeRef)

/-- `arguments`, if there is to be one. -/
def declareArguments (strict : Bool) (args : List Value) : Action Unit :=
  if needsArguments f (.analyze f.body) then createArguments eng callee f s strict args else pure ()

/-- The parameters, `arguments` and the `var` names. -/
def declareEarly (strict : Bool) (args : List Value) : Action Unit := do
  createAll eng s (fresh [] f.params)
  declareArguments eng callee f s strict args
  bindParams eng s strict [] f.params args
  createVars eng s (fresh f.earlyNames (Tree.varNames f.body))

/-- The lexical names and the functions. -/
def declareLate : Action Unit := do
  createLexical eng s (Tree.lexicalNames f.body)
  createFunctions eng s (Tree.varNames f.body ++ f.earlyNames) (Tree.functions f.body)

theorem declare_eq (args : List Value) :
    declare eng callee f s args = (do
      let scope ← Action.scope s
      declareEarly eng callee f s scope.isStrict args
      declareLate eng f s) := by
  unfold declare declareEarly declareArguments declareLate FunctionNode.earlyNames
  dsimp only
  split
  · simp only [bind_assoc]
    rfl
  · simp only [bind_assoc, pure_bind]
    rfl

end Function

/-- The variables of a call before its lexical names: `size` objects were there when
it began. -/
structure FunctionNode.HasEarly (f : FunctionNode) (args : List Value) (size : Nat)
    (b : Bindings) : Prop where
  isVariable : ∀ name ∈ f.params, b.IsVariable name
  param : ∀ i name, f.params[i]? = some name → name ∉ f.params.drop (i + 1) →
    b.value? name = some (args.getD i .undefined)
  arguments : f.MakesArguments →
    ∃ o : ObjectRef, size ≤ o.index ∧ b.value? Function.argumentsName = some (.object o)
  var : ∀ name ∈ Tree.varNames f.body, name ∉ f.earlyNames →
    b.find? name = some ⟨some .undefined, false, true, false⟩
  absent : ∀ name, name ∉ f.earlyNames → name ∉ Tree.varNames f.body → b.find? name = none

theorem FunctionNode.HasEarly.contains_iff {f : FunctionNode} {args : List Value} {size : Nat}
    {b : Bindings} (hb : f.HasEarly args size b) {name : String} :
    b.contains name = true ↔ name ∈ f.earlyNames ∨ name ∈ Tree.varNames f.body := by
  constructor
  · intro hname
    by_contra hnone
    rw [not_or] at hnone
    simp [Bindings.contains, hb.absent name hnone.1 hnone.2] at hname
  · intro hname
    by_cases hearly : name ∈ f.earlyNames
    · rcases f.mem_earlyNames.1 hearly with hparam | ⟨rfl, harguments⟩
      · obtain ⟨x, hx, -⟩ := hb.isVariable name hparam
        exact Bindings.contains_of_find? hx
      · obtain ⟨o, -, hvalue⟩ := hb.arguments harguments
        obtain ⟨x, hx, -⟩ := Option.bind_eq_some_iff.1 hvalue
        exact Bindings.contains_of_find? hx
    · exact Bindings.contains_of_find? (hb.var name (hname.resolve_left hearly) hearly)

namespace Function

open Ecma.Action

variable (eng : Engine) (callee : ObjectRef) (f : FunctionNode) {c : CallScope} {σ : State}

theorem declares_declareArguments (strict : Bool) (args : List Value) {b : Bindings}
    (hc : σ.heap.Holds c b) (hnew : ∀ name ∉ f.params, b.find? name = none) :
    Declares c σ False
      (fun _ _ b' ↦ (∀ name ∈ f.params, b'.find? name = b.find? name) ∧
        (f.MakesArguments → ∃ o : ObjectRef, σ.heap.objects.size ≤ o.index ∧
          b'.value? argumentsName = some (.object o)) ∧
        ∀ name ∉ f.earlyNames, b'.find? name = none)
      (declareArguments eng callee f c.ref strict args) := by
  unfold declareArguments
  split
  next hneeds =>
    have hmakes := f.needsArguments_iff.1 hneeds
    apply (declares_createArguments eng hc callee f strict args (hnew _ hmakes.2.1)).mono
    rintro _ h b' - - ⟨x, ⟨o, ho, hx⟩, hputs⟩
    refine ⟨fun name hname ↦ hputs.2 name ?_, fun _ ↦ ⟨o, ho, ?_⟩, fun name hname ↦ ?_⟩
    · rintro rfl
      exact hmakes.2.1 hname
    · rw [Bindings.value?, hputs.1]
      exact hx
    · rw [f.mem_earlyNames, not_or] at hname
      exact (hputs.2 name fun heq ↦ hname.2 ⟨heq, hmakes⟩).trans (hnew name hname.1)
  next hneeds =>
    have hmakes : ¬f.MakesArguments := fun h ↦ hneeds (f.needsArguments_iff.2 h)
    refine declares_pure hc ⟨fun _ _ ↦ rfl, fun h ↦ absurd h hmakes, fun name hname ↦ ?_⟩
    rw [f.mem_earlyNames, not_or] at hname
    exact hnew name hname.1

theorem declares_declareEarly (strict : Bool) (args : List Value) (hc : σ.heap.Holds c .empty) :
    Declares c σ False (fun _ _ b ↦ f.HasEarly args σ.heap.objects.size b)
      (declareEarly eng callee f c.ref strict args) := by
  unfold declareEarly
  apply (declares_createAll eng hc (nodup_fresh [] f.params) fun _ _ ↦ rfl).seq
  rintro _ σ₁ b₁ hgrows₁ hb₁ ⟨hparams, hothers⟩
  have hdeclared (name : String) (hname : name ∈ f.params) :
      b₁.find? name = some ⟨none, false, true, false⟩ :=
    hparams name (mem_fresh.2 ⟨hname, List.not_mem_nil⟩)
  have hnew (name : String) (hname : name ∉ f.params) : b₁.find? name = none :=
    hothers name fun hmem ↦ hname (mem_fresh.1 hmem).1
  apply (declares_declareArguments eng callee f strict args hb₁ hnew).seq
  rintro _ σ₂ b₂ - hb₂ ⟨hkeep₂, harguments, hnew₂⟩
  have hnames (name : String) (hname : name ∈ f.params) :
      b₂.IsDeclared name ∧ (name ∈ ([] : List String) → b₂.IsVariable name) :=
    ⟨⟨_, (hkeep₂ name hname).trans (hdeclared name hname), rfl, rfl⟩, nofun⟩
  apply (declares_bindParams eng hb₂ strict args hnames).seq
  rintro _ σ₃ b₃ - hb₃ ⟨hvariable, hvalue, hkeep₃⟩
  have hnew₃ (name : String) (hname : name ∉ f.earlyNames) : b₃.find? name = none :=
    (hkeep₃ name fun h ↦ hname (f.mem_earlyNames.2 (.inl h))).trans (hnew₂ name hname)
  refine (declares_createVars eng hb₃ (nodup_fresh _ _) fun name hname ↦
    hnew₃ name (mem_fresh.1 hname).2).mono ?_
  rintro _ h b₄ - - ⟨hvars, hkeep₄⟩
  have hearly (name : String) (hname : name ∈ f.earlyNames) : b₄.find? name = b₃.find? name :=
    hkeep₄ name fun hmem ↦ (mem_fresh.1 hmem).2 hname
  have hparam (name : String) (hname : name ∈ f.params) : b₄.find? name = b₃.find? name :=
    hearly name (f.mem_earlyNames.2 (.inl hname))
  exact {
    isVariable := fun name hname ↦ (hvariable name hname).of_find? (hparam name hname)
    param := fun i name hi hlast ↦ by
      rw [Bindings.value?, hparam name (List.mem_of_getElem? hi)]
      exact hvalue i name hi hlast
    arguments := fun hmakes ↦ by
      obtain ⟨o, ho, hvalue⟩ := harguments hmakes
      refine ⟨o, Nat.le_trans hgrows₁.objects_le ho, ?_⟩
      rw [Bindings.value?, hearly _ (f.mem_earlyNames.2 (.inr ⟨rfl, hmakes⟩)),
        hkeep₃ _ hmakes.2.1]
      exact hvalue
    var := fun name hname hnot ↦ hvars name (mem_fresh.2 ⟨hname, hnot⟩)
    absent := fun name hnot hvar ↦
      (hkeep₄ name fun hmem ↦ hvar (mem_fresh.1 hmem).1).trans (hnew₃ name hnot) }

end Function

/-- What the scope of a call holds when the body starts. -/
structure CallScope.Opens (c : CallScope) (f : FunctionNode) (args : List Value) (size : Nat)
    (h : Heap) (b : Bindings) : Prop where
  /-- The names, and no others. -/
  contains_iff : ∀ name, b.contains name = true ↔
    name ∈ f.params ∨ (name = Function.argumentsName ∧ f.MakesArguments) ∨
      name ∈ Tree.varNames f.body ∨ name ∈ f.lexicalNames ∨ name ∈ Tree.functionNames f.body
  /-- Of functions with one name the last. -/
  function : ∀ name ∈ Tree.functionNames f.body, ∃ g v,
    Tree.lastFunction? f.body name = some g ∧ b.value? name = some v ∧ c.IsClosure g h v
  /-- Of parameters with one name the last. -/
  param : ∀ i name, f.params[i]? = some name → name ∉ f.params.drop (i + 1) →
    name ∉ Tree.functionNames f.body → b.value? name = some (args.getD i .undefined)
  /-- A new object, where `size` objects were there before the call. -/
  arguments : f.MakesArguments →
    ∃ o : ObjectRef, size ≤ o.index ∧ b.value? Function.argumentsName = some (.object o)
  var : ∀ name ∈ Tree.varNames f.body, name ∉ Tree.functionNames f.body → name ∉ f.params →
    ¬(name = Function.argumentsName ∧ f.MakesArguments) → b.value? name = some .undefined
  lexical : ∀ l ∈ Tree.lexicalNames f.body, ∃ x, b.find? l.name = some x ∧ x.value = none ∧
    (x.isMutable = false ↔ l.isConstant = true)

namespace FunctionNode

variable {f : FunctionNode}

/-- The lexical names are refused where they are declared, or where a function comes
later. -/
theorem hasClash_iff :
    f.HasClash ↔ (¬f.lexicalNames.Nodup ∨ ∃ name ∈ f.lexicalNames,
        name ∈ f.earlyNames ∨ name ∈ Tree.varNames f.body) ∨
      ∃ name ∈ Tree.functionNames f.body,
        name ∉ Tree.varNames f.body ++ f.earlyNames ∧ name ∈ f.lexicalNames := by
  constructor
  · rintro (hnodup | ⟨name, hname, hparam | hvar | hfunction⟩)
    · exact .inl (.inl hnodup)
    · exact .inl (.inr ⟨name, hname, .inl (f.mem_earlyNames.2 (.inl hparam))⟩)
    · exact .inl (.inr ⟨name, hname, .inr hvar⟩)
    · by_cases hseen : name ∈ Tree.varNames f.body ++ f.earlyNames
      · exact .inl (.inr ⟨name, hname, (List.mem_append.1 hseen).symm⟩)
      · exact .inr ⟨name, hfunction, hseen, hname⟩
  · rintro ((hnodup | ⟨name, hname, hearly | hvar⟩) | ⟨name, hfunction, -, hname⟩)
    · exact .inl hnodup
    · rcases f.mem_earlyNames.1 hearly with hparam | ⟨rfl, hmakes⟩
      · exact .inr ⟨name, hname, .inl hparam⟩
      · exact absurd hname hmakes.2.2.2
    · exact .inr ⟨name, hname, .inr (.inl hvar)⟩
    · exact .inr ⟨name, hname, .inr (.inr hfunction)⟩

section Late

variable {args : List Value} {size : Nat} {b b₁ b' : Bindings} {name : String}
  (hb : f.HasEarly args size b)

include hb

/-- A function whose name is there already is assigned to a variable. -/
theorem HasEarly.isVariable_of_function (hname : name ∈ Tree.functionNames f.body)
    (hseen : name ∈ Tree.varNames f.body ++ f.earlyNames) : b.IsVariable name := by
  by_cases hearly : name ∈ f.earlyNames
  · rcases f.mem_earlyNames.1 hearly with hparam | ⟨rfl, hmakes⟩
    · exact hb.isVariable name hparam
    · exact absurd hname hmakes.2.2.1
  · have hvar := (List.mem_append.1 hseen).resolve_right hearly
    exact ⟨_, hb.var name hvar hearly, rfl, rfl, rfl⟩

variable (hlexicals : ∀ l ∈ Tree.lexicalNames f.body,
    b₁.find? l.name = some ⟨none, false, !l.isConstant, l.isConstant⟩)
  (hkeeps : b.Keeps f.lexicalNames b₁)

include hlexicals hkeeps

theorem HasEarly.contains_lexical_iff : b₁.contains name = true ↔
    name ∈ Tree.varNames f.body ++ f.earlyNames ∨ name ∈ f.lexicalNames := by
  by_cases hname : name ∈ f.lexicalNames
  · obtain ⟨l, hl, rfl⟩ := List.mem_map.1 hname
    exact iff_of_true (Bindings.contains_of_find? (hlexicals l hl)) (.inr hname)
  · rw [Bindings.contains, hkeeps name hname, ← Bindings.contains, hb.contains_iff,
      List.mem_append, or_comm, or_iff_left hname]

/-- Where nothing clashes, the functions come over the other names and leave the lexical
ones alone. -/
theorem HasEarly.opens {c : CallScope} {h : Heap} (hclash : ¬f.HasClash)
    (hclosures : ∀ g ∈ Tree.functions f.body, ∀ name, g.name? = some name →
      ∃ v, b'.value? name = some v ∧ c.IsClosure g h v)
    (hkeeps' : b₁.Keeps (Tree.functionNames f.body) b') : c.Opens f args size h b' := by
  have hfree {name : String} (hname : name ∈ f.lexicalNames) :
      ¬(name ∈ f.params ∨ name ∈ Tree.varNames f.body ∨ name ∈ Tree.functionNames f.body) :=
    fun htaken ↦ hclash (.inr ⟨name, hname, htaken⟩)
  have hsame {name : String} (hname : name ∉ Tree.functionNames f.body)
      (hlexical : name ∉ f.lexicalNames) : b'.find? name = b.find? name :=
    (hkeeps' name hname).trans (hkeeps name hlexical)
  exact {
    contains_iff := fun name ↦ by
      by_cases hname : name ∈ Tree.functionNames f.body
      · obtain ⟨g, hg, hgname⟩ := List.mem_filterMap.1 hname
        obtain ⟨v, hvalue, -⟩ := hclosures g hg name hgname
        obtain ⟨x, hx, -⟩ := Option.bind_eq_some_iff.1 hvalue
        exact iff_of_true (Bindings.contains_of_find? hx) (by simp [hname])
      · rw [Bindings.contains, hkeeps' name hname, ← Bindings.contains,
          hb.contains_lexical_iff hlexicals hkeeps, List.mem_append, f.mem_earlyNames,
          or_iff_left hname]
        tauto
    function := fun name hname ↦ by
      obtain ⟨g, hg, hgname⟩ := List.mem_filterMap.1 hname
      obtain ⟨v, hvalue, hv⟩ := hclosures g hg name hgname
      exact ⟨g, v, Tree.lastFunction?_of_mem hg hgname, hvalue, hv⟩
    param := fun i name hi hlast hname ↦ by
      have hparam := List.mem_of_getElem? hi
      rw [Bindings.value?, hsame hname fun hmem ↦ hfree hmem (.inl hparam)]
      exact hb.param i name hi hlast
    arguments := fun hmakes ↦ by
      rw [Bindings.value?, hsame hmakes.2.2.1 hmakes.2.2.2]
      exact hb.arguments hmakes
    var := fun name hvar hname hparam harguments ↦ by
      have hearly : name ∉ f.earlyNames := fun hmem ↦
        (f.mem_earlyNames.1 hmem).elim hparam harguments
      rw [Bindings.value?, hsame hname fun hmem ↦ hfree hmem (.inr (.inl hvar)),
        hb.var name hvar hearly]
      rfl
    lexical := fun l hl ↦ by
      have hname : l.name ∉ Tree.functionNames f.body := fun hmem ↦
        hfree (List.mem_map_of_mem hl) (.inr (.inr hmem))
      exact ⟨_, (hkeeps' l.name hname).trans (hlexicals l hl), rfl, by simp⟩ }

end Late

end FunctionNode

namespace Function

open Ecma.Action

variable (eng : Engine) {f : FunctionNode} {c : CallScope} {σ : State}

theorem declares_declareLate {args : List Value} {size : Nat} {b : Bindings}
    (hc : σ.heap.Holds c b) (hb : f.HasEarly args size b) :
    Declares c σ f.HasClash (fun _ h b' ↦ c.Opens f args size h b') (declareLate eng f c.ref) := by
  unfold declareLate
  have hlexical := declares_createLexical eng hc (Tree.lexicalNames f.body)
  simp only [Bindings.Clashes, hb.contains_iff] at hlexical
  refine ((hlexical.mono fun _ _ _ hclash _ h ↦ And.intro hclash h).bind
    (∃ name ∈ Tree.functionNames f.body,
      name ∉ Tree.varNames f.body ++ f.earlyNames ∧ name ∈ f.lexicalNames) ?_).congr
    f.hasClash_iff.symm
  rintro _ τ b₁ - hb₁ ⟨hclash, hlexicals, hkeeps⟩
  have hfree {name : String} (hname : name ∈ Tree.varNames f.body ++ f.earlyNames) :
      name ∉ f.lexicalNames := fun hmem ↦
    hclash (.inr ⟨name, hmem, (List.mem_append.1 hname).symm⟩)
  have hfunctions := declares_createFunctions eng hb₁ (Tree.nodup_names_keepLast _)
    fun name hname (hseen : name ∈ Tree.varNames f.body ++ f.earlyNames) ↦
      (hb.isVariable_of_function hname hseen).of_find? (hkeeps name (hfree hseen))
  refine (hfunctions.congr (exists_congr fun name ↦ and_congr_right fun _ ↦
    and_congr_right fun hnew ↦ ?_)).mono ?_
  · rw [hb.contains_lexical_iff hlexicals hkeeps, or_iff_right hnew]
  · rintro _ h b' hclash' - ⟨hclosures, hkeeps'⟩
    have hnone : ¬f.HasClash := fun h ↦ (f.hasClash_iff.1 h).elim hclash hclash'
    exact hb.opens hlexicals hkeeps hnone hclosures hkeeps'

end Function

/-! ## The theorem -/

/-- A call declares its names, or throws an error where a lexical name is taken; no
other failure is possible. -/
theorem call_declares_its_names (eng : Engine) (callee : ObjectRef) (f : FunctionNode)
    (c : CallScope) (args : List Value) (σ : State) (hc : σ.heap.Holds c .empty) :
    (ThrowsRedeclaration ((Function.declare eng callee f c.ref args).run σ) ↔ f.HasClash) ∧
      (¬f.HasClash → ∃ τ b, (Function.declare eng callee f c.ref args).run σ = (.ok (), τ) ∧
        τ.heap.Holds c b ∧ c.Opens f args σ.heap.objects.size τ.heap b) := by
  have hdeclares : Action.Declares c σ f.HasClash
      (fun _ h b ↦ c.Opens f args σ.heap.objects.size h b)
      (Function.declare eng callee f c.ref args) := by
    have hscope : Action.Declares c σ False (fun _ h b ↦ b = .empty ∧ h = σ.heap)
        (Action.scope c.ref) :=
      ⟨False.elim, fun _ ↦ ⟨_, σ, .empty, rfl, σ.heap.grows_refl, hc, rfl, rfl⟩⟩
    rw [Function.declare_eq]
    apply hscope.seq
    rintro scope σ₁ _ - hc₁ ⟨rfl, hheap⟩
    rw [← hheap]
    apply (Function.declares_declareEarly eng callee f scope.isStrict args hc₁).seq
    exact fun _ _ _ _ hb hearly ↦ Function.declares_declareLate eng hb hearly
  refine ⟨⟨fun hthrows ↦ ?_, hdeclares.throws⟩, fun hclash ↦ ?_⟩
  · by_contra hclash
    obtain ⟨_, _, _, hrun, -⟩ := hdeclares.leaves hclash
    obtain ⟨_, _, hrun', -⟩ := hthrows
    cases hrun.symm.trans hrun'
  · obtain ⟨_, τ, b, hrun, -, hb, hopens⟩ := hdeclares.leaves hclash
    exact ⟨τ, b, hrun, hb, hopens⟩

/-- A function with two parameters of one name, a third that a function replaces and a
fourth for which there is no argument; and one with a lexical name that is a parameter. -/
theorem call_declares_its_names_overlapping :
    let fresh := State.initial .standard
    let σ := ((Action.newFunctionScope fresh.realm.globalScope none false).run fresh).2
    let c : CallScope := ⟨⟨fresh.heap.scopes.size⟩, none, some fresh.realm.globalScope, false⟩
    let named (kind : DeclarationKind) (name : String) : Statement :=
      .mk .origin (.variable kind [.mk name none])
    let g (params : List String) : FunctionNode := .mk (some "b") params [] false
    let f : FunctionNode := .mk (some "f") ["a", "b", "a", "d"]
      [named .var "a", named .var "x", named .constant "k", .mk .origin (.function (g [])),
        .mk .origin (.function (g ["p"]))] false
    let f' : FunctionNode := .mk none ["a"] [named .lexical "a"] true
    let args : List Value := [.ofInt32 1, .ofInt32 2, .ofInt32 3]
    let run (f : FunctionNode) := (Function.declare (.level 9) ⟨0⟩ f c.ref args).run σ
    σ.heap.Holds c .empty ∧ f'.HasClash ∧ ThrowsRedeclaration (run f') ∧ ¬f.HasClash ∧
      ∃ τ b, run f = (.ok (), τ) ∧ τ.heap.Holds c b ∧ b.value? "a" = some (.ofInt32 3) ∧
        (∃ v, b.value? "b" = some v ∧ c.IsClosure (g ["p"]) τ.heap v) ∧
        b.value? "d" = some .undefined ∧ b.value? "x" = some .undefined ∧
        b.contains "arguments" = true ∧ b.contains "f" = false ∧
        (b.find? "k").any (fun x ↦ x.value.isNone && !x.isMutable) = true := by
  intro fresh σ c named g f f' args run
  have hc : σ.heap.Holds c .empty := Action.holds_newFunctionScope _ _ _ fresh
  have hclash' : f'.HasClash := by decide
  have hclash : ¬f.HasClash := by decide
  have hthrows := (call_declares_its_names (.level 9) ⟨0⟩ f' c args σ hc).1.2 hclash'
  obtain ⟨τ, b, hrun, hb, hopens⟩ :=
    (call_declares_its_names (.level 9) ⟨0⟩ f c args σ hc).2 hclash
  refine ⟨hc, hclash', hthrows, hclash, τ, b, hrun, hb, ?_, ?_, ?_, ?_, ?_, ?_, ?_⟩
  · exact hopens.param 2 "a" rfl (by decide) (by decide)
  · obtain ⟨g', v, hlast, hv, hclosure⟩ := hopens.function "b" (by decide)
    cases hlast
    exact ⟨v, hv, hclosure⟩
  · exact hopens.param 3 "d" rfl (by decide) (by decide)
  · exact hopens.var "x" (by decide) (by decide) (by decide) (by decide)
  · exact (hopens.contains_iff "arguments").2 (.inr (.inl ⟨rfl, rfl, by decide⟩))
  · rw [Bool.eq_false_iff, Ne, hopens.contains_iff]
    decide
  · obtain ⟨x, hx, hvalue, hconstant⟩ := hopens.lexical ⟨"k", true⟩ (by decide)
    rw [hx, Option.any_some, hvalue, hconstant.2 rfl]
    rfl

end Ecma
