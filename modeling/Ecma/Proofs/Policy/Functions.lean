import Ecma.Function.Call
import Ecma.Proofs.Policy.Objects

/-!
# Conversions, host programs and calls

A call declares the names of a function in a new scope and executes its body
there, so the body finds what it declares.
-/

namespace Ecma

namespace Function

theorem mem_fresh {name : String} {seen names : List String} :
    name ∈ fresh seen names ↔ name ∈ names ∧ name ∉ seen := by
  induction names generalizing seen with
  | nil => simp [fresh]
  | cons n rest ih =>
      by_cases hn : n ∈ seen
      · simp only [fresh, List.contains_iff_mem, hn, if_true, ih, List.mem_cons]
        constructor
        · rintro ⟨h, h'⟩
          exact ⟨.inr h, h'⟩
        · rintro ⟨rfl | h, h'⟩
          · exact absurd hn h'
          · exact ⟨h, h'⟩
      · by_cases h : name = n
        · subst h
          simp [fresh, hn]
        · simp [fresh, hn, ih, h]

end Function

/-- The conversions of a value. -/
inductive Engine.Coercion (eng : Engine) : {α : Type} → Action α → Prop where
  | toPrimitive (v : Value) (hint : Hint) : Coercion eng (Conversion.toPrimitive eng v hint)
  | toNumeric (v : Value) : Coercion eng (Conversion.toNumeric eng v)
  | toNumber (v : Value) : Coercion eng (Conversion.toNumber eng v)
  | toInteger (v : Value) : Coercion eng (Conversion.toInteger eng v)
  | toIntegerOrInfinity (v : Value) : Coercion eng (Conversion.toIntegerOrInfinity eng v)
  | toLength (v : Value) : Coercion eng (Conversion.toLength eng v)
  | toInt32 (v : Value) : Coercion eng (Conversion.toInt32 eng v)
  | toUInt32 (v : Value) : Coercion eng (Conversion.toUInt32 eng v)
  | toUInt16 (v : Value) : Coercion eng (Conversion.toUInt16 eng v)
  | toText (v : Value) : Coercion eng (Conversion.toText eng v)
  | toPropertyKey (v : Value) : Coercion eng (Conversion.toPropertyKey eng v)
  | toObject (v : Value) : Coercion eng (Conversion.toObject v)
  | requireObjectCoercible (v : Value) : Coercion eng (Conversion.requireObjectCoercible v)

namespace Policy

variable {P : Policy} {eng : Engine} {α : Type}

namespace Governs

variable (hG : P.Governs eng)

include hG

/-! ## Conversions -/

theorem keeps_getOf (v : Value) (k : PropertyKey) : P.Keeps (Conversion.getOf eng v k) :=
  (hG.keeps_toObject v).bind fun o ↦ hG.keeps_get o k v

theorem keeps_getMethod (v : Value) (k : PropertyKey) : P.Keeps (Conversion.getMethod eng v k) := by
  refine (hG.keeps_getOf v k).bind fun f ↦ ?_
  split
  · exact keeps_pure _
  · exact (hG.basics.keeps_isCallable f).bind fun _ ↦
      keeps_ite (keeps_pure _) (hG.basics.keeps_throwNew _)

theorem keeps_tryMethods (o : ObjectRef) (names : List String) :
    P.Keeps (Conversion.tryMethods eng o names) := by
  induction names with
  | nil => exact hG.basics.keeps_throwNew _
  | cons name rest ih =>
      refine (hG.keeps_get o _ _).bind fun method ↦ ?_
      refine (hG.basics.keeps_isCallable method).bind fun callable ↦ ?_
      split
      · exact (hG.call _ _ _).bind fun result ↦ keeps_ite ih (keeps_pure _)
      · exact ih

theorem keeps_toPrimitive (v : Value) (hint : Hint) :
    P.Keeps (Conversion.toPrimitive eng v hint) := by
  unfold Conversion.toPrimitive
  split
  · refine (hG.keeps_getMethod _ _).bind fun method ↦ ?_
    split
    · exact (hG.call _ _ _).bind fun result ↦
        keeps_ite (hG.basics.keeps_throwNew _) (keeps_pure _)
    · exact hG.keeps_tryMethods _ _
  · exact keeps_pure _

theorem keeps_primitiveToNumeric (v : Value) : P.Keeps (Conversion.primitiveToNumeric v) := by
  cases v with
  | symbol s => exact hG.basics.keeps_throwNew _
  | object o => exact hG.basics.keeps_throwNew _
  | undefined => exact keeps_pure _
  | null => exact keeps_pure _
  | boolean b => exact keeps_pure _
  | number n => exact keeps_pure _
  | string t => exact keeps_pure _

theorem keeps_toNumeric (v : Value) : P.Keeps (Conversion.toNumeric eng v) := by
  unfold Conversion.toNumeric
  split
  · exact (hG.keeps_toPrimitive v _).bind fun p ↦ hG.keeps_primitiveToNumeric p
  · exact hG.keeps_primitiveToNumeric v

theorem keeps_toNumber (v : Value) : P.Keeps (Conversion.toNumber eng v) :=
  (hG.keeps_toNumeric v).bind fun _ ↦ keeps_pure _

theorem keeps_primitiveToText (v : Value) : P.Keeps (Conversion.primitiveToText v) := by
  cases v with
  | symbol s => exact hG.basics.keeps_throwNew _
  | object o => exact hG.basics.keeps_throwNew _
  | undefined => exact keeps_pure _
  | null => exact keeps_pure _
  | boolean b => exact keeps_pure _
  | number n => exact keeps_pure _
  | string t => exact keeps_pure _

theorem keeps_toText (v : Value) : P.Keeps (Conversion.toText eng v) := by
  unfold Conversion.toText
  split
  · exact (hG.keeps_toPrimitive v _).bind fun p ↦ hG.keeps_primitiveToText p
  · exact hG.keeps_primitiveToText v

theorem keeps_toPropertyKey (v : Value) : P.Keeps (Conversion.toPropertyKey eng v) := by
  refine (hG.keeps_toPrimitive v _).bind fun p ↦ ?_
  split
  · exact keeps_pure _
  · exact (hG.keeps_primitiveToText _).bind fun _ ↦ keeps_pure _

theorem keeps_coercion {m : Action α} (hm : Engine.Coercion eng m) : P.Keeps m := by
  have hinteger (v : Value) : P.Keeps (Conversion.toInteger eng v) :=
    (hG.keeps_toNumber v).bind fun _ ↦ keeps_pure _
  have hintegral (v : Value) : P.Keeps (Conversion.toIntegerOrInfinity eng v) :=
    (hinteger v).bind fun _ ↦ keeps_pure _
  cases hm with
  | toPrimitive v hint => exact hG.keeps_toPrimitive v hint
  | toNumeric v => exact hG.keeps_toNumeric v
  | toNumber v => exact hG.keeps_toNumber v
  | toInteger v => exact hinteger v
  | toIntegerOrInfinity v => exact hintegral v
  | toLength v => exact (hintegral v).bind fun _ ↦ keeps_pure _
  | toInt32 v => exact (hG.keeps_toNumeric v).bind fun _ ↦ keeps_pure _
  | toUInt32 v => exact (hG.keeps_toNumeric v).bind fun _ ↦ keeps_pure _
  | toUInt16 v => exact (hG.keeps_toNumeric v).bind fun _ ↦ keeps_pure _
  | toText v => exact hG.keeps_toText v
  | toPropertyKey v => exact hG.keeps_toPropertyKey v
  | toObject v => exact hG.keeps_toObject v
  | requireObjectCoercible v =>
      unfold Conversion.requireObjectCoercible
      refine keeps_ite ?_ (keeps_pure _)
      exact (hG.basics.keeps_display v).bind fun _ ↦ hG.basics.keeps_throwNew _

/-! ## Comparisons -/

theorem keeps_looseEqual (x y : Value) : P.Keeps (Conversion.looseEqual eng x y) := by
  unfold Conversion.looseEqual
  split
  · exact keeps_pure _
  · split
    · exact keeps_pure _
    · exact (hG.keeps_toPrimitive _ _).bind fun _ ↦ keeps_pure _
  · split
    · exact keeps_pure _
    · exact (hG.keeps_toPrimitive _ _).bind fun _ ↦ keeps_pure _
  · exact keeps_pure _

theorem keeps_primitiveLess (x y : Value) : P.Keeps (Conversion.primitiveLess x y) := by
  unfold Conversion.primitiveLess
  split
  · exact keeps_pure _
  · exact (hG.keeps_primitiveToNumeric _).bind fun _ ↦
      (hG.keeps_primitiveToNumeric _).bind fun _ ↦ keeps_pure _

theorem keeps_less (x y : Value) (leftFirst : Bool) :
    P.Keeps (Conversion.less eng x y leftFirst) := by
  unfold Conversion.less
  split
  · exact (hG.keeps_toPrimitive x _).bind fun _ ↦
      (hG.keeps_toPrimitive y _).bind fun _ ↦ hG.keeps_primitiveLess _ _
  · exact (hG.keeps_toPrimitive y _).bind fun _ ↦
      (hG.keeps_toPrimitive x _).bind fun _ ↦ hG.keeps_primitiveLess _ _

/-! ## Host programs -/

theorem keeps_construct (f : Value) (args : List Value) :
    P.Keeps (Function.construct eng f args) := by
  have hrefuse : P.Keeps
      (do Action.throwNew (.notConstructor (← Action.display f)) : Action Value) :=
    (hG.basics.keeps_display f).bind fun _ ↦ hG.basics.keeps_throwNew _
  cases f with
  | object o =>
      refine (hG.basics.keeps_object o).bind fun data ↦ ?_
      split
      · have hrest (prototype : ObjectRef) : P.Keeps (do
            let this := Value.object (← Action.newObject .object (some prototype))
            let result ← eng.call (.object o) this args
            return if result.isObject then result else this) :=
          (hG.creation.newObject _ _).bind fun _ ↦
            (hG.call _ _ _).bind fun _ ↦ keeps_pure _
        refine (hG.keeps_get o _ _).bind fun prototype ↦ ?_
        split
        · exact hrest _
        · exact hG.basics.keeps_realm.bind fun _ ↦ hrest _
      · exact hrefuse
  | undefined => exact hrefuse
  | null => exact hrefuse
  | boolean b => exact hrefuse
  | number n => exact hrefuse
  | string t => exact hrefuse
  | symbol s => exact hrefuse

/-- A statement that declares nothing needs no names. -/
theorem executes_alone {body : Statement} (hbody : P.Admits (Tree.placedAlone body))
    (s : ScopeRef) : P.Executes ∅ (eng.exec body s []) := by
  obtain ⟨l, form⟩ := body
  obtain ⟨hempty, hform⟩ := admits_and.1 hbody
  have hstmt : P.Admits (Tree.placedStatement (.mk l form)) := hform
  have hexec := hG.exec hstmt s []
  by_cases hP : P.demands
  · rw [List.isEmpty_iff.1 (hempty hP)] at hexec
    exact hexec.of_subset (by simp [Fact.all])
  · exact P.idle hP (by simp [Fact.all]) (fun _ _ ↦ id) hexec

theorem keeps_perform {request : Request} (hrequest : request.Honours P.host)
    (hpermits : P.Permits request) : P.Keeps (Host.perform eng request) := by
  cases request with
  | log line => exact hG.basics.log line hpermits.1
  | display v => exact hG.basics.keeps_display v
  | raise kind message => exact hG.basics.raise kind message
  | interrupt => exact hG.basics.interrupt
  | toPropertyKey v => exact hG.keeps_toPropertyKey v
  | toText v => exact hG.keeps_toText v
  | toObject v => exact hG.keeps_toObject v
  | toPrimitive v hint => exact hG.keeps_toPrimitive v hint
  | toNumber v => exact hG.keeps_toNumber v
  | looselyEqual x y => exact hG.keeps_looseEqual x y
  | lessThan x y leftFirst => exact hG.keeps_less x y leftFirst
  | newSymbol description => exact hG.basics.newSymbol description
  | newObject prototype => exact hG.creation.newObject _ prototype
  | newCell r => exact hG.creation.newCell r hpermits.1
  | prototypeOf o => exact (hG.basics.keeps_object o).bind fun _ ↦ keeps_pure _
  | setPrototypeOf o prototype => exact hG.properties.setPrototype o prototype
  | preventExtensions o => exact hG.properties.preventExtensions o
  | isExtensible o => exact (hG.basics.keeps_object o).bind fun _ ↦ keeps_pure _
  | ownKeys o => exact (hG.basics.keeps_object o).bind fun _ ↦ keeps_pure _
  | enumerableKeys o => exact hG.keeps_enumerableKeys o
  | hasProperty o k => exact hG.basics.keeps_heap.bind fun _ ↦ keeps_pure _
  | getOwn o k => exact hG.keeps_getOwn o k
  | get o k receiver => exact hG.keeps_get o k receiver
  | set o k v receiver => exact hG.keeps_set o k v receiver
  | define o k d => exact hG.keeps_define o k hrequest
  | createData o k v => exact hG.keeps_createData o k v
  | delete o k => exact hG.properties.delete o k
  | hasVariable s name => exact hG.keeps_hasBinding s name
  | getVariable s name strict => exact hG.keeps_getBinding s name strict
  | setVariable s name v strict => exact hG.keeps_setBinding s name v strict
  | deleteVariable s name => exact hG.keeps_deleteVariable s name
  | call f this args => exact hG.call f this args
  | construct f args => exact hG.keeps_construct f args
  | evaluate e s => exact hG.eval hpermits.2 s
  | execute stmt s => exact hG.executes_alone hpermits.2 s

theorem keeps_runProgram {program : HostProgram α} (hprogram : program.Honours P.host)
    (hpermits : program.Asks P.Permits) : P.Keeps (Host.run eng program) :=
  hG.basics.program eng (fun _ ↦ hG.keeps_perform) program hprogram hpermits

/-! ## Declarations of a call -/

theorem holds_createAll (s : ScopeRef) (names : List String) :
    P.Holds {.holder s} (Function.createAll eng s names) fun _ ↦ Fact.all s names := by
  induction names with
  | nil => exact holds_pure_of_subset (by simp [Fact.all])
  | cons name rest ih =>
      refine (hG.holds_createMutable s name).bind fun _ ↦ ?_
      refine ih.weaken Set.subset_union_left fun _ ↦ ?_
      rw [Fact.all_cons]
      exact Set.union_subset_union_left _ Set.subset_union_right

theorem holds_bindParams (s : ScopeRef) (strict : Bool) (bound names : List String)
    (args : List Value) :
    P.Holds (Fact.all s names) (Function.bindParams eng s strict bound names args) fun _ ↦ ∅ := by
  induction names generalizing bound args with
  | nil => exact holds_pure_of_subset (Set.empty_subset _)
  | cons name rest ih =>
      have hrest : Fact.all s rest ⊆ Fact.all s (name :: rest) :=
        Fact.all_subset (List.subset_cons_self name rest)
      unfold Function.bindParams
      dsimp only
      split
      · exact (hG.keeps_setBinding s name _ _).bind_holds fun _ ↦ (ih _ _).of_subset hrest
      · have hname : {Fact.declared s name} ⊆ Fact.all s (name :: rest) := by
          rw [Fact.all_cons]
          exact Set.subset_union_left
        refine ((hG.holds_initialise s name _).of_subset hname).bind fun _ ↦ ?_
        exact (ih _ _).of_subset (hrest.trans Set.subset_union_left)

/-- Declares a name and gives it a value at once. -/
theorem holds_createInitialised (s : ScopeRef) (name : String) (v : Value) {m : Action α}
    (hm : P.Holds {.holder s} m fun _ ↦ ∅) : P.Holds {.holder s} (do
      Scope.createMutable eng s name false
      Scope.initialise eng s name v
      m) fun _ ↦ ∅ := by
  refine (hG.holds_createMutable s name).bind fun _ ↦ ?_
  refine ((hG.holds_initialise s name v).of_subset Set.subset_union_right).bind fun _ ↦ ?_
  exact hm.of_subset (Set.subset_union_left.trans Set.subset_union_left)

theorem holds_createVars (s : ScopeRef) (names : List String) :
    P.Holds {.holder s} (Function.createVars eng s names) fun _ ↦ ∅ := by
  induction names with
  | nil => exact holds_pure_of_subset (Set.empty_subset _)
  | cons name rest ih => exact hG.holds_createInitialised s name _ ih

theorem holds_createLexical (s : ScopeRef) (names : List LexicalName) :
    P.Holds {.holder s} (Function.createLexical eng s names) fun _ ↦
      Fact.all s (names.map LexicalName.name) := by
  induction names with
  | nil => exact holds_pure_of_subset (by simp [Fact.all])
  | cons l rest ih =>
      have hrest (m : Action Unit)
          (hm : P.Holds {.holder s} m fun _ ↦ {.declared s l.name}) :
          P.Holds {.holder s} (m >>= fun _ ↦ Function.createLexical eng s rest) fun _ ↦
            Fact.all s ((l :: rest).map LexicalName.name) := by
        refine hm.bind fun _ ↦ ih.weaken Set.subset_union_left fun _ ↦ ?_
        rw [List.map_cons, Fact.all_cons]
        exact Set.union_subset_union_left _ Set.subset_union_right
      unfold Function.createLexical
      dsimp only
      split
      · exact hrest _ (hG.scopes.createImmutable s _ _)
      · exact hrest _ (hG.holds_createMutable s _)

theorem holds_createFunctions (s : ScopeRef) (seen : List String) {fs : List FunctionNode}
    (hfs : ∀ f ∈ fs, P.Admits (Tree.placedFunction f)) :
    P.Holds {.holder s} (Function.createFunctions eng s seen fs) fun _ ↦ ∅ := by
  induction fs generalizing seen with
  | nil => exact holds_pure_of_subset (Set.empty_subset _)
  | cons f rest ih =>
      have ih (seen : List String) := ih seen fun f hf ↦ hfs f (List.mem_cons_of_mem _ hf)
      unfold Function.createFunctions
      split
      · exact ih seen
      · refine (hG.creation.instantiate (hfs f List.mem_cons_self) s none).bind_holds fun _ ↦ ?_
        dsimp only
        split
        · exact (hG.keeps_setBinding s _ _ _).bind_holds fun _ ↦ ih _
        · exact hG.holds_createInitialised s _ _ (ih _)

theorem holds_createArguments (callee : ObjectRef) (f : FunctionNode) (s : ScopeRef)
    (strict : Bool) (args : List Value) :
    P.Holds {.holder s} (Function.createArguments eng callee f s strict args) fun _ ↦ ∅ := by
  unfold Function.createArguments
  dsimp only
  split
  · refine (hG.creation.createUnmapped args).bind_holds fun o ↦ ?_
    refine (hG.scopes.createImmutable s _ _).bind fun _ ↦ ?_
    exact (hG.holds_initialise s _ _).of_subset Set.subset_union_right
  · refine (hG.creation.createMapped callee _ args s).bind fun o ↦ ?_
    refine ((hG.holds_createMutable s _).of_subset Set.subset_union_left).bind fun _ ↦ ?_
    exact (hG.holds_initialise s _ _).of_subset Set.subset_union_right

theorem holds_declare (callee : ObjectRef) (f : FunctionNode) (s : ScopeRef) (args : List Value)
    (hf : P.Admits (Tree.placedFunction f)) :
    P.Holds {.holder s} (Function.declare eng callee f s args) fun _ ↦
      Fact.all s ((Tree.lexicalNames f.body).map LexicalName.name) := by
  have hfunctions : ∀ g ∈ Tree.functions f.body, P.Admits (Tree.placedFunction g) :=
    fun g hg hP ↦ Tree.placedFunction_of_mem_functions (hf hP) hg
  have hparams : Fact.all s f.params ⊆ Fact.all s (Function.fresh [] f.params) :=
    Fact.all_subset fun name hname ↦ Function.mem_fresh.2 ⟨hname, List.not_mem_nil⟩
  refine (hG.basics.keeps_scope s).bind_holds fun scope ↦ ?_
  refine (hG.holds_createAll s _).bind fun _ ↦ ?_
  have hrest (seen : List String) :
      P.Holds ({.holder s} ∪ Fact.all s (Function.fresh [] f.params)) (do
        Function.bindParams eng s scope.isStrict [] f.params args
        Function.createVars eng s (Function.fresh seen (Declarations.analyze f.body).varNames)
        Function.createLexical eng s (Declarations.analyze f.body).lexical
        Function.createFunctions eng s ((Declarations.analyze f.body).varNames ++ seen)
          (Declarations.analyze f.body).functions) fun _ ↦
        Fact.all s ((Tree.lexicalNames f.body).map LexicalName.name) := by
    have hbind := (hG.holds_bindParams s scope.isStrict [] f.params args).of_subset
      (hparams.trans (Set.subset_union_right (s := {Fact.holder s})))
    refine hbind.bind fun _ ↦ ?_
    have hholder : {Fact.holder s} ⊆
        {Fact.holder s} ∪ Fact.all s (Function.fresh [] f.params) ∪ ∅ :=
      Set.subset_union_left.trans Set.subset_union_left
    refine ((hG.holds_createVars s _).of_subset hholder).bind fun _ ↦ ?_
    refine ((hG.holds_createLexical s _).of_subset (hholder.trans Set.subset_union_left)).bind
      fun _ ↦ ?_
    refine (hG.holds_createFunctions s _ hfunctions).weaken ?_ fun _ ↦ ?_
    · exact (hholder.trans Set.subset_union_left).trans Set.subset_union_left
    · exact Set.subset_union_right.trans Set.subset_union_left
  dsimp only
  split
  · have harguments := (hG.holds_createArguments callee f s scope.isStrict args).of_subset
      (Set.subset_union_left (t := Fact.all s (Function.fresh [] f.params)))
    exact harguments.bind fun _ ↦ (hrest _).of_subset Set.subset_union_left
  · exact hrest _

/-! ## Calls -/

theorem keeps_bindThis (f : FunctionNode) (strict : Bool) (this : Value) :
    P.Keeps (Function.bindThis f strict this) := by
  unfold Function.bindThis
  split
  · exact keeps_pure _
  · split
    · exact keeps_pure _
    · split
      · exact hG.basics.keeps_realm.bind fun _ ↦ keeps_pure _
      · exact (hG.keeps_toObject this).bind fun _ ↦ keeps_pure _

/-- Each statement finds what it declares among the names of the list. -/
theorem executes_execFrom (s : ScopeRef) (last : Option Value) {body : List Statement}
    (hbody : P.Admits (Tree.placedList body)) :
    P.Executes (Fact.all s ((Tree.lexicalNames body).map LexicalName.name))
      (Statement.execFrom eng s last body) := by
  induction body generalizing last with
  | nil => exact executes_pure _
  | cons stmt rest ih =>
      obtain ⟨hstmt, hrest⟩ := admits_and.1 hbody
      rw [Tree.lexicalNames, List.flatMap_cons, List.map_append]
      refine ((hG.exec hstmt s []).of_subset
        (Fact.all_subset (List.subset_append_left _ _))).bind fun c ↦ ?_
      split
      · exact (ih _ hrest).of_subset (Fact.all_subset (List.subset_append_right _ _))
      · exact executes_pure _

theorem executes_execAll (s : ScopeRef) {body : List Statement}
    (hbody : P.Admits (Tree.placedList body)) :
    P.Executes (Fact.all s ((Tree.lexicalNames body).map LexicalName.name))
      (Statement.execAll eng body s) :=
  hG.executes_execFrom s none hbody

/-- The names that a function declares at its top are there when its body runs. -/
theorem holds_prepare (callee : ObjectRef) {f : FunctionNode}
    (hf : P.Admits (Tree.placedFunction f)) (closure : ScopeRef) (this : Option Value)
    (strict : Bool) (args : List Value) :
    P.Holds ∅ (Function.prepare eng callee f closure this strict args) fun s ↦
      Fact.all s ((Tree.lexicalNames f.body).map LexicalName.name) := by
  refine Holds.bind (hG.scopes.newFunctionScope closure this strict) fun s ↦ ?_
  rw [Set.empty_union]
  exact P.holds_bind (hG.holds_declare callee f s args hf) fun _ ↦ P.holds_pure s fun s ↦
    Fact.all s ((Tree.lexicalNames f.body).map LexicalName.name)

theorem keeps_enter (callee : ObjectRef) {f : Callable} (hf : P.Admissible f) (this : Value)
    (args : List Value) : P.Keeps (Function.enter eng callee f this args) := by
  cases f with
  | native name arity run => exact hG.keeps_runProgram (hf this args).1 (hf this args).2
  | closure f closure strict =>
      have hbody : P.Admits (Tree.placedList f.body) := by
        obtain ⟨name, params, body, isArrow⟩ := f
        exact hf
      refine (hG.keeps_bindThis f strict this).bind fun this ↦ ?_
      refine P.holds_bind (hG.holds_prepare callee hf closure this strict args) fun s ↦ ?_
      exact P.holds_bind (hG.executes_execAll s hbody) fun c ↦ hG.basics.finish c

theorem keeps_call (f this : Value) (args : List Value) :
    P.Keeps (Function.call eng f this args) := by
  have hrefuse : P.Keeps (do Action.throwNew (.notFunction (← Action.display f)) : Action Value) :=
    (hG.basics.keeps_display f).bind fun _ ↦ hG.basics.keeps_throwNew _
  cases f with
  | object o =>
      unfold Function.call
      extract_lets enterOrRefuse
      have hcase := hG.basics.callable o (fun callable? ↦ enterOrRefuse (callable?.map (o, ·)))
        hrefuse fun callable hcallable ↦ hG.basics.depth _ _ (hG.basics.keeps_throwNew _)
          (hG.basics.counted _ (hG.keeps_enter o hcallable this args))
      exact hcase
  | undefined => exact hrefuse
  | null => exact hrefuse
  | boolean b => exact hrefuse
  | number n => exact hrefuse
  | string t => exact hrefuse
  | symbol s => exact hrefuse

end Governs

end Policy

end Ecma
