import Ecma.Proofs.DeclarationRuns

/-!
# Declaring names in the scope of a call

The scope of a call has variables of its own, so declaring a name there can fail
in one way only, if the name is declared already.  For each loop over names we
say when that happens, and which variables there are if it does not.
-/

namespace Ecma

namespace Function

theorem nodup_fresh (seen names : List String) : (fresh seen names).Nodup := by
  induction names generalizing seen with
  | nil => exact List.nodup_nil
  | cons name rest ih =>
      unfold fresh
      split
      · exact ih seen
      · refine List.nodup_cons.2 ⟨fun hmem ↦ ?_, ih _⟩
        exact (mem_fresh.1 hmem).2 List.mem_cons_self

end Function

/-! ## Actions that declare names -/

/-- The scope of a call, of which all but the variables is settled. -/
structure CallScope where
  ref : ScopeRef
  this : Option Value
  outer : Option ScopeRef
  isStrict : Bool

/-- The scope is there, with these variables. -/
def Heap.Holds (h : Heap) (c : CallScope) (b : Bindings) : Prop :=
  c.ref.index < h.scopes.size ∧ h.scope c.ref = ⟨.declarative b c.this, c.outer, c.isStrict⟩

/-- The value is the closure of the function over the scope. -/
def CallScope.IsClosure (c : CallScope) (f : FunctionNode) (h : Heap) (v : Value) : Prop :=
  ∃ o : ObjectRef, v = .object o ∧ o.index < h.objects.size ∧
    (h.object o).callable = some (.closure f c.ref (c.isStrict || Tree.isStrict f.body))

theorem CallScope.IsClosure.grows {c : CallScope} {f : FunctionNode} {h h' : Heap} {v : Value}
    (hv : c.IsClosure f h v) (hgrows : h.Grows unboundHost h') : c.IsClosure f h' v := by
  obtain ⟨o, rfl, hlt, hcallable⟩ := hv
  exact ⟨o, rfl, Nat.lt_of_lt_of_le hlt hgrows.objects_le, hgrows.object_eq o hlt ▸ hcallable⟩

/-- The outcome is a new error about a name that is declared already. -/
def ThrowsRedeclaration {α : Type} (r : Except Failure α × State) : Prop :=
  ∃ o τ, r = (.error (.thrown (.object o)), τ) ∧
    (τ.heap.object o).objectClass = .error .redeclaration

/-- A call starts with a scope that has no variables. -/
theorem Action.holds_newFunctionScope (outer : ScopeRef) (this : Option Value) (strict : Bool)
    (σ : State) :
    ((Action.newFunctionScope outer this strict).run σ).2.heap.Holds
      ⟨⟨σ.heap.scopes.size⟩, this, some outer, strict⟩ .empty := by
  refine ⟨?_, Heap.scope_addScope_self _ _⟩
  change σ.heap.scopes.size < (σ.heap.scopes.push _).size
  rw [Array.size_push]
  exact Nat.lt_succ_self _

theorem Heap.Holds.of_scopes {h h' : Heap} {c : CallScope} {b : Bindings} (hc : h.Holds c b)
    (hscopes : h'.scopes = h.scopes) : h'.Holds c b := by
  have hscope : h'.scope c.ref = h.scope c.ref := by simp [Heap.scope, hscopes]
  exact ⟨hscopes ▸ hc.1, hscope.trans hc.2⟩

namespace Action

variable {α β : Type} {c : CallScope} {σ : State} {clash clash' : Prop}

/-- How an action that declares names in the scope of a call ends: where they clash it
throws an error, and otherwise it succeeds, and all that it does besides is to make
new objects. -/
structure Declares (c : CallScope) (σ : State) (clash : Prop)
    (Q : α → Heap → Bindings → Prop) (m : Action α) : Prop where
  throws : clash → ThrowsRedeclaration (m.run σ)
  leaves : ¬clash → ∃ a τ b, m.run σ = (.ok a, τ) ∧ σ.heap.Grows unboundHost τ.heap ∧
    τ.heap.Holds c b ∧ Q a τ.heap b

variable {Q : α → Heap → Bindings → Prop} {Q' : β → Heap → Bindings → Prop} {m : Action α}

theorem declares_pure {b : Bindings} {a : α} (hc : σ.heap.Holds c b) (ha : Q a σ.heap b) :
    Declares c σ False Q (pure a) :=
  ⟨False.elim, fun _ ↦ ⟨a, σ, b, rfl, σ.heap.grows_refl, hc, ha⟩⟩

namespace Declares

theorem bind {f : α → Action β} (hm : Declares c σ clash Q m) (clash' : Prop)
    (hf : ∀ a τ b, σ.heap.Grows unboundHost τ.heap → τ.heap.Holds c b → Q a τ.heap b →
      Declares c τ clash' Q' (f a)) : Declares c σ (clash ∨ clash') Q' (m >>= f) := by
  by_cases hclash : clash
  · refine ⟨fun _ ↦ ?_, fun h ↦ absurd (.inl hclash) h⟩
    obtain ⟨o, τ, hrun, herror⟩ := hm.throws hclash
    refine ⟨o, τ, ?_, herror⟩
    rw [run_bind, hrun]
  · obtain ⟨a, τ, b, hrun, hgrows, hb, ha⟩ := hm.leaves hclash
    have hnext := hf a τ b hgrows hb ha
    have hbind : (m >>= f).run σ = (f a).run τ := by rw [run_bind, hrun]
    refine ⟨fun h ↦ ?_, fun h ↦ ?_⟩
    · rw [hbind]
      exact hnext.throws (h.resolve_left hclash)
    · obtain ⟨a', τ', b', hrun', hgrows', hb', ha'⟩ := hnext.leaves fun h' ↦ h (.inr h')
      exact ⟨a', τ', b', hbind.trans hrun', hgrows.trans hgrows', hb', ha'⟩

theorem congr (hm : Declares c σ clash Q m) (hclash : clash ↔ clash') :
    Declares c σ clash' Q m :=
  ⟨fun h ↦ hm.throws (hclash.2 h), fun h ↦ hm.leaves fun h' ↦ h (hclash.1 h')⟩

theorem mono {R : α → Heap → Bindings → Prop} (hm : Declares c σ clash Q m)
    (hQ : ∀ a h b, ¬clash → σ.heap.Grows unboundHost h → Q a h b → R a h b) :
    Declares c σ clash R m := by
  refine ⟨hm.throws, fun hclash ↦ ?_⟩
  obtain ⟨a, τ, b, hrun, hgrows, hb, ha⟩ := hm.leaves hclash
  exact ⟨a, τ, b, hrun, hgrows, hb, hQ a τ.heap b hclash hgrows ha⟩

theorem of_run_eq {m' : Action α} (hm : Declares c σ clash Q m) (hrun : m'.run σ = m.run σ) :
    Declares c σ clash Q m' := by
  refine ⟨fun h ↦ ?_, fun h ↦ ?_⟩
  · rw [hrun]
    exact hm.throws h
  · rw [hrun]
    exact hm.leaves h

/-- An action that cannot clash comes first. -/
theorem seq {f : α → Action β} (hm : Declares c σ False Q m)
    (hf : ∀ a τ b, σ.heap.Grows unboundHost τ.heap → τ.heap.Holds c b → Q a τ.heap b →
      Declares c τ clash Q' (f a)) : Declares c σ clash Q' (m >>= f) :=
  (hm.bind clash hf).congr (or_iff_right id)

end Declares

end Action

/-! ## Variables one by one -/

namespace Bindings

variable {b b' b'' : Bindings} {name : String} {x : Binding} {v : Value}

/-- The later variables have `x` under the name, and are otherwise as they were. -/
def Puts (name : String) (x : Binding) (b b' : Bindings) : Prop :=
  b'.find? name = some x ∧ ∀ other, other ≠ name → b'.find? other = b.find? other

theorem puts_insert (b : Bindings) (name : String) (x : Binding) :
    b.Puts name x (b.insert name x) :=
  ⟨b.find?_insert_self name x, fun _ hne ↦ b.find?_insert_of_ne hne x⟩

theorem puts_write (hx : b.find? name = some x) (v : Value) :
    b.Puts name { x with value := some v } (b.write name v) := by
  refine ⟨?_, fun _ hne ↦ b.find?_write_of_ne hne v⟩
  rw [find?_write_self, hx]
  rfl

theorem Puts.trans {y : Binding} (h : b.Puts name x b') (h' : b'.Puts name y b'') :
    b.Puts name y b'' :=
  ⟨h'.1, fun other hne ↦ (h'.2 other hne).trans (h.2 other hne)⟩

theorem Puts.contains_iff {other : String} (h : b.Puts name x b') :
    b'.contains other = true ↔ other = name ∨ b.contains other = true := by
  by_cases hne : other = name
  · simp [contains, hne, h.1]
  · simp [contains, hne, h.2 other hne]

/-- The variables under other names are as they were. -/
def Keeps (names : List String) (b b' : Bindings) : Prop :=
  ∀ name ∉ names, b'.find? name = b.find? name

theorem keeps_refl (names : List String) (b : Bindings) : b.Keeps names b := fun _ _ ↦ rfl

theorem Puts.keeps_cons {rest : List String} (h : b.Puts name x b') (h' : b'.Keeps rest b'') :
    b.Keeps (name :: rest) b'' := by
  intro other hother
  rw [List.mem_cons, not_or] at hother
  exact (h' other hother.2).trans (h.2 other hother.1)

/-- The names cannot be declared one after the other. -/
def Clashes (names : List String) (b : Bindings) : Prop :=
  ¬names.Nodup ∨ ∃ name ∈ names, b.contains name = true

theorem clashes_cons {rest : List String} :
    b.Clashes (name :: rest) ↔ b.contains name = true ∨ name ∈ rest ∨ b.Clashes rest := by
  rw [Clashes, List.nodup_cons, List.exists_mem_cons_iff, Clashes]
  tauto

/-- The later names meet the one that is there now, besides those that were. -/
theorem Puts.clashes_iff {names : List String} (h : b.Puts name x b') :
    b'.Clashes names ↔ name ∈ names ∨ b.Clashes names := by
  simp only [Clashes, h.contains_iff]
  constructor
  · rintro (hnodup | ⟨other, hother, rfl | hcontains⟩)
    · exact .inr (.inl hnodup)
    · exact .inl hother
    · exact .inr (.inr ⟨other, hother, hcontains⟩)
  · rintro (hname | hnodup | ⟨other, hother, hcontains⟩)
    · exact .inr ⟨name, hname, .inl rfl⟩
    · exact .inl hnodup
    · exact .inr ⟨other, hother, .inr hcontains⟩

theorem IsDeclared.of_find? (h : b.IsDeclared name) (hfind : b'.find? name = b.find? name) :
    b'.IsDeclared name := by
  obtain ⟨x, hx, hdeclared⟩ := h
  exact ⟨x, hfind.trans hx, hdeclared⟩

theorem IsVariable.of_find? (h : b.IsVariable name) (hfind : b'.find? name = b.find? name) :
    b'.IsVariable name := by
  obtain ⟨x, hx, hvariable⟩ := h
  exact ⟨x, hfind.trans hx, hvariable⟩

theorem IsVariable.isDeclared (h : b.IsVariable name) : b.IsDeclared name := by
  obtain ⟨x, hx, hdelete, hmutable, -⟩ := h
  exact ⟨x, hx, hdelete, hmutable⟩

theorem contains_of_find? (hx : b.find? name = some x) : b.contains name = true := by
  rw [contains, hx]
  rfl

end Bindings

namespace Action

variable (eng : Engine) {c : CallScope} {σ : State} {b : Bindings} (hc : σ.heap.Holds c b)

include hc

/-- An operation on variables that are the scope's own. -/
theorem declares_update {f : Bindings → Except BindingError Bindings} {b' : Bindings}
    (hf : f b = .ok b') : Declares c σ False (fun _ _ b₁ ↦ b₁ = b') (Scope.update c.ref b f) := by
  obtain ⟨hlt, hscope⟩ := hc
  refine ⟨False.elim, fun _ ↦ ?_⟩
  rw [Scope.update, hf]
  refine ⟨(), _, b', rfl, ?_, ⟨?_, ?_⟩, rfl⟩
  · exact {
      objects_le := Nat.le_refl _
      object_eq := fun _ _ ↦ rfl
      object_new := fun _ hle hlt ↦ absurd hlt (Nat.not_lt_of_le hle)
      cells_le := Nat.le_refl _
      cell_eq := fun _ _ ↦ rfl
      cell_new := fun _ hle hlt ↦ absurd hlt (Nat.not_lt_of_le hle) }
  · simpa [Heap.modifyScope] using hlt
  · rw [Heap.scope_modifyScope_self hlt, hscope]
    rfl

variable (name : String)

theorem declares_create (x : Binding) {m : Action Unit}
    (hm : m.run σ = (Scope.update c.ref b (·.create name x)).run σ) :
    Declares c σ (b.contains name = true) (fun _ _ b' ↦ b.Puts name x b') m := by
  by_cases hname : b.contains name = true
  · refine ⟨fun _ ↦ ?_, fun h ↦ absurd hname h⟩
    have hthrow : m.run σ = (throwNew (.redeclared name)).run σ := by
      rw [hm, Scope.update, Bindings.create, if_pos hname]
      rfl
    obtain ⟨heap, hgains, hrun⟩ := throws_raise (α := Unit) .redeclaration
      (ScriptError.redeclared name).message σ
    exact ⟨_, _, hthrow.trans hrun, hgains.error⟩
  · have hcreate : b.create name x = .ok (b.insert name x) := if_neg hname
    have hupdate := (declares_update hc (f := (·.create name x)) hcreate).of_run_eq hm
    refine (hupdate.mono fun _ _ _ _ _ heq ↦ ?_).congr (iff_of_false id hname)
    exact heq ▸ b.puts_insert name x

theorem declares_createMutable :
    Declares c σ (b.contains name = true)
      (fun _ _ b' ↦ b.Puts name ⟨none, false, true, false⟩ b')
      (Scope.createMutable eng c.ref name false) := by
  apply declares_create hc name
  rw [Scope.createMutable, run_bind, run_scope]
  dsimp only
  rw [hc.2]
  rfl

theorem declares_createImmutable (strict : Bool) :
    Declares c σ (b.contains name = true)
      (fun _ _ b' ↦ b.Puts name ⟨none, false, false, strict⟩ b')
      (Scope.createImmutable c.ref name strict) := by
  apply declares_create hc name
  rw [Scope.createImmutable, run_bind, run_scope]
  dsimp only
  rw [hc.2]
  rfl

variable {name} {x : Binding} (hx : b.find? name = some x) (v : Value)

include hx

theorem declares_initialise :
    Declares c σ False (fun _ _ b' ↦ b.Puts name { x with value := some v } b')
      (Scope.initialise eng c.ref name v) := by
  have hwrite : b.initialise name v = .ok (b.write name v) := if_pos (Bindings.contains_of_find? hx)
  refine ((declares_update hc (f := (·.initialise name v)) hwrite).of_run_eq ?_).mono
    fun _ _ _ _ _ heq ↦ heq ▸ Bindings.puts_write hx v
  rw [Scope.initialise, run_bind, run_scope]
  dsimp only
  rw [hc.2]

theorem declares_set (hmutable : x.isMutable = true) (hvalue : x.value.isSome) (strict : Bool) :
    Declares c σ False (fun _ _ b' ↦ b.Puts name { x with value := some v } b')
      (Scope.set eng c.ref name v strict) := by
  have hwrite : b.set name v strict = .ok (b.write name v) := by
    obtain ⟨w, hw⟩ := Option.isSome_iff_exists.1 hvalue
    simp [Bindings.set, hx, hw, hmutable]
  refine ((declares_update hc (f := (·.set name v strict)) hwrite).of_run_eq ?_).mono
    fun _ _ _ _ _ heq ↦ heq ▸ Bindings.puts_write hx v
  rw [Scope.set, run_bind, run_scope]
  dsimp only
  rw [hc.2]

omit hx

/-- A name that is declared and initialised at once. -/
theorem declares_createInitialised (name : String) :
    Declares c σ (b.contains name = true)
      (fun _ _ b' ↦ b.Puts name ⟨some v, false, true, false⟩ b') (do
        Scope.createMutable eng c.ref name false
        Scope.initialise eng c.ref name v) := by
  refine ((declares_createMutable eng hc name).bind False fun _ τ b' _ hb' hputs ↦ ?_).congr
    (or_iff_left id)
  exact (declares_initialise eng hb' hputs.1 v).mono fun _ _ _ _ _ hputs' ↦ hputs.trans hputs'

/-! ## Loops -/

/-- A loop that declares one item after the other, each under its key. -/
theorem declares_each {ι : Type} (key : ι → String) (made : ι → Binding) (step : ι → Action Unit)
    {loop : List ι → Action Unit} (hnil : loop [] = pure ())
    (hcons : ∀ i rest, loop (i :: rest) = (do step i; loop rest))
    (hstep : ∀ (i : ι) {τ : State} {b' : Bindings}, τ.heap.Holds c b' →
      Declares c τ (b'.contains (key i) = true) (fun _ _ b'' ↦ b'.Puts (key i) (made i) b'')
        (step i))
    (items : List ι) :
    Declares c σ (b.Clashes (items.map key))
      (fun _ _ b' ↦ (∀ i ∈ items, b'.find? (key i) = some (made i)) ∧ b.Keeps (items.map key) b')
      (loop items) := by
  induction items generalizing σ b with
  | nil =>
      rw [hnil]
      exact (declares_pure hc ⟨nofun, b.keeps_refl []⟩).congr (by simp [Bindings.Clashes])
  | cons i rest ih =>
      rw [hcons]
      refine ((hstep i hc).bind (key i ∈ rest.map key ∨ b.Clashes (rest.map key)) ?_).congr
        Bindings.clashes_cons.symm
      rintro _ τ b' - hb' hputs
      apply ((ih hb').congr hputs.clashes_iff).mono
      rintro _ h b'' hclash - ⟨hmade, hkeeps⟩
      refine ⟨fun j hj ↦ ?_, hputs.keeps_cons hkeeps⟩
      rcases List.mem_cons.1 hj with rfl | hj
      · rw [hkeeps _ fun hmem ↦ hclash (.inl hmem)]
        exact hputs.1
      · exact hmade j hj

/-- Names that are new, and differ, do not clash. -/
theorem declares_new (x : Binding) {step : String → Action Unit}
    {loop : List String → Action Unit} (hnil : loop [] = pure ())
    (hcons : ∀ name rest, loop (name :: rest) = (do step name; loop rest))
    (hstep : ∀ (name : String) {τ : State} {b' : Bindings}, τ.heap.Holds c b' →
      Declares c τ (b'.contains name = true) (fun _ _ b'' ↦ b'.Puts name x b'') (step name))
    {names : List String} (hnodup : names.Nodup) (hnew : ∀ name ∈ names, b.find? name = none) :
    Declares c σ False
      (fun _ _ b' ↦ (∀ name ∈ names, b'.find? name = some x) ∧ b.Keeps names b') (loop names) := by
  have heach := declares_each hc id (fun _ ↦ x) step hnil hcons hstep names
  rw [List.map_id] at heach
  refine heach.congr (iff_of_false ?_ id)
  rintro (hdup | ⟨name, hname, hcontains⟩)
  · exact hdup hnodup
  · simp [Bindings.contains, hnew name hname] at hcontains

end Action

namespace Function

open Ecma.Action

/-- What a call does with one parameter. -/
def bindParam (eng : Engine) (s : ScopeRef) (strict : Bool) (bound : List String) (name : String)
    (v : Value) : Action Unit :=
  if bound.contains name then Scope.set eng s name v strict else Scope.initialise eng s name v

theorem bindParams_cons (eng : Engine) (s : ScopeRef) (strict : Bool) (bound : List String)
    (name : String) (rest : List String) (args : List Value) :
    bindParams eng s strict bound (name :: rest) args = (do
      bindParam eng s strict bound name (args.headD .undefined)
      bindParams eng s strict (name :: bound) rest args.tail) := by
  rw [bindParams, bindParam]
  split <;> rfl

/-- What a call does with a function that it has made. -/
def place (eng : Engine) (s : ScopeRef) (seen : List String) (name : String) (v : Value) :
    Action Unit :=
  if seen.contains name then Scope.set eng s name v false
  else do
    Scope.createMutable eng s name false
    Scope.initialise eng s name v

theorem createFunctions_cons_none (eng : Engine) (s : ScopeRef) (seen : List String)
    {f : FunctionNode} {rest : List FunctionNode} (hname : f.name? = none) :
    createFunctions eng s seen (f :: rest) = createFunctions eng s seen rest := by
  rw [createFunctions, hname]

theorem createFunctions_cons_some (eng : Engine) (s : ScopeRef) (seen : List String)
    {f : FunctionNode} {rest : List FunctionNode} {name : String} (hname : f.name? = some name) :
    createFunctions eng s seen (f :: rest) = (do
      let closure ← instantiate f s none
      place eng s seen name closure
      createFunctions eng s (name :: seen) rest) := by
  rw [createFunctions, hname]
  dsimp only [place]
  split
  · rfl
  · simp only [bind_assoc]

variable (eng : Engine) {c : CallScope} {σ : State} {b : Bindings} (hc : σ.heap.Holds c b)

include hc

theorem declares_createAll {names : List String} (hnodup : names.Nodup)
    (hnew : ∀ name ∈ names, b.find? name = none) :
    Declares c σ False
      (fun _ _ b' ↦ (∀ name ∈ names, b'.find? name = some ⟨none, false, true, false⟩) ∧
        b.Keeps names b') (createAll eng c.ref names) :=
  declares_new hc _ rfl (fun _ _ ↦ rfl)
    (fun name _ _ hb ↦ declares_createMutable eng hb name) hnodup hnew

theorem declares_createVars {names : List String} (hnodup : names.Nodup)
    (hnew : ∀ name ∈ names, b.find? name = none) :
    Declares c σ False
      (fun _ _ b' ↦ (∀ name ∈ names, b'.find? name = some ⟨some .undefined, false, true, false⟩) ∧
        b.Keeps names b') (createVars eng c.ref names) :=
  declares_new hc _ rfl (fun _ _ ↦ by rw [createVars, bind_assoc])
    (fun name _ _ hb ↦ declares_createInitialised eng hb .undefined name) hnodup hnew

theorem declares_createLexical (lexical : List LexicalName) :
    Declares c σ (b.Clashes (lexical.map LexicalName.name))
      (fun _ _ b' ↦
        (∀ l ∈ lexical, b'.find? l.name = some ⟨none, false, !l.isConstant, l.isConstant⟩) ∧
        b.Keeps (lexical.map LexicalName.name) b')
      (createLexical eng c.ref lexical) := by
  refine declares_each hc LexicalName.name (fun l ↦ ⟨none, false, !l.isConstant, l.isConstant⟩)
    (fun l ↦ if l.isConstant then Scope.createImmutable c.ref l.name true
      else Scope.createMutable eng c.ref l.name false) rfl (fun l rest ↦ ?_) (fun l τ b' hb ↦ ?_)
    lexical
  · rw [createLexical]
    split <;> rfl
  · split
    next hconstant =>
      rw [hconstant]
      exact declares_createImmutable hb l.name true
    next hconstant =>
      rw [Bool.eq_false_iff.2 hconstant]
      exact declares_createMutable eng hb l.name

/-- The first parameter of a name is initialised, a later one is assigned. -/
theorem declares_bindParam (strict : Bool) {bound : List String} {name : String}
    (hname : b.IsDeclared name) (hbound : name ∈ bound → b.IsVariable name) (v : Value) :
    Declares c σ False
      (fun _ _ b' ↦ ∃ x, x.value = some v ∧ b.Puts name x b' ∧ b'.IsVariable name)
      (bindParam eng c.ref strict bound name v) := by
  obtain ⟨x, hx, hdelete, hmutable⟩ := hname
  have hputs {b' : Bindings} (h : b.Puts name { x with value := some v } b') :
      ∃ x, x.value = some v ∧ b.Puts name x b' ∧ b'.IsVariable name :=
    ⟨_, rfl, h, _, h.1, hdelete, hmutable, rfl⟩
  unfold bindParam
  split
  next hmem =>
    obtain ⟨x', hx', -, -, hvalue⟩ := hbound (List.contains_iff_mem.1 hmem)
    cases Option.some.inj (hx.symm.trans hx')
    exact (declares_set eng hc hx v hmutable hvalue strict).mono fun _ _ _ _ _ h ↦ hputs h
  next => exact (declares_initialise eng hc hx v).mono fun _ _ _ _ _ h ↦ hputs h

/-- Each parameter gets the argument at its last place. -/
theorem declares_bindParams (strict : Bool) {bound names : List String} (args : List Value)
    (hnames : ∀ name ∈ names, b.IsDeclared name ∧ (name ∈ bound → b.IsVariable name)) :
    Declares c σ False
      (fun _ _ b' ↦ (∀ name ∈ names, b'.IsVariable name) ∧
        (∀ i name, names[i]? = some name → name ∉ names.drop (i + 1) →
          b'.value? name = some (args.getD i .undefined)) ∧ b.Keeps names b')
      (bindParams eng c.ref strict bound names args) := by
  induction names generalizing σ b bound args with
  | nil => exact declares_pure hc ⟨nofun, nofun, b.keeps_refl []⟩
  | cons name rest ih =>
      rw [bindParams_cons]
      obtain ⟨hname, hbound⟩ := hnames name List.mem_cons_self
      apply (declares_bindParam eng hc strict hname hbound _).seq
      rintro _ τ b' - hb' ⟨x, hx, hputs, hvariable⟩
      have hrest (other : String) (hother : other ∈ rest) :
          b'.IsDeclared other ∧ (other ∈ name :: bound → b'.IsVariable other) := by
        obtain ⟨hdeclared, hbefore⟩ := hnames other (List.mem_cons_of_mem _ hother)
        by_cases heq : other = name
        · rw [heq]
          exact ⟨hvariable.isDeclared, fun _ ↦ hvariable⟩
        · have hfind := hputs.2 other heq
          exact ⟨hdeclared.of_find? hfind, fun hmem ↦
            (hbefore (List.mem_of_ne_of_mem heq hmem)).of_find? hfind⟩
      apply (ih hb' args.tail hrest).mono
      rintro _ h b'' - - ⟨hvariables, hvalues, hkeeps⟩
      refine ⟨fun other hother ↦ ?_, fun i other hi hlast ↦ ?_, hputs.keeps_cons hkeeps⟩
      · by_cases hmem : other ∈ rest
        · exact hvariables other hmem
        · obtain rfl := (List.mem_cons.1 hother).resolve_right hmem
          exact hvariable.of_find? (hkeeps other hmem)
      · -- The last place is the first of the list, or a place in the rest of it.
        cases i with
        | zero =>
            obtain rfl : name = other := by simpa using hi
            rw [Bindings.value?, hkeeps name (by simpa using hlast), hputs.1, Option.bind_some, hx]
            cases args <;> rfl
        | succ i =>
            rw [hvalues i other (by simpa using hi) (by simpa using hlast)]
            cases args <;> rfl

/-- A closure over the scope is made. -/
theorem declares_instantiate (f : FunctionNode) :
    Declares c σ False (fun v h b' ↦ b' = b ∧ c.IsClosure f h v) (instantiate f c.ref none) := by
  let strict := (σ.heap.scope c.ref).isStrict || Tree.isStrict f.body
  let shown := f.name?.getD ""
  obtain ⟨o, τ, hrun, hgrows, -⟩ := allocates_create (H := unboundHost)
    (f := .closure f c.ref strict) trivial shown f.params.length σ σ.heap.grows_refl
  have hinstantiate : (instantiate f c.ref none).run σ = (.ok (.object o), τ) := by
    change (do return .object (← create (.closure f c.ref strict) shown f.params.length) :
      Action Value).run σ = _
    rw [run_bind, hrun]
    rfl
  have hscopes := scopes_run_create (.closure f c.ref strict) shown f.params.length σ
  rw [hrun] at hscopes
  have hcallable : (τ.heap.object o).callable =
      some (.closure f c.ref (c.isStrict || Tree.isStrict f.body)) := by
    rw [callable_run_create hrun]
    simp only [strict, hc.2]
  have hlt : o.index < τ.heap.objects.size := by
    by_contra hge
    rw [Heap.callable_of_le (Nat.le_of_not_lt hge)] at hcallable
    cases hcallable
  exact ⟨False.elim, fun _ ↦ ⟨_, τ, b, hinstantiate, hgrows, hc.of_scopes hscopes, rfl, o, rfl, hlt,
    hcallable⟩⟩

/-- A name that is there already is assigned, another is declared. -/
theorem declares_place {seen : List String} {name : String}
    (hseen : name ∈ seen → b.IsVariable name) (v : Value) :
    Declares c σ (name ∉ seen ∧ b.contains name = true)
      (fun _ _ b' ↦ ∃ x, x.value = some v ∧ b.Puts name x b') (place eng c.ref seen name v) := by
  unfold place
  split
  next hmem =>
    have hmem := List.contains_iff_mem.1 hmem
    obtain ⟨x, hx, -, hmutable, hvalue⟩ := hseen hmem
    have hset := declares_set eng hc hx v hmutable hvalue false
    refine (hset.mono fun _ _ _ _ _ hputs ↦ ?_).congr (iff_of_false id fun h ↦ h.1 hmem)
    exact ⟨_, rfl, hputs⟩
  next hmem =>
    have hmem : name ∉ seen := fun h ↦ hmem (List.contains_iff_mem.2 h)
    have hcreate := declares_createInitialised eng hc v name
    refine (hcreate.mono fun _ _ _ _ _ hputs ↦ ?_).congr (and_iff_right hmem).symm
    exact ⟨_, rfl, hputs⟩

/-- Each function ends up under its name, which is declared if it is not there. -/
theorem declares_createFunctions {seen : List String} {fs : List FunctionNode}
    (hdistinct : (fs.filterMap FunctionNode.name?).Nodup)
    (hseen : ∀ name ∈ fs.filterMap FunctionNode.name?, name ∈ seen → b.IsVariable name) :
    Declares c σ
      (∃ name ∈ fs.filterMap FunctionNode.name?, name ∉ seen ∧ b.contains name = true)
      (fun _ h b' ↦
        (∀ f ∈ fs, ∀ name, f.name? = some name → ∃ v, b'.value? name = some v ∧ c.IsClosure f h v) ∧
        b.Keeps (fs.filterMap FunctionNode.name?) b')
      (createFunctions eng c.ref seen fs) := by
  induction fs generalizing σ b seen with
  | nil => exact (declares_pure hc ⟨nofun, b.keeps_refl []⟩).congr (by simp)
  | cons f rest ih =>
      cases hname : f.name? with
      | none =>
          rw [createFunctions_cons_none eng c.ref seen hname]
          rw [List.filterMap_cons_none hname] at hdistinct hseen ⊢
          refine (ih hc hdistinct hseen).mono fun _ h b' _ _ hrest ↦ ⟨?_, hrest.2⟩
          intro g hg name hgname
          rcases List.mem_cons.1 hg with rfl | hg
          · cases hname.symm.trans hgname
          · exact hrest.1 g hg name hgname
      | some name =>
          rw [createFunctions_cons_some eng c.ref seen hname]
          rw [List.filterMap_cons_some hname] at hdistinct hseen ⊢
          obtain ⟨hnew, hdistinct⟩ := List.nodup_cons.1 hdistinct
          -- The names of the other functions are not touched, and are as they were.
          have hne {other : String} (hother : other ∈ rest.filterMap FunctionNode.name?) :
              other ≠ name := fun heq ↦ hnew (heq ▸ hother)
          apply (declares_instantiate hc f).seq
          rintro v τ b₁ - hb ⟨heq, hv⟩
          rw [heq] at hb
          refine ((declares_place eng hb (hseen name List.mem_cons_self) v).bind
            (∃ other ∈ rest.filterMap FunctionNode.name?, other ∉ seen ∧
              b.contains other = true) ?_).congr (by rw [List.exists_mem_cons_iff])
          rintro _ τ' b' hgrows hb' ⟨x, hx, hputs⟩
          have hrest := ih hb' hdistinct fun other hother (hmem : other ∈ name :: seen) ↦
            (hseen other (List.mem_cons_of_mem _ hother)
              (List.mem_of_ne_of_mem (hne hother) hmem)).of_find? (hputs.2 other (hne hother))
          refine (hrest.congr (exists_congr fun other ↦ and_congr_right fun hother ↦ ?_)).mono ?_
          · rw [hputs.contains_iff, List.mem_cons, or_iff_right (hne hother),
              or_iff_right (hne hother)]
          · rintro _ h b'' - hgrows' ⟨hclosures, hkeeps⟩
            refine ⟨fun g hg other hother ↦ ?_, hputs.keeps_cons hkeeps⟩
            rcases List.mem_cons.1 hg with rfl | hg
            · cases hname.symm.trans hother
              refine ⟨v, ?_, hv.grows (hgrows.trans hgrows')⟩
              rw [Bindings.value?, hkeeps name hnew, hputs.1]
              exact hx
            · exact hclosures g hg other hother

/-- An object that was not there before is put under `arguments`. -/
theorem declares_newArguments {makeObject : Action ObjectRef} {makeName : Action Unit} {x : Binding}
    (hobject : Allocates unboundHost σ.heap (IsNew σ.heap) makeObject)
    (hscopes : (makeObject.run σ).2.heap.scopes = σ.heap.scopes)
    (hname : ∀ {τ : State}, τ.heap.Holds c b → Declares c τ (b.contains argumentsName = true)
      (fun _ _ b' ↦ b.Puts argumentsName x b') makeName)
    (hnew : b.find? argumentsName = none) :
    Declares c σ False
      (fun _ _ b' ↦ ∃ o : ObjectRef, σ.heap.objects.size ≤ o.index ∧
        b.Puts argumentsName { x with value := some (.object o) } b') (do
        let o ← makeObject
        makeName
        Scope.initialise eng c.ref argumentsName (.object o)) := by
  have habsent : ¬b.contains argumentsName = true := by simp [Bindings.contains, hnew]
  obtain ⟨o, τ, hrun, hgrows, -, ho⟩ := hobject σ σ.heap.grows_refl
  rw [hrun] at hscopes
  have hmake : Declares c σ False (fun o' _ b' ↦ o' = o ∧ b' = b) makeObject :=
    ⟨False.elim, fun _ ↦ ⟨o, τ, b, hrun, hgrows, hc.of_scopes hscopes, rfl, rfl⟩⟩
  apply hmake.seq
  rintro _ τ₁ b₁ - hb₁ ⟨rfl, rfl⟩
  refine ((hname hb₁).congr (iff_of_false habsent id)).seq fun _ τ₂ b₂ _ hb₂ hputs ↦ ?_
  refine (declares_initialise eng hb₂ hputs.1 _).mono fun _ _ b' _ _ hputs' ↦ ?_
  exact ⟨_, ho, hputs.trans hputs'⟩

theorem declares_createArguments (callee : ObjectRef) (f : FunctionNode) (strict : Bool)
    (args : List Value) (hnew : b.find? argumentsName = none) :
    Declares c σ False
      (fun _ _ b' ↦ ∃ x, (∃ o : ObjectRef, σ.heap.objects.size ≤ o.index ∧
        x.value = some (.object o)) ∧ b.Puts argumentsName x b')
      (createArguments eng callee f c.ref strict args) := by
  cases strict with
  | false =>
      have hobject : Allocates unboundHost σ.heap (IsNew σ.heap)
          (Arguments.createMapped callee f.params args c.ref) :=
        Arguments.allocates_createMapped callee f.params args c.ref
      refine (declares_newArguments eng hc hobject rfl
        (fun hb ↦ declares_createMutable eng hb argumentsName) hnew).mono ?_
      exact fun _ _ _ _ _ ⟨o, ho, hputs⟩ ↦ ⟨_, ⟨o, ho, rfl⟩, hputs⟩
  | true =>
      have hobject : Allocates unboundHost σ.heap (IsNew σ.heap)
          (Arguments.createUnmapped args) := Arguments.allocates_createUnmapped args
      refine (declares_newArguments eng hc hobject rfl
        (fun hb ↦ declares_createImmutable hb argumentsName false) hnew).mono ?_
      exact fun _ _ _ _ _ ⟨o, ho, hputs⟩ ↦ ⟨_, ⟨o, ho, rfl⟩, hputs⟩

end Function

end Ecma
