import Ecma.Proofs.LazyResolution
import Ecma.Proofs.OwnKeyOrder
import Ecma.Proofs.PropertyPatches
import Ecma.Proofs.PrototypeChains
import Mathlib.Data.List.ReduceOption

/-!
# Enumerations

An enumeration gives the text keys of an object and of its prototypes, one for
each call, while anything may be done to the objects between the calls.  No key
is given twice, and each is that of an enumerable property when it is looked at.
Where nothing is done between the calls, the keys are those of the objects along
the chain in their order, less those that an object before them has.

To look at a lazy property is to resolve it.  A resolver that runs code may
remove the very property that is being looked at, and the key is given all the
same; what is said of the moment after the call, and of enumerations that nothing
disturbs, is said of resolvers that read data and lazy properties only.
-/

namespace Ecma

/-! ## One call -/

namespace Object

variable {n : Nat} {o : ObjectRef} {k : PropertyKey} {shown : Descriptor} {σ τ : State}

/-- What is shown of a property has the attributes of the property. -/
theorem exists_own?_of_run_getOwn {eng : Engine}
    (hrun : (getOwn eng o k).run σ = (.ok (some shown), τ)) :
    ∃ d, σ.heap.own? o k = some d ∧ d.isEnumerable = shown.isEnumerable := by
  rw [run_getOwn] at hrun
  split at hrun
  · cases hrun
  next a c hown =>
    split at hrun
    · cases hrun
      exact ⟨_, hown, rfl⟩
    · cases hrun
  next a scope name hown =>
    cases hrun
    exact ⟨_, hown, rfl⟩
  next hown =>
    cases hrun
    exact ⟨_, hown, rfl⟩

/-- A property is still there when it has been looked at, unless its resolver ran code. -/
theorem isEnumerable_of_run_getOwn (hσ : σ.heap.IsStored)
    (hplain : σ.heap.AwaitsResolver o k → ∃ depth, σ.heap.ResolversReadPlainly depth)
    (hrun : (getOwn (.level n) o k).run σ = (.ok (some shown), τ)) :
    ∃ d, τ.heap.own? o k = some d ∧ d.isEnumerable = shown.isEnumerable := by
  obtain ⟨⟨a, form⟩, hown, henumerable⟩ := exists_own?_of_run_getOwn hrun
  by_cases hlazy : ∃ c, form = .lazy c
  · obtain ⟨c, rfl⟩ := hlazy
    cases hc : σ.heap.cell c with
    | resolved v =>
        rw [run_getOwn_lazy_eq _ hown, Lazy.run_resolve, hc] at hrun
        cases hrun
        have ho := Heap.lt_of_own? hown
        exact ⟨_, Heap.own?_memoize ho (hσ o ho).valid hown v, henumerable⟩
    | resolving =>
        rw [run_getOwn_lazy_eq _ hown, Lazy.run_resolve, hc] at hrun
        cases hrun
    | unresolved r =>
        obtain ⟨depth, hreads⟩ := hplain ⟨a, c, r, hown, hc⟩
        obtain ⟨ρ, -, -, ⟨v, -, -, hvalue, hrun'⟩ | ⟨-, -, hrun'⟩ | ⟨hrun', -⟩⟩ :=
          run_getOwn_lazy (Engine.readsAlong_level depth n) (hσ.isPlain hreads) hown
        · cases hrun.symm.trans hrun'
          exact ⟨_, hvalue, rfl⟩
        · cases hrun.symm.trans hrun'
        · cases hrun.symm.trans hrun'
  · rw [run_getOwn_shown _ hown fun c hc ↦ hlazy ⟨c, hc⟩] at hrun
    cases hrun
    exact ⟨_, hown, henumerable⟩

end Object

/-- The key has been looked at on the object last of all, and the property was enumerable then;
it is so still, unless its resolver has run code. -/
def State.Shows (n : Nat) (o : ObjectRef) (t : Text) (τ : State) : Prop :=
  ∃ ρ shown, (Object.getOwn (.level n) o (.string t)).run ρ = (.ok (some shown), τ) ∧
    (∃ d, ρ.heap.own? o (.string t) = some d ∧ d.isEnumerable = true) ∧
    ((ρ.heap.AwaitsResolver o (.string t) → ∃ depth, ρ.heap.ResolversReadPlainly depth) →
      ∃ d, τ.heap.own? o (.string t) = some d ∧ d.isEnumerable = true)

namespace ForIn

variable {n m : Nat} {o : ObjectRef} {σ τ : State} {it it' : ForIn} {visited texts : List Text}

/-- What a search may come to: a key that has not been visited, or nothing.  What has been visited
stays so. -/
def Found.Extends (n : Nat) (o : ObjectRef) (visited : List Text) (τ : State) : Found → Prop
  | .key t _ visited' => t ∉ visited ∧ t ∈ visited' ∧ visited ⊆ visited' ∧ τ.Shows n o t
  | .exhausted visited' => visited ⊆ visited'

theorem extends_of_run_search (hσ : σ.heap.IsStored) {found : Found}
    (hrun : (search (.level n) o visited texts).run σ = (.ok found, τ)) :
    found.Extends n o visited τ ∧ τ.heap.IsStored := by
  induction texts generalizing σ visited with
  | nil =>
      cases hrun
      exact ⟨List.Subset.refl _, hσ⟩
  | cons t rest ih =>
      rw [search] at hrun
      split at hrun
      next => exact ih hσ hrun
      next hfresh =>
        obtain ⟨read, ρ, hread, hrun⟩ := Action.run_bind_eq_ok hrun
        have hgovern := (storing.lawful.governs_level n).toHolds
        have hρ := (storing.keeps_getOwn hgovern o _).allows hσ hread
        -- A key that is not enumerable is visited too, and one that is gone is passed over.
        cases read with
        | none => exact ih hρ.good hrun
        | some shown =>
            dsimp only at hrun
            split at hrun
            next henumerable =>
              cases hrun
              obtain ⟨d, hown, hd⟩ := Object.exists_own?_of_run_getOwn hread
              refine ⟨⟨by simpa using hfresh, List.mem_cons_self, List.subset_cons_self _ _, σ,
                shown, hread, ⟨d, hown, hd.trans henumerable⟩, fun hplain ↦ ?_⟩, hρ.good⟩
              obtain ⟨d', hown', hd'⟩ := Object.isEnumerable_of_run_getOwn hσ hplain hread
              exact ⟨d', hown', hd'.trans henumerable⟩
            next =>
              obtain ⟨hfound, hτ⟩ := ih hρ.good hrun
              refine ⟨?_, hτ⟩
              cases found with
              | key t' remaining visited' =>
                  obtain ⟨hnew, hmem, hsub, hshows⟩ := hfound
                  exact ⟨fun h ↦ hnew (List.mem_cons_of_mem _ h), hmem,
                    List.Subset.trans (List.subset_cons_self _ _) hsub, hshows⟩
              | exhausted visited' => exact List.Subset.trans (List.subset_cons_self _ _) hfound

/-- A call looks through the keys of the object where it stands, listing them first if need be,
and goes on with the prototype. -/
theorem run_nextFrom (eng : Engine) (n : Nat) (o : ObjectRef) (remaining : Option (List Text))
    (visited : List Text) (σ : State) :
    (nextFrom eng (n + 1) ⟨some o, remaining, visited⟩).run σ =
      match (search eng o visited (remaining.getD (σ.heap.object o).ownTexts)).run σ with
      | (.error e, τ) => (.error e, τ)
      | (.ok (.key t remaining' visited'), τ) =>
        (.ok (some t, ⟨some o, some remaining', visited'⟩), τ)
      | (.ok (.exhausted visited'), τ) =>
        (nextFrom eng n ⟨(τ.heap.object o).prototype, none, visited'⟩).run τ := by
  have hsearch (texts : List Text) :
      (do
        match ← search eng o visited texts with
        | .key t remaining visited => return (some t, ⟨some o, some remaining, visited⟩)
        | .exhausted visited =>
          nextFrom eng n ⟨(← Action.object o).prototype, none, visited⟩ :
          Action (Option Text × ForIn)).run σ =
      match (search eng o visited texts).run σ with
      | (.error e, τ) => (.error e, τ)
      | (.ok (.key t remaining' visited'), τ) =>
        (.ok (some t, ⟨some o, some remaining', visited'⟩), τ)
      | (.ok (.exhausted visited'), τ) =>
        (nextFrom eng n ⟨(τ.heap.object o).prototype, none, visited'⟩).run τ := by
    rw [Action.run_bind]
    rcases (search eng o visited texts).run σ with
      ⟨e | ⟨t, remaining', visited'⟩ | visited', τ⟩ <;> rfl
  cases remaining with
  | some texts => exact hsearch texts
  | none => exact hsearch _

/-- The key that a call gives, if any, has not been visited before and is so from then on. -/
structure Advances (n : Nat) (it : ForIn) (answer : Option Text) (it' : ForIn) (τ : State) :
    Prop where
  visited : it.visited ⊆ it'.visited
  fresh : ∀ t, answer = some t → t ∉ it.visited ∧ t ∈ it'.visited
  shows : ∀ t, answer = some t → ∃ o, it'.object = some o ∧ τ.Shows n o t

theorem advances_of_run_nextFrom (hσ : σ.heap.IsStored) {answer : Option Text}
    (hrun : (nextFrom (.level n) m it).run σ = (.ok (answer, it'), τ)) :
    it.Advances n answer it' τ := by
  induction m generalizing it σ with
  | zero => cases hrun
  | succ m ih =>
      obtain ⟨object, remaining, visited⟩ := it
      cases object with
      | none =>
          cases hrun
          exact ⟨List.Subset.refl _, nofun, nofun⟩
      | some o =>
          rw [run_nextFrom] at hrun
          rcases hsearch : (search (.level n) o visited _).run σ with
            ⟨e | ⟨t, remaining', visited'⟩ | visited', ρ⟩
          · rw [hsearch] at hrun
            cases hrun
          · rw [hsearch] at hrun
            cases hrun
            obtain ⟨⟨hnew, hmem, hsub, hshows⟩, -⟩ := extends_of_run_search hσ hsearch
            refine ⟨hsub, ?_, ?_⟩
            · rintro _ ⟨⟩
              exact ⟨hnew, hmem⟩
            · rintro _ ⟨⟩
              exact ⟨o, rfl, hshows⟩
          · rw [hsearch] at hrun
            obtain ⟨hsub, hρ⟩ := extends_of_run_search hσ hsearch
            have hrest := ih hρ hrun
            refine ⟨List.Subset.trans hsub hrest.visited, fun t ht ↦ ?_, hrest.shows⟩
            obtain ⟨hnew, hmem⟩ := hrest.fresh t ht
            exact ⟨fun h ↦ hnew (hsub h), hmem⟩

/-! ## Calls in turn -/

/-- The answers of an enumeration that is called again and again, with what `between` allows done
before each call.  A call that fails gives nothing, and what has been visited stays so. -/
inductive Calls (eng : Engine) (between : State → State → Prop) (o : ObjectRef) (σ : State) :
    List (Option Text) → State → ForIn → Prop
  | start : Calls eng between o σ [] σ (.start o)
  | answer {answers : List (Option Text)} {ρ ρ' τ : State} {it it' : ForIn} {answer : Option Text}
      (hcalls : Calls eng between o σ answers ρ it) (hbetween : between ρ ρ')
      (hrun : (it.next eng).run ρ' = (.ok (answer, it'), τ)) :
      Calls eng between o σ (answers ++ [answer]) τ it'
  | failure {answers : List (Option Text)} {ρ ρ' τ : State} {it it' : ForIn} {e : Failure}
      (hcalls : Calls eng between o σ answers ρ it) (hbetween : between ρ ρ')
      (hrun : (it.next eng).run ρ' = (.error e, τ)) (hvisited : it.visited ⊆ it'.visited) :
      Calls eng between o σ answers τ it'

/-- The keys given so far are distinct and have been visited. -/
theorem Calls.nodup_and_subset {answers : List (Option Text)}
    (hcalls : Calls (.level n) (fun _ ρ ↦ ρ.heap.IsStored) o σ answers τ it) :
    answers.reduceOption.Nodup ∧ answers.reduceOption ⊆ it.visited := by
  induction hcalls with
  | start => exact ⟨List.nodup_nil, List.nil_subset _⟩
  | @answer answers ρ ρ' τ it it' answer _ hρ' hrun ih =>
      obtain ⟨hnodup, hsub⟩ := ih
      have hadvances := advances_of_run_nextFrom hρ' hrun
      rw [List.reduceOption_append]
      cases answer with
      | none =>
          rw [List.reduceOption_singleton, Option.toList_none, List.append_nil]
          exact ⟨hnodup, List.Subset.trans hsub hadvances.visited⟩
      | some t =>
          obtain ⟨hnew, hmem⟩ := hadvances.fresh t rfl
          rw [List.reduceOption_singleton, Option.toList_some]
          constructor
          · exact hnodup.append (List.nodup_singleton t)
              (List.disjoint_singleton.2 fun h ↦ hnew (hsub h))
          · exact List.append_subset.2
              ⟨List.Subset.trans hsub hadvances.visited, by simpa using hmem⟩
  | failure _ _ _ hvisited ih => exact ⟨ih.1, List.Subset.trans ih.2 hvisited⟩

end ForIn

/-! ## Marks of cells -/

/-- Unless the fuel ran out, only cells that were marked before are marked. -/
def LeavesMarks {α : Type} (σ : State) (r : Except Failure α × State) : Prop :=
  r.1 ≠ .error (.fault .outOfFuel) →
    ∀ c, r.2.heap.cell c = .resolving → σ.heap.cell c = .resolving

def Engine.LeavesMarks (depth : Nat) (eng : Engine) : Prop :=
  ∀ (pending : List CellRef) (σ : State) o k receiver, σ.heap.IsPlain depth pending →
    σ.heap.ReadsPlainly k depth o → Ecma.LeavesMarks σ ((eng.get o k receiver).run σ)

theorem LeavesMarks.bind {α β : Type} {m : Action α} {f : α → Action β} {σ : State}
    (hm : LeavesMarks σ (m.run σ))
    (hf : ∀ a τ, m.run σ = (.ok a, τ) → LeavesMarks τ ((f a).run τ)) :
    LeavesMarks σ ((m >>= f).run σ) := by
  rw [Action.run_bind]
  rcases hrun : m.run σ with ⟨e | a, τ⟩
  · rw [hrun] at hm
    exact fun he ↦ hm fun h ↦ he (congrArg _ (Except.error.inj h))
  · rw [hrun] at hm
    exact fun he c hc ↦ hm nofun c (hf a τ hrun he c hc)

section Marks

variable {depth : Nat} {eng : Engine} (hreads : eng.ReadsAlong depth) (heng : eng.LeavesMarks depth)
  {pending : List CellRef} {σ : State} (hσ : σ.heap.IsPlain depth pending)

include hreads heng hσ

omit hreads in
theorem Lazy.leavesMarks_readApart {o : ObjectRef} {k : PropertyKey}
    (ho : σ.heap.ReadsPlainly k depth o) : LeavesMarks σ ((readApart eng o k).run σ) := by
  have hs : σ.heap.Settles σ.beside.heap := .build _ _
  have hbeside := hσ.settles hs
    (Heap.AllConform.of_grows hσ.stored (fun _ _ ↦ trivial) (Realm.grows_build _ σ.heap))
  have hinner := heng pending σ.beside o k (.object o) hbeside (ho.settles hs)
  rw [run_readApart]
  generalize (eng.get o k (.object o)).run σ.beside = r at hinner
  obtain ⟨result, inner⟩ := r
  dsimp only [report]
  split
  · exact fun _ ↦ hinner nofun
  · exact fun h ↦ absurd rfl h
  next hfuel => exact fun _ ↦ hinner fun h ↦ hfuel (Except.error.inj h)

theorem Lazy.leavesMarks_runSteps {steps : List ResolverStep}
    (hsteps : ∀ o k, .read o k ∈ steps → σ.heap.ReadsPlainly k depth o) :
    LeavesMarks σ ((runSteps eng steps).run σ) := by
  induction steps generalizing σ with
  | nil => exact fun _ _ h ↦ h
  | cons step rest ih =>
      rw [runSteps]
      cases step with
      | log line =>
          refine LeavesMarks.bind (fun _ _ h ↦ h) fun _ τ hrun ↦ ?_
          cases hrun
          exact ih hσ fun o k hread ↦ hsteps o k (List.mem_cons_of_mem _ hread)
      | read o k =>
          have ho := hsteps o k List.mem_cons_self
          have hread := readsOnly_readApart hreads hσ ho
          refine (leavesMarks_readApart heng hσ ho).bind fun _ τ hrun ↦ ?_
          rw [hrun] at hread
          refine ih (hσ.settles hread.settles hread.stored) fun o k hread' ↦ ?_
          exact (hsteps o k (List.mem_cons_of_mem _ hread')).settles hread.settles

/-- The mark of a cell is taken off when its resolver is done. -/
theorem Lazy.leavesMarks_resolve (c : CellRef) (key : String) :
    LeavesMarks σ ((resolve eng c key).run σ) := by
  rw [run_resolve]
  split
  · exact fun _ _ h ↦ h
  · exact fun _ _ h ↦ h
  next r hc =>
    have hplain := hσ.marking hc
    have hpending (o : ObjectRef) (k : PropertyKey) (hread : .read o k ∈ r.steps) :
        (σ.marking c).heap.ReadsPlainly k depth o :=
      (hσ.reads c r hc o k hread).settles (.of_marking hc)
    have hmarks := leavesMarks_runSteps (σ := σ.marking c) hreads heng hplain hpending
    have hsteps := readsOnly_runSteps (σ := σ.marking c) hreads hplain hpending
    rcases hrun : (runSteps eng r.steps).run (σ.marking c) with ⟨e | _, τ⟩
    · rw [hrun] at hsteps
      exact fun he ↦ absurd (congrArg _ (hsteps.fails e rfl).1) he
    · rw [hrun] at hmarks hsteps
      intro _ c' hc'
      have hne : c' ≠ c := by
        rintro rfl
        rw [Heap.cell_setCell_self (hsteps.settles.cells.cell_of_marked hc).1] at hc'
        cases hc'
      rw [Heap.cell_setCell_of_ne _ hne] at hc'
      have hmarked := hmarks nofun c' hc'
      rwa [State.marking, Heap.cell_setCell_of_ne _ hne] at hmarked

theorem Object.leavesMarks_getOwn (o : ObjectRef) (k : PropertyKey) :
    LeavesMarks σ ((getOwn eng o k).run σ) := by
  rw [run_getOwn]
  split
  · exact fun _ _ h ↦ h
  next a c _ =>
    have hresolve := Lazy.leavesMarks_resolve hreads heng hσ c k.display
    split
    next hrun =>
      rw [hrun] at hresolve
      exact fun _ ↦ hresolve nofun
    next e _ hrun =>
      rw [hrun] at hresolve
      exact fun he ↦ hresolve fun h ↦ he (congrArg _ (Except.error.inj h))
  · exact fun _ _ h ↦ h
  · exact fun _ _ h ↦ h

theorem Object.leavesMarks_get {o : ObjectRef} {k : PropertyKey}
    (ho : σ.heap.ReadsPlainly k depth o) (receiver : Value) :
    LeavesMarks σ ((get eng o k receiver).run σ) := by
  rw [get, find]
  rcases run_findFrom_plain (n := eng.fuel) ho with
    hnone | ⟨hshort, -⟩ | ⟨p, d, hown, hd, hfound⟩
  · rw [Action.run_bind, hnone]
    exact fun _ _ h ↦ h
  · rw [Action.run_bind, hshort]
    exact fun _ _ h ↦ h
  · have hfind : LeavesMarks σ ((findFrom eng k eng.fuel o).run σ) :=
      hfound ▸ leavesMarks_getOwn hreads heng hσ p k
    -- What is found is no accessor, so nothing is called.
    refine hfind.bind fun found τ hrun ↦ ?_
    cases found with
    | none => exact fun _ _ h ↦ h
    | some shown =>
        have hshown : shown.isAccessor = false :=
          isAccessor_of_run_getOwn hown hd (hfound.symm.trans hrun)
        dsimp only
        rw [if_neg (by simp [hshown])]
        exact fun _ _ h ↦ h

end Marks

theorem Engine.leavesMarks_level (depth n : Nat) : (level n).LeavesMarks depth := by
  induction n with
  | zero => exact fun _ _ _ _ _ _ _ _ _ h ↦ h
  | succ n ih =>
      intro pending σ o k receiver hσ ho
      rw [get_level_succ]
      exact Object.leavesMarks_get (readsAlong_level depth n) ih hσ ho receiver

/-! ## Enumerations that nothing disturbs -/

namespace Heap

/-- The text is the key of an enumerable property of the object, and no object of `earlier` has
a property under it. -/
def isListed (h : Heap) (earlier : List ObjectRef) (o : ObjectRef) (t : Text) : Bool :=
  (h.own? o (.string t)).any Descriptor.isEnumerable &&
    !earlier.any fun p ↦ (h.object p).hasOwn (.string t)

/-- The keys to be given for the objects of a chain, after those of `earlier`. -/
def enumeration (h : Heap) (earlier : List ObjectRef) : List ObjectRef → List Text
  | [] => []
  | o :: rest =>
    (h.object o).ownTexts.filter (h.isListed earlier o) ++ h.enumeration (earlier ++ [o]) rest

/-- The object is there, and none of its properties is being resolved. -/
structure IsSteady (h : Heap) (o : ObjectRef) : Prop where
  lt : o.index < h.objects.size
  unmarked : ∀ k a c, h.own? o k = some ⟨a, .lazy c⟩ → h.cell c ≠ .resolving

/-- The second heap is what reads have made of the first. -/
structure ReadsTo (h h' : Heap) : Prop where
  settles : h.Settles h'
  stored : h'.IsStored
  marks : ∀ c, h'.cell c = .resolving → h.cell c = .resolving

/-- The texts visited are the keys of the objects of `earlier` and those that have been looked
at. -/
def Covers (h : Heap) (earlier : List ObjectRef) (looked visited : List Text) : Prop :=
  ∀ t, t ∈ visited ↔
    (earlier.any fun p ↦ (h.object p).hasOwn (.string t)) = true ∨ t ∈ looked

variable {h : Heap} {o : ObjectRef} {earlier : List ObjectRef} {looked visited : List Text}
  {t : Text}

theorem Covers.visit (hcovers : h.Covers earlier looked visited) (t : Text) :
    h.Covers earlier (looked ++ [t]) (t :: visited) := by
  intro t'
  rw [List.mem_cons, hcovers t', List.mem_append, List.mem_singleton]
  tauto

/-- A key that is visited already is that of an object before. -/
theorem Covers.pass (hcovers : h.Covers earlier looked visited) (ht : t ∈ visited)
    (hlooked : t ∉ looked) :
    h.isListed earlier o t = false ∧ h.Covers earlier (looked ++ [t]) visited := by
  have hearlier := ((hcovers t).1 ht).resolve_right hlooked
  refine ⟨by simp [isListed, hearlier], fun t' ↦ ?_⟩
  rw [hcovers t', List.mem_append, List.mem_singleton]
  constructor
  · exact fun h ↦ h.imp_right .inl
  · rintro (h | h | rfl)
    · exact .inl h
    · exact .inr h
    · exact .inl hearlier

theorem Covers.isListed_eq (hcovers : h.Covers earlier looked visited) (ht : t ∉ visited)
    {d : Descriptor} (hown : h.own? o (.string t) = some d) :
    h.isListed earlier o t = d.isEnumerable := by
  have hearlier := mt (fun h ↦ (hcovers t).2 (.inl h)) ht
  rw [isListed, hown, Bool.eq_false_iff.2 hearlier]
  exact Bool.and_true _

/-- When all keys of an object have been looked at, it is one of those before. -/
theorem Covers.leave (hvalid : (h.object o).Valid)
    (hcovers : h.Covers earlier (h.object o).ownTexts visited) :
    h.Covers (earlier ++ [o]) [] visited := by
  intro t
  rw [hcovers t, hvalid.mem_ownTexts]
  simp

end Heap

namespace ForIn

/-- What a search gives: the first of the keys to come, with the others still to come, or nothing
if there is none. -/
def Found.Yields (h : Heap) (earlier : List ObjectRef) (o : ObjectRef) (keys : List Text) :
    Found → Prop
  | .exhausted visited => keys = [] ∧ h.Covers earlier (h.object o).ownTexts visited
  | .key t remaining visited => keys = t :: remaining.filter (h.isListed earlier o) ∧
      ∃ looked, (h.object o).ownTexts = looked ++ remaining ∧ h.Covers earlier looked visited

/-- The keys that an enumeration has still to give while nothing disturbs it, and the objects on
its way. -/
inductive Awaits (h : Heap) : ForIn → List ObjectRef → List Text → Prop
  | done (remaining : Option (List Text)) (visited : List Text) :
      Awaits h ⟨none, remaining, visited⟩ [] []
  | standing {o : ObjectRef} {rest earlier : List ObjectRef} {remaining : Option (List Text)}
      {looked texts visited : List Text} (hwalk : h.Walk (some o) (o :: rest))
      (hremaining : remaining.getD (h.object o).ownTexts = texts)
      (htexts : (h.object o).ownTexts = looked ++ texts)
      (hcovers : h.Covers earlier looked visited) :
      Awaits h ⟨some o, remaining, visited⟩ (o :: rest)
        (texts.filter (h.isListed earlier o) ++ h.enumeration (earlier ++ [o]) rest)

theorem awaits_reach {h : Heap} {earlier l : List ObjectRef} {p : Option ObjectRef}
    (hwalk : h.Walk p l) {visited : List Text} (hcovers : h.Covers earlier [] visited) :
    Awaits h ⟨p, none, visited⟩ l (h.enumeration earlier l) := by
  cases hwalk with
  | done => exact .done none visited
  | step o hrest => exact .standing (.step o hrest) rfl rfl hcovers

section Undisturbed

variable {h : Heap} {depth n : Nat} {pending : List CellRef} (hh : h.IsPlain depth pending)
  (hfuel : pending.length + depth ≤ n) {o : ObjectRef} {earlier : List ObjectRef} {σ : State}
  (hσ : h.ReadsTo σ.heap)

include hh hfuel hσ

/-- To look at a property of such an object shows it and does no more. -/
theorem run_getOwn_steady (ho : h.IsSteady o) {k : PropertyKey} {d : Descriptor}
    (hown : h.own? o k = some d) :
    ∃ shown τ, (Object.getOwn (.level n) o k).run σ = (.ok (some shown), τ) ∧
      shown.isEnumerable = d.isEnumerable ∧ h.ReadsTo τ.heap := by
  have hplain := hh.settles hσ.settles hσ.stored
  have hmarks := Object.leavesMarks_getOwn (Engine.readsAlong_level depth n)
    (Engine.leavesMarks_level depth n) hplain o k
  by_cases hlazy : ∃ a c, σ.heap.own? o k = some ⟨a, .lazy c⟩
  · obtain ⟨a, c, hown'⟩ := hlazy
    have hd : d = ⟨a, .lazy c⟩ := by
      rcases hσ.settles.own o ho.lt k with hsame | ⟨_, _, _, -, -, hvalue⟩
      · exact Option.some.inj (hown.symm.trans (hsame.symm.trans hown'))
      · cases hvalue.symm.trans hown'
    subst hd
    obtain ⟨τ, hs, hstored, ⟨v, -, -, -, hrun⟩ | ⟨hc, -, -⟩ | ⟨-, hshort⟩⟩ :=
      Object.run_getOwn_lazy (Engine.readsAlong_level depth n) hplain hown'
    · rw [hrun] at hmarks
      exact ⟨_, τ, hrun, rfl, hσ.settles.trans hs, hstored,
        fun c hc ↦ hσ.marks c (hmarks nofun c hc)⟩
    · exact absurd (hσ.marks c hc) (ho.unmarked k a c hown)
    · rw [Engine.fuel_level] at hshort
      exact absurd hshort (Nat.not_lt_of_le hfuel)
  · obtain ⟨d', hown', hd'⟩ :
        ∃ d', σ.heap.own? o k = some d' ∧ d'.isEnumerable = d.isEnumerable := by
      rcases hσ.settles.own o ho.lt k with hsame | ⟨a, c, v, hbefore, -, hvalue⟩
      · exact ⟨d, hsame.trans hown, rfl⟩
      · cases hown.symm.trans hbefore
        exact ⟨_, hvalue, rfl⟩
    have hform (c : CellRef) : d'.form ≠ .lazy c := by
      rintro hc
      exact hlazy ⟨d'.attributes, c, by rw [hown', ← hc]⟩
    exact ⟨_, σ, Object.run_getOwn_shown _ hown' hform, (d'.isEnumerable_shownIn _).trans hd', hσ⟩

theorem search_yields (ho : h.IsSteady o) {looked texts visited : List Text}
    (htexts : (h.object o).ownTexts = looked ++ texts) (hcovers : h.Covers earlier looked visited) :
    ∃ found τ, (search (.level n) o visited texts).run σ = (.ok found, τ) ∧
      found.Yields h earlier o (texts.filter (h.isListed earlier o)) ∧ h.ReadsTo τ.heap := by
  have hvalid := (hh.stored o ho.lt).valid
  induction texts generalizing looked visited σ with
  | nil =>
      rw [List.append_nil] at htexts
      exact ⟨_, σ, rfl, ⟨rfl, htexts ▸ hcovers⟩, hσ⟩
  | cons t rest ih =>
      have hnext : (h.object o).ownTexts = looked ++ [t] ++ rest := by simpa using htexts
      rw [search]
      by_cases hmem : t ∈ visited
      · have hlooked : t ∉ looked := by
          have hnodup := hvalid.nodup_ownTexts
          rw [htexts, List.nodup_append] at hnodup
          exact fun h ↦ hnodup.2.2 t h t List.mem_cons_self rfl
        obtain ⟨hpassed, hcovers'⟩ := hcovers.pass (o := o) hmem hlooked
        rw [if_pos (by simpa using hmem), List.filter_cons_of_neg (by simp [hpassed])]
        exact ih hσ hnext hcovers'
      · obtain ⟨d, hown⟩ : ∃ d, h.own? o (.string t) = some d := by
          have hhas : (h.object o).hasOwn (.string t) = true :=
            (hvalid.mem_ownTexts t).1 (by simp [htexts])
          exact Option.isSome_iff_exists.1 hhas
        obtain ⟨shown, τ, hrun, hshown, hτ⟩ := run_getOwn_steady hh hfuel hσ ho hown
        have hlisted := hcovers.isListed_eq hmem hown
        rw [if_neg (by simpa using hmem), Action.run_bind, hrun]
        dsimp only
        rw [hshown]
        cases hd : d.isEnumerable with
        | true =>
            rw [List.filter_cons_of_pos (hlisted.trans hd), if_pos rfl]
            exact ⟨_, τ, rfl, ⟨rfl, looked ++ [t], hnext, hcovers.visit t⟩, hτ⟩
        | false =>
            rw [List.filter_cons_of_neg (by simp [hlisted, hd]), if_neg Bool.false_ne_true]
            exact ih hτ hnext (hcovers.visit t)

theorem run_nextFrom_awaits {it : ForIn} {l : List ObjectRef} {keys : List Text} {m : Nat}
    (hit : it.Awaits h l keys) (hl : ∀ o ∈ l, h.IsSteady o) (hm : l.length < m) :
    ∃ it' l' τ, (nextFrom (.level n) m it).run σ = (.ok (keys.head?, it'), τ) ∧
      it'.Awaits h l' keys.tail ∧ l' <:+ l ∧ h.ReadsTo τ.heap := by
  induction m generalizing it l keys σ with
  | zero => exact absurd hm (Nat.not_lt_zero _)
  | succ m ih =>
      cases hit with
      | done remaining visited =>
          exact ⟨_, [], σ, rfl, .done remaining visited, List.nil_suffix, hσ⟩
      | @standing o rest earlier remaining looked texts visited hwalk hremaining htexts hcovers =>
          have ho := hl o List.mem_cons_self
          have hsame : (σ.heap.object o).ownTexts = (h.object o).ownTexts := by
            rw [Object.ownTexts_eq_filterMap, hσ.settles.keys o ho.lt,
              ← Object.ownTexts_eq_filterMap]
          obtain ⟨found, τ, hsearch, hyields, hτ⟩ := search_yields hh hfuel hσ ho htexts hcovers
          rw [run_nextFrom, hsame, hremaining, hsearch]
          cases found with
          | key t remaining' visited' =>
              obtain ⟨hkeys, looked', htexts', hcovers'⟩ := hyields
              rw [hkeys]
              exact ⟨_, o :: rest, τ, rfl, .standing hwalk rfl htexts' hcovers',
                List.suffix_rfl, hτ⟩
          | exhausted visited' =>
              -- The walk goes on from the prototype, which is the same in the new state.
              obtain ⟨hkeys, hcovers'⟩ := hyields
              cases hwalk with
              | step _ hrest =>
                  rw [hkeys, List.nil_append]
                  dsimp only
                  rw [hτ.settles.prototype o ho.lt]
                  obtain ⟨it', l', ρ, hrun, hit', hsuffix, hρ⟩ := ih hτ
                    (awaits_reach hrest (hcovers'.leave (hh.stored o ho.lt).valid))
                    (fun p hp ↦ hl p (List.mem_cons_of_mem o hp)) (Nat.lt_of_succ_lt_succ hm)
                  exact ⟨it', l', ρ, hrun, hit', hsuffix.trans (List.suffix_cons o rest), hρ⟩

end Undisturbed

/-- The chain of the object ends, its objects are steady, and there is fuel for the chain and for
all resolvers that have still to run. -/
structure Undisturbed (n depth : Nat) (o : ObjectRef) (l : List ObjectRef) (h : Heap) : Prop where
  stored : h.IsStored
  walk : h.Walk (some o) l
  steady : ∀ p ∈ l, h.IsSteady p
  reads : h.ResolversReadPlainly depth
  chain : l.length < n
  resolvers : h.cells.size + depth ≤ n

/-- The enumeration has given so many keys of the chain and has still to give the others. -/
def Stands (h : Heap) (l : List ObjectRef) (j : Nat) (it : ForIn) : Prop :=
  ∃ l', it.Awaits h l' ((h.enumeration [] l).drop j) ∧ l' <:+ l

section Calls

variable {n depth : Nat} {o : ObjectRef} {l : List ObjectRef} {σ τ ρ : State} {it : ForIn}
  (hσ : Undisturbed n depth o l σ.heap)

include hσ

/-- One call gives the next of the keys. -/
theorem Undisturbed.run_next {j : Nat} (hit : it.Stands σ.heap l j) (hτ : σ.heap.ReadsTo τ.heap) :
    ∃ it' ρ, (it.next (.level n)).run τ = (.ok ((σ.heap.enumeration [] l)[j]?, it'), ρ) ∧
      it'.Stands σ.heap l (j + 1) ∧ σ.heap.ReadsTo ρ.heap := by
  obtain ⟨l', hawaits, hsuffix⟩ := hit
  have hfuel := hσ.resolvers
  have hlength : l'.length < n := Nat.lt_of_le_of_lt hsuffix.length_le hσ.chain
  obtain ⟨it', l'', ρ, hrun, hit', hsuffix', hρ⟩ := run_nextFrom_awaits (n := n)
    (hσ.stored.isPlain hσ.reads) (by simpa using hfuel) hτ hawaits
    (fun p hp ↦ hσ.steady p (hsuffix.subset hp)) hlength
  rw [List.head?_drop] at hrun
  rw [List.tail_drop] at hit'
  rw [next, Engine.fuel_level]
  exact ⟨it', ρ, hrun, ⟨l'', hit', hsuffix'.trans hsuffix⟩, hρ⟩

/-- However many calls there have been, each has given its key. -/
theorem Undisturbed.stands_of_calls {answers : List (Option Text)}
    (hcalls : Calls (.level n) (fun ρ ρ' ↦ ρ'.heap = ρ.heap) o σ answers τ it) :
    answers = (List.range answers.length).map ((σ.heap.enumeration [] l)[·]?) ∧
      it.Stands σ.heap l answers.length ∧ σ.heap.ReadsTo τ.heap := by
  induction hcalls with
  | start =>
      refine ⟨rfl, ⟨l, ?_, List.suffix_rfl⟩, σ.heap.settles_refl, hσ.stored, fun _ h ↦ h⟩
      exact awaits_reach hσ.walk fun t ↦ by simp
  | answer _ hheap hrun ih =>
      obtain ⟨hanswers, hit, hρ⟩ := ih
      rw [← hheap] at hρ
      obtain ⟨it', τ, hrun', hit', hτ⟩ := hσ.run_next hit hρ
      cases hrun.symm.trans hrun'
      rw [List.length_append, List.length_singleton, List.range_succ, List.map_append, ← hanswers]
      exact ⟨rfl, hit', hτ⟩
  | failure _ hheap hrun _ ih =>
      obtain ⟨-, hit, hρ⟩ := ih
      rw [← hheap] at hρ
      obtain ⟨it', τ, hrun', -⟩ := hσ.run_next hit hρ
      cases hrun.symm.trans hrun'

end Calls

end ForIn

end Ecma
