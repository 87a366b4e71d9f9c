import Ecma.Proofs.Memoisation
import Ecma.Proofs.OwnPropertyRuns

/-!
# Resolvers that branch

What a resolver does next and what it yields may hang on what its reads gave, so as a
program it is a tree.  It runs only once, though.  In the state in which it starts the
replies are settled, and the branch that they select is a list of steps with a value: a
cell that holds this branch is resolved just as one that holds the tree.
-/

namespace Ecma

/-- A resolver whose steps and value depend on the replies to its reads. -/
inductive ResolverTree where
  | value (v : Value)
  | log (line : String) (rest : ResolverTree)
  | read (o : ObjectRef) (k : PropertyKey) (next : Except Failure Value → ResolverTree)

/-- All steps that the tree can make, whatever the replies, satisfy the predicate. -/
def ResolverTree.Makes (P : ResolverStep → Prop) : ResolverTree → Prop
  | .value _ => True
  | .log line rest => P (.log line) ∧ rest.Makes P
  | .read o k next => P (.read o k) ∧ ∀ reply, (next reply).Makes P

/-- The resolver that first makes the step. -/
def Resolver.after (r : Resolver) (step : ResolverStep) : Resolver := ⟨step :: r.steps, r.value⟩

namespace Lazy

/-- What a read through an interpreter of its own gives. -/
def reply (eng : Engine) (o : ObjectRef) (k : PropertyKey) (σ : State) : Except Failure Value :=
  ((eng.get o k (.object o)).run σ.beside).1

/-! ## Runs -/

def runResolver (eng : Engine) (r : Resolver) : Action Value := do
  runSteps eng r.steps
  return r.value

/-- Reads as `readApart` does and takes the branch of the reply. -/
def runTree (eng : Engine) : ResolverTree → Action Value
  | .value v => return v
  | .log line rest => do
    Action.log line
    runTree eng rest
  | .read o k next => do
    let before ← get
    readApart eng o k
    runTree eng (next (reply eng o k before))

/-- What `resolve` does with a cell whose resolver has still to run, for a tree. -/
def resolveTree (eng : Engine) (c : CellRef) (t : ResolverTree) : Action Value := do
  Action.modifyHeap (·.setCell c .resolving)
  let v ← runTree eng t
  Action.modifyHeap (·.setCell c (.resolved v))
  return v

/-- The branch of the tree that is taken from the state. -/
def branch (eng : Engine) : ResolverTree → State → Resolver
  | .value v, _ => .constant v
  | .log line rest, σ =>
    (branch eng rest ((runStep eng (.log line)).run σ).2).after (.log line)
  | .read o k next, σ =>
    (branch eng (next (reply eng o k σ)) ((runStep eng (.read o k)).run σ).2).after (.read o k)

/-! ## The branch that is taken -/

variable (eng : Engine)

theorem runResolver_after (r : Resolver) (step : ResolverStep) (σ : State) :
    (runResolver eng (r.after step)).run σ =
      match (runStep eng step).run σ with
      | (.ok _, τ) => (runResolver eng r).run τ
      | (.error e, τ) => (.error e, τ) := by
  change (runSteps eng (step :: r.steps) >>= fun _ ↦ pure r.value : Action Value).run σ = _
  rw [Action.run_bind, runSteps, Action.run_bind]
  rcases (runStep eng step).run σ with ⟨e | _, τ⟩
  · rfl
  · exact (Action.run_bind _ _ τ).symm

theorem run_runTree_read (o : ObjectRef) (k : PropertyKey)
    (next : Except Failure Value → ResolverTree) (σ : State) :
    (runTree eng (.read o k next)).run σ =
      match (runStep eng (.read o k)).run σ with
      | (.ok _, τ) => (runTree eng (next (reply eng o k σ))).run τ
      | (.error e, τ) => (.error e, τ) := by
  change (runStep eng (.read o k) >>= fun _ ↦ runTree eng (next (reply eng o k σ))).run σ = _
  rw [Action.run_bind]
  rcases (runStep eng (.read o k)).run σ with ⟨_ | _, _⟩ <;> rfl

theorem run_runTree (t : ResolverTree) (σ : State) :
    (runTree eng t).run σ = (runResolver eng (branch eng t σ)).run σ := by
  induction t generalizing σ with
  | value v => rfl
  | log line rest ih =>
      rw [branch, runResolver_after]
      exact ih _
  | read o k next ih =>
      rw [branch, runResolver_after, run_runTree_read]
      rcases (runStep eng (.read o k)).run σ with ⟨e | _, τ⟩
      · rfl
      · exact ih _ τ

/-- Conditions on the steps of a resolver carry over from a tree to its branches. -/
theorem branch_steps {P : ResolverStep → Prop} {t : ResolverTree} (ht : t.Makes P) (σ : State) :
    ∀ step ∈ (branch eng t σ).steps, P step := by
  induction t generalizing σ with
  | value v => nofun
  | log line rest ih => exact List.forall_mem_cons.2 ⟨ht.1, ih ht.2 _⟩
  | read o k next ih => exact List.forall_mem_cons.2 ⟨ht.1, ih _ (ht.2 _) _⟩

theorem run_runResolver (r : Resolver) (σ : State) :
    (runResolver eng r).run σ =
      match (runSteps eng r.steps).run σ with
      | (.ok _, τ) => (.ok r.value, τ)
      | (.error e, τ) => (.error e, τ) := by
  change (runSteps eng r.steps >>= fun _ ↦ pure r.value : Action Value).run σ = _
  rw [Action.run_bind]
  rcases (runSteps eng r.steps).run σ with ⟨_ | _, _⟩ <;> rfl

theorem run_resolveTree (c : CellRef) (t : ResolverTree) (σ : State) :
    (resolveTree eng c t).run σ =
      match (runResolver eng (branch eng t (σ.marking c))).run (σ.marking c) with
      | (.ok v, τ) => (.ok v, { τ with heap := τ.heap.setCell c (.resolved v) })
      | (.error e, τ) => (.error e, τ) := by
  change (runTree eng t >>= fun v ↦ do
    Action.modifyHeap (·.setCell c (.resolved v))
    return v : Action Value).run (σ.marking c) = _
  rw [Action.run_bind, run_runTree]
  rcases (runResolver eng (branch eng t (σ.marking c))).run (σ.marking c) with ⟨_ | _, _⟩ <;> rfl

/-- A cell that holds the branch is resolved just as one that holds the tree. -/
theorem resolveTree_eq_resolve (c : CellRef) (key : String) (t : ResolverTree) (σ : State)
    (hc : c.index < σ.heap.cells.size) :
    (resolveTree eng c t).run σ =
      (resolve eng c key).run
        { σ with heap := σ.heap.setCell c (.unresolved (branch eng t (σ.marking c))) } := by
  rw [run_resolveTree, run_resolve]
  generalize branch eng t (σ.marking c) = r
  have hmarking : State.marking { σ with heap := σ.heap.setCell c (.unresolved r) } c =
      σ.marking c :=
    congrArg (fun heap ↦ { σ with heap }) (σ.heap.setCell_setCell c (.unresolved r) .resolving)
  dsimp only
  rw [Heap.cell_setCell_self hc, run_runResolver]
  dsimp only
  rw [hmarking]
  rcases (runSteps eng r.steps).run (σ.marking c) with ⟨_ | _, _⟩ <;> rfl

end Lazy

end Ecma
