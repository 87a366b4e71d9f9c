import Ecma.State.Realm

/-!
# The state of an interpreter

One heap, one realm and what a running script changes, together with the log
that host functions write to.
-/

namespace Ecma

structure Options where
  /-- Whether every script is strict. -/
  strict : Bool
  /-- How many calls may be nested. -/
  maxCallDepth : Nat
  /-- How many properties a store keeps in a list. -/
  cutover : Nat
  deriving DecidableEq, Inhabited

namespace Options

def standard : Options := ⟨false, 512, 9⟩

end Options

structure State where
  heap : Heap
  realm : Realm
  options : Options
  nextSymbol : Nat
  callDepth : Nat
  /-- Where the call that last ended in a throw threw, until a statement takes it. -/
  throwLocation : Option Location
  /-- Whether the host has asked to stop. -/
  interrupted : Bool
  /-- Whether this interpreter is the one that stops when the host asks. -/
  isInterruptible : Bool
  /-- The lines written, the last one first. -/
  log : List String
  deriving Inhabited

namespace State

/-- A new interpreter over a heap, with a realm of its own. -/
def fresh (heap : Heap) (log : List String) (options : Options) : State :=
  let (realm, heap) := Realm.build options.cutover heap
  { heap, realm, options, nextSymbol := Symbol.firstFresh, callDepth := 0
    throwLocation := none, interrupted := false, isInterruptible := true, log }

def initial (options : Options) : State := fresh .empty [] options

/-- Whether to stop now; a request to stop is honoured once. -/
def takeInterrupt (s : State) : Bool × State :=
  if s.interrupted && s.isInterruptible then (true, { s with interrupted := false })
  else (false, s)

/-- A new interpreter beside this one, over the same heap and log.  A request of
the host to stop is kept for this one. -/
def beside (s : State) : State :=
  { fresh s.heap s.log .standard with interrupted := s.interrupted, isInterruptible := false }

/-- Goes on after an interpreter beside this one is done. -/
def resume (s inner : State) : State :=
  { s with heap := inner.heap, log := inner.log, interrupted := inner.interrupted }

end State

end Ecma
