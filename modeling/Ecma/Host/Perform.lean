import Ecma.Conversion.Comparison
import Ecma.Function.Create

/-!
# Answering the host

Requests of host functions, carried out by the engine.
-/

namespace Ecma

namespace Host

def perform (eng : Engine) : (request : Request) → Action request.Reply
  | .log line => Action.log line
  | .display v => Action.display v
  | .raise kind message => Action.raise kind message
  | .interrupt => Action.interrupt
  | .toPropertyKey v => Conversion.toPropertyKey eng v
  | .toText v => Conversion.toText eng v
  | .toObject v => Conversion.toObject v
  | .toPrimitive v hint => Conversion.toPrimitive eng v hint
  | .toNumber v => Conversion.toNumber eng v
  | .looselyEqual x y => Conversion.looseEqual eng x y
  | .lessThan x y leftFirst => Conversion.less eng x y leftFirst
  | .newSymbol description => Action.newSymbol description
  | .newObject prototype => Action.newObject .object prototype
  | .newCell r => Action.newCell r
  | .prototypeOf o => do return (← Action.object o).prototype
  | .setPrototypeOf o prototype => Object.setPrototype o prototype
  | .preventExtensions o => Object.preventExtensions o
  | .isExtensible o => do return (← Action.object o).isExtensible
  | .ownKeys o => do return (← Action.object o).ownKeys
  | .enumerableKeys o => Object.enumerableKeys eng o
  | .hasProperty o k => do return (← Action.heap).hasProperty o k
  | .getOwn o k => Object.getOwn eng o k
  | .get o k receiver => Object.get eng o k receiver
  | .set o k v receiver => Object.set eng o k v receiver
  | .define o k d => Object.define eng o k d
  | .createData o k v => Object.createData eng o k v
  | .delete o k => Object.delete o k
  | .hasVariable s name => Scope.has eng s name
  | .getVariable s name strict => Scope.get eng s name strict
  | .setVariable s name v strict => Scope.set eng s name v strict
  | .deleteVariable s name => Scope.delete s name
  | .call f this args => eng.call f this args
  | .construct f args => Function.construct eng f args
  | .evaluate e s => eng.eval e s
  | .execute stmt s => Action.ofExecution (eng.exec stmt s [])

/-- Runs a host program.  The end of the engine's fuel ends the program too. -/
def run (eng : Engine) {α : Type} : HostProgram α → Action α
  | .done result => Action.ofExcept result
  | .perform request next => do
    match ← Action.attempt (perform eng request) with
    | .error (.fault .outOfFuel) => Action.fault .outOfFuel
    | reply => run eng (next reply)

end Host

end Ecma
