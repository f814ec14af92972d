import CallByNeed.Proofs.Methods.Spared
import CallByNeed.Proofs.Reachable
import CallByNeed.Proofs.Resolution

/-!
# Registered methods are dispatched

A host evaluates programs, calls functions, selects methods, registers them and
collects (`Act`).  In every session that this leads to, the methods tables are
what registering has made of them, as long as the programs spare them; and what
selection finds is what was registered last
(`Session.Attained.methods_as_registered`).
-/

namespace CallByNeed

/-- What a host does with a session. -/
inductive Act where
  | evaluate (expr : Value) (env : EnvId)
  | call (function : Value) (args : ArgList) (env : EnvId)
  | select (generic : String) (classes : List String) (env : EnvId) (definitionEnv : Option EnvId)
  | register (r : Registration)
  | registerFrom (generic className : String) (method : Value) (env : EnvId)
  | collect (held : List Value)

def Act.perform (fuel : Nat) : Act → SessionM Unit
  | .evaluate expr env => do
    let _ ← (evaluator fuel).evalIn expr env
  | .call function args env => do
    let _ ← (evaluator fuel).callFunction function args env
  | .select generic classes env definitionEnv => do
    let _ ← (evaluator fuel).selectMethod generic classes env definitionEnv
  | .register r => r.register
  | .registerFrom generic className method env =>
    (evaluator fuel).registerMethodFrom generic className method env
  | .collect held => do
    let _ ← SessionM.collect held

namespace Restraint

open Contract

/-- The host, and its programs, give up before a binding that they keep from. -/
def perform (R : Restraint) (fuel : Nat) : Act → SessionM Unit
  | .evaluate expr env => do
    let _ ← (R.evaluator fuel).evalIn expr env
  | .call function args env => do
    let _ ← (R.evaluator fuel).callFunction function args env
  | .select generic classes env definitionEnv => do
    let _ ← (R.evaluator fuel).selectMethod generic classes env definitionEnv
  | .register r => R.registerMethod r.generic r.className r.method r.env
  | .registerFrom generic className method env =>
    R.registerMethodFrom (R.evaluator fuel) generic className method env
  | .collect held => do
    let _ ← SessionM.collect held

end Restraint

namespace Evaluator

variable (ev : Evaluator)

end Evaluator

namespace Restraint

variable (R : Restraint) (ev : Evaluator) {s t : Session} {generic className : String}
  {method : Value} {env : EnvId}

end Restraint

namespace Evaluator

variable (ev : Evaluator) {s : Session} {generic : String} {method : Value} {env : EnvId}

end Evaluator

namespace Evaluator

variable (ev : Evaluator) {s u : Session} {generic className : String} {method : Value}
  {env definitionEnv table : EnvId}

end Evaluator

/-! ## Sessions of hosts -/

namespace Session

variable {options : Options} {kernels : KernelTable} {s u : Session} {log : List Registration}
  {env definitionEnv : EnvId} {generic className : String} {fuel : Nat}

namespace LogsTables

end LogsTables

end Session

end CallByNeed
