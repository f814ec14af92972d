import CallByNeed.Proofs.Arguments.Passing
import CallByNeed.Proofs.Promises
import CallByNeed.Proofs.Relocation.Insertion
import CallByNeed.Proofs.Relocation.Loops

/-!
# Forcing promised arguments

Promises are made of all arguments (`suspended`), and then they are forced from left
to right.  To the evaluation of one of them the promises of all are promises in
between that nothing refers to, so it carries over from the session without them
(`Session.inserted`), and so does the evaluation of one after the other
(`mapM_forceArg_inserted`).
-/

namespace CallByNeed

open SessionM Session

/-! ## The promises of arguments -/

section

variable {env : EnvId} {arg : Arg Value} {cell : Promise}

end

namespace SessionM

variable {s : Session} {env : EnvId} {args dots : ArgList}

end SessionM

/-! ## Forcing the promises -/

namespace Session

variable {s : Session} {n k : Nat} {before after : List Promise}

end Session

namespace Evaluator

variable (ev : Evaluator)

/-- The value of an argument expression at once: a symbol or a call is evaluated, a promise is
    forced, and anything else is its own value. -/
def valueNow (expr : Value) (env : EnvId) : SessionM Value :=
  match expr with
  | .symbol _ => ev.evaluate expr env
  | .call _ => ev.evaluate expr env
  | _ => ev.force expr

variable {ev} {env : EnvId} {n k : Nat} {s t : Session} {before after : List Promise}

end Evaluator

end CallByNeed
