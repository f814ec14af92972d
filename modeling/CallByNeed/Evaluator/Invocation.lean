import CallByNeed.Evaluator.Arguments
import CallByNeed.Matching

/-!
# Invocations of closures

Applying a closure makes a frame inside the environment of its definition, pairs
the arguments with the formals there, and evaluates the body.  The invocation is
on the stack exactly as long as that takes.  A return that aims at its frame
ends it with a value; every other one passes through.
-/

namespace CallByNeed

namespace SessionM

/-- Bind one formal of a frame that is being filled: to its argument, or to a promise of its default
    expression in that same frame. -/
def bindFormal (env : EnvId) (formal : Arg Value) (value : Value) : SessionM Unit :=
  match formal.tag with
  | none => return
  | some name => do
    if value.isMissingArg && !formal.value.isMissingArg then
      let promise ← newWaiting formal.value env
      onHeap (HeapM.bindDefault env name promise)
    else bindIn env name value

/-- Pair arguments with formals and bind the formals in a frame. -/
def bindArguments (formals actuals : ArgList) (env : EnvId) : SessionM Unit := do
  let matched ← ofExcept (matchFormals formals actuals true)
  (formals.zip matched).forM fun (formal, arg) => bindFormal env formal arg.value

/-- Run an action with an invocation on the stack, unless there are too many already. -/
def withInvocation {α : Type} (invocation : Invocation) (act : SessionM α) : SessionM α := do
  let s ← get
  if s.options.maxCallDepth ≤ s.depth then fail (.stackOverflow s.depth)
  else
    bracket (fun s => { s with stack := invocation :: s.stack })
      (fun s => { s with stack := s.stack.tail }) act

/-- The value of an action, also if it ends in a return that aims at `env`. -/
def catchReturn (env : EnvId) (act : SessionM Value) : SessionM Value := fun s =>
  match act s with
  | (.error (.returning target value), s) =>
    if target = env then (.ok value, s) else (.error (.returning target value), s)
  | outcome => outcome

end SessionM

/-- Apply a closure to promised arguments; `extra` is bound beside the formals. -/
def Evaluator.invoke (ev : Evaluator) (closure : Closure) (callerEnv : EnvId) (call : Call)
    (args : ArgList) (extra : List (Symbol × Value)) : SessionM Value := do
  -- the frame comes before the check of the depth: a refused invocation has made one too
  let env ← SessionM.allocate (some closure.env)
  SessionM.withInvocation ⟨env, callerEnv, closure, call, args⟩ do
    SessionM.bindArguments closure.formals args env
    extra.forM fun (name, value) => SessionM.bindIn env name value
    SessionM.catchReturn env (ev.evaluate closure.body env)

end CallByNeed
