import CallByNeed.Evaluator

/-!
# Using a session

What a host does with a session: evaluate expressions at top level, define and
read global variables, and call functions with values it has.  A return cannot
leave a top-level evaluation; and once enough frames were allocated, a top-level
evaluation ends with a collection that keeps its result.
-/

namespace CallByNeed

namespace SessionM

/-- An action at top level: a return that reaches it has no invocation to return from. -/
def atTopLevel (act : SessionM Value) : SessionM Value := fun s =>
  match act s with
  | (.error (.returning _ _), s) => (.error (.failure .deadFrameReturn), s)
  | outcome => outcome

/-- Collect if no invocation is active and enough frames were allocated since the last time. -/
def collectIfDue (result : Value) : SessionM Unit := do
  let s ← get
  if s.depth = 0 && s.options.gcThreshold ≤ s.heap.allocatedSinceCollect then
    let _ ← collect [result]

def defineGlobal (name : Symbol) (value : Value) : SessionM Unit := do
  bindIn (← get).globalEnv name value

def defineIntrospection : SessionM Unit :=
  Builtin.introspective.forM fun b => do
    defineGlobal ⟨b.name⟩ (.builtin (← newIdentity) b)

/-- An expression that evaluates to `value`. -/
def quoted (value : Value) : SessionM Value :=
  match value with
  | .symbol _ => quoteCall value
  | .call _ => quoteCall value
  | _ => pure value
where
  quoteCall (value : Value) : SessionM Value := do
    return .call (← newCall (.symbol ⟨SpecialForm.quote.name⟩) [.untagged value])

/-- An argument that a host passes to a function: promises and omitted arguments stay what they are,
    anything else is promised as the value that it is. -/
def hostArg (value : Value) : SessionM Value :=
  match value with
  | .promise _ => pure value
  | _ => do if value.isMissingArg then return value else newKept (← quoted value) value

end SessionM

namespace Evaluator

variable (ev : Evaluator)

def evalIn (expr : Value) (env : EnvId) : SessionM Value := do
  let value ← SessionM.atTopLevel (ev.evaluate expr env)
  SessionM.collectIfDue value
  return value

def eval (expr : Value) : SessionM Value := do
  ev.evalIn expr (← get).globalEnv

def getGlobal (name : Symbol) : SessionM Value := do
  ev.lookup (← get).globalEnv name

def callFunction (function : Value) (args : ArgList) (env : EnvId) : SessionM Value := do
  let promised ← args.mapM fun arg => return Arg.new arg.tag (← SessionM.hostArg arg.value)
  let call ← SessionM.newCall function args
  ev (.apply function call promised env [])

end Evaluator

end CallByNeed
