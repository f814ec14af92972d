import CallByNeed.Session.Collect

/-!
# Builtins that look into the session

The depth of the stack, the arguments as they arrive, a collection, and the
invocation whose frame is the calling environment.
-/

namespace CallByNeed.SessionM

def describeInvocation (i : Invocation) : Value :=
  .list
    [.tagged ⟨"env"⟩ (.environment i.env), .tagged ⟨"caller"⟩ (.environment i.callerEnv),
      .tagged ⟨"formals"⟩ (.list i.closure.formals), .tagged ⟨"call"⟩ (.call i.call),
      .tagged ⟨"args"⟩ (.list i.args)]

def introspect (query : Introspection) (args : ArgList) (env : EnvId) : SessionM Value := do
  match query with
  | .depth => newDouble (← get).depth.toFloat
  | .arguments => return .list args
  | .collect => newDouble (← collect []).toFloat
  | .frame =>
    match (← get).invocationOf? env with
    | some i => return describeInvocation i
    | none => return .null

end CallByNeed.SessionM
