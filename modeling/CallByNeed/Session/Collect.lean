import CallByNeed.Session.Basic
import CallByNeed.Value.Equality

/-!
# Collection in a session

The roots of a collection are the base and global environments, the namespaces,
everything an active invocation refers to, the calls of the loop instances, and
the values the host preserves or passes in.

A value may be preserved more than once; each release takes back one of those
times.
-/

namespace CallByNeed

namespace Invocation

def envs (i : Invocation) : List EnvId := [i.env, i.callerEnv]

def values (i : Invocation) : List Value :=
  .closure i.closure :: .call i.call :: i.args.map (·.value)

end Invocation

namespace Session

def rootEnvs (s : Session) : List EnvId :=
  s.baseEnv :: s.globalEnv :: (s.namespaces.environments ++ s.stack.flatMap Invocation.envs)

def rootValues (s : Session) : List Value :=
  s.preserved ++ s.stack.flatMap Invocation.values ++ s.loops.calls.map .call

/-- The values without the first one identical to `value`; `none` if there is no such one. -/
def releaseFrom (value : Value) : List Value → Option (List Value)
  | [] => none
  | held :: rest =>
    if held.identical value then some rest else (releaseFrom value rest).map (held :: ·)

end Session

namespace SessionM

/-- Free every frame that is not reachable from these environments and values, and answer how many
    there were. -/
def collectFrom (roots : List EnvId) (values : List Value) : SessionM Nat := do
  let s ← get
  match s.heap.collect s.promises roots values with
  | some (freed, heap) =>
    set { s with heap }
    return freed
  | none => throw .exhausted

/-- Free every frame that the session and the `extra` values cannot reach. -/
def collect (extra : List Value) : SessionM Nat := do
  let s ← get
  collectFrom s.rootEnvs (extra ++ s.rootValues)

/-- Keep what `value` refers to until it is released as often as it was preserved. -/
def preserve (value : Value) : SessionM Unit :=
  modify fun s => { s with preserved := value :: s.preserved }

/-- Take back one preservation of `value`; false if there is none. -/
def release (value : Value) : SessionM Bool := do
  let s ← get
  match Session.releaseFrom value s.preserved with
  | some preserved =>
    set { s with preserved }
    return true
  | none => return false

end SessionM

end CallByNeed
