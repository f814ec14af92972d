import CallByNeed.Session.Basic

/-!
# Evaluators, promises and functions by name

The rules of evaluation call each other in a circle.  Each rule is written for
an arbitrary evaluator, which answers the three tasks that a rule may hand on
(`Task`): evaluate an expression, apply a function to promised arguments, and run
a loop.  The circle is closed in one place, where the evaluator of some fuel is
made from that of less fuel.

This module has the rules for forcing promises and for finding functions.  A
function is looked up by its name from frame to frame; promises met on the way
are forced, and bindings to anything but a function are passed over.
-/

namespace CallByNeed

/-- What one rule of evaluation asks of the others. -/
inductive Task where
  | evaluate (expr : Value) (env : EnvId)
  /-- Apply a function to promised arguments; `extra` is bound in the frame of a closure. -/
  | apply (function : Value) (call : Call) (args : ArgList) (env : EnvId)
      (extra : List (Symbol × Value))
  /-- Run the loop of a `for` call over a sequence that was evaluated before. -/
  | loop (call : Call) (env : EnvId) (var : Symbol) (sequence body : Value)

abbrev Evaluator := Task → SessionM Value

namespace Evaluator

variable (ev : Evaluator)

def evaluate (expr : Value) (env : EnvId) : SessionM Value := ev (.evaluate expr env)

def whileEvaluating {α : Type} (id : PromiseId) (act : SessionM α) : SessionM α :=
  let setMark (mark : Bool) (s : Session) : Session :=
    { s with promises := s.promises.update id (Promise.mark mark) }
  SessionM.bracket (setMark true) (setMark false) act

/-- The value of a promise, which is computed now if it is not known.  A promise that is under
    evaluation cannot be forced; one whose evaluation fails stays as it was. -/
def demand (id : PromiseId) : SessionM Value := do
  match (← get).promises.get? id with
  | some ⟨_, .kept value⟩ => return value
  | some ⟨expr, .waiting env false⟩ =>
    let value ← whileEvaluating id (ev.evaluate expr env)
    SessionM.updatePromise id (Promise.keep value)
    return value
  | _ => SessionM.fail .recursivePromise

/-- The value of a promise, or the value itself if it is none. -/
def force : Value → SessionM Value
  | .promise id => ev.demand id
  | value => pure value

def lookup (env : EnvId) (name : Symbol) : SessionM Value := do
  ev.force (← SessionM.askHeap fun h => h.lookup env name)

/-- The first function bound to `name` in at most `fuel` frames, from `start` outward. -/
def functionWithin (name : Symbol) : (fuel : Nat) → (start : Option EnvId) →
    SessionM (Option Value)
  | _, none => return none
  | 0, some _ => throw .exhausted
  | fuel + 1, some id => do
    let frame ← SessionM.askHeap fun h => h.frame id
    match frame.get? name with
    | some binding =>
      -- forcing may run the program, so the next frame is read only afterwards
      let value ← ev.force binding.value
      if value.isFunction then return some value else functionWithin name fuel frame.parent
    | none => functionWithin name fuel frame.parent

/-- The function that `name` stands for as seen from `env`, if there is one. -/
def function? (env : EnvId) (name : Symbol) : SessionM (Option Value) := do
  ev.functionWithin name ((← get).heap.slots.size + 1) (some env)

def requireFunction (env : EnvId) (name : Symbol) : SessionM Value := do
  match ← ev.function? env name with
  | some function => return function
  | none => SessionM.fail (.functionNotFound name)

end Evaluator

end CallByNeed
