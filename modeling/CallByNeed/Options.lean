/-!
# Session options

The limits and switches of a session, and how they are read from a list of
named settings: an option that is not set has its default, a setting of another
name is ignored, and a setting of the wrong kind makes the list invalid.  Whole
numbers fit in 64 bits.
-/

namespace CallByNeed

/-- The value of a setting, as far as options can have it. -/
inductive Setting where
  | natural (n : Nat)
  | flag (b : Bool)
  | other
  deriving DecidableEq, Repr

/-- A whole number that fits in 64 bits. -/
def Setting.natural? : Setting → Option Nat
  | natural n => if n < UInt64.size then some n else none
  | _ => none

def Setting.flag? : Setting → Option Bool
  | flag b => some b
  | _ => none

structure Options where
  maxCallDepth : Nat := 512
  /-- Whether loops may be run on whole vectors. -/
  compileLoops : Bool := true
  /-- How many frames are allocated before a top-level evaluation ends with a collection. -/
  gcThreshold : Nat := 10000
  deriving DecidableEq, Repr, Inhabited

/-- The setting of this name read by `read`, or the default if it is not there. -/
def settingOr {α : Type} (settings : List (String × Setting)) (name : String)
    (read : Setting → Option α) (default : α) : Option α :=
  match settings.lookup name with
  | none => some default
  | some setting => read setting

def Options.ofSettings? (settings : List (String × Setting)) : Option Options := do
  let defaults : Options := {}
  return {
    maxCallDepth := ← settingOr settings "max_call_depth" Setting.natural? defaults.maxCallDepth
    compileLoops := ← settingOr settings "compile_loops" Setting.flag? defaults.compileLoops
    gcThreshold := ← settingOr settings "gc_threshold" Setting.natural? defaults.gcThreshold }

end CallByNeed
