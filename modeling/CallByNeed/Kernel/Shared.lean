import CallByNeed.Kernel.Table

/-!
# Shared kernels

Sessions that bring no kernels of their own use one kernel table together.  It
is built when it is first asked for, empty if a switch variable is set at that
moment, and then stays the same, whatever happens to the variable, until it is
dropped.  Each table that is built has a serial number, so that two of them can
be told apart.
-/

namespace CallByNeed

/-- A kernel table that was built, with the number of those built before it. -/
structure KernelTableInstance where
  serial : Nat
  table : KernelTable

/-- The state around the shared kernel table.  `disablingVariable` is the value of the variable that
    switches kernels off; any value does, also an empty one. -/
structure SharedKernels where
  disablingVariable : Option String
  current : Option KernelTableInstance
  built : Nat

namespace SharedKernels

def initial : SharedKernels := ⟨none, none, 0⟩

/-- A kernel table as the variable wants it. -/
def fromEnvironment (shared : SharedKernels) : KernelTable :=
  .unlessDisabled shared.disablingVariable.isSome

/-- The shared kernel table, which is built if there is none. -/
def get (shared : SharedKernels) : KernelTableInstance × SharedKernels :=
  match shared.current with
  | some inst => (inst, shared)
  | none =>
    let inst : KernelTableInstance := ⟨shared.built, shared.fromEnvironment⟩
    (inst, { shared with current := some inst, built := shared.built + 1 })

def setVariable (shared : SharedKernels) (value : Option String) : SharedKernels :=
  { shared with disablingVariable := value }

/-- Drop the shared kernel table; it is built anew when it is asked for again. -/
def reset (shared : SharedKernels) : SharedKernels := { shared with current := none }

/-- Asking twice gives the same kernel table. -/
theorem get_get (shared : SharedKernels) : shared.get.2.get = shared.get := by
  unfold get
  cases h : shared.current <;> simp [h]

end SharedKernels

end CallByNeed
