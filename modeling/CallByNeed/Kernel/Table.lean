import CallByNeed.Assoc
import CallByNeed.Kernel.Basic

/-!
# Kernel tables

A kernel table says which kernel implements a computation.  Registering a kernel
enters it under each of its computations and replaces what was there.
-/

namespace CallByNeed

/-- Kernels by the name of the computation; no name occurs twice. -/
structure KernelTable where
  entries : List (String × Kernel)

namespace KernelTable

def empty : KernelTable := ⟨[]⟩

/-- Enter a kernel under each of its computations. -/
def register (table : KernelTable) (kernel : Kernel) : KernelTable :=
  kernel.operations.foldl (fun table name => ⟨Assoc.put name kernel table.entries⟩) table

/-- The table in which the kernels were registered one after the other. -/
def ofKernels (kernels : List Kernel) : KernelTable := kernels.foldl register empty

/-- Every kernel there is. -/
def standard : KernelTable := ofKernels [.sumMean, .rowMean, .colSum]

/-- Every kernel there is, or none if kernels are disabled. -/
def unlessDisabled (disabled : Bool) : KernelTable := if disabled then empty else standard

def get? (table : KernelTable) (operation : String) : Option Kernel :=
  table.entries.lookup operation

def contains (table : KernelTable) (operation : String) : Bool :=
  (table.get? operation).isSome

/-- The computations that have a kernel, in alphabetical order. -/
def names (table : KernelTable) : List String :=
  (table.entries.map (·.1)).mergeSort fun a b => decide (a ≤ b)

def size (table : KernelTable) : Nat := table.entries.length

def inspect (table : KernelTable) : String :=
  let quoted := table.names.map fun name => "\"" ++ name ++ "\""
  "KernelRegistry \x7b operations: [" ++ ", ".intercalate quoted ++ "] \x7d"

end KernelTable

end CallByNeed
