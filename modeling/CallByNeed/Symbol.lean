/-!
# Symbols

A symbol is a name.  Two names are reserved: the empty name stands for an
argument that was not supplied, and `...` stands for the arguments a closure
collects.  `Symbol.asTag?` turns a name into the tag of an argument; the empty
name is no tag.
-/

namespace CallByNeed

/-- A name of the language. -/
structure Symbol where
  name : String
  deriving DecidableEq, Repr, Inhabited

namespace Symbol

/-- The sentinel for an argument that was not supplied. -/
def missing : Symbol := ⟨""⟩

def ellipsis : Symbol := ⟨"..."⟩

/-- The attribute that holds the explicit class of a vector. -/
def classAttribute : Symbol := ⟨"class"⟩

/-- The attribute that holds the extents of a matrix. -/
def dimAttribute : Symbol := ⟨"dim"⟩

def isMissing (s : Symbol) : Bool := s == missing

def isEllipsis (s : Symbol) : Bool := s == ellipsis

/-- The tag an argument written with this name carries: the empty name tags nothing. -/
def asTag? (s : Symbol) : Option Symbol := if s.isMissing then none else some s

/-- Whether this name begins with the characters of `short`. -/
def startsWith (s short : Symbol) : Bool := short.name.toList.isPrefixOf s.name.toList

/-- The text that shows which symbol this is. -/
def inspect (s : Symbol) : String :=
  if s.isMissing then "<missing>" else "`" ++ s.name ++ "`"

def sortByName (symbols : List Symbol) : List Symbol :=
  symbols.mergeSort fun a b => decide (a.name ≤ b.name)

@[simp] theorem isMissing_iff (s : Symbol) : s.isMissing = true ↔ s = missing := by
  simp [isMissing]

@[simp] theorem isEllipsis_iff (s : Symbol) : s.isEllipsis = true ↔ s = ellipsis := by
  simp [isEllipsis]

theorem startsWith_iff {s short : Symbol} :
    s.startsWith short = true ↔ short.name.toList <+: s.name.toList := by
  simp [startsWith]

theorem missing_ne_ellipsis : missing ≠ ellipsis := by decide

end Symbol

end CallByNeed
