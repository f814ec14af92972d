/-!
# Elementwise operators

The mathematical functions, arithmetic operators and comparisons that act on
one number, or on one pair of numbers, at a time.
-/

namespace CallByNeed

inductive MathFunction where
  | sqrt
  | sin
  | cos
  | exp
  | log
  | abs
  deriving DecidableEq, Repr

/-- An operation on one number: the opposite, or a mathematical function. -/
inductive UnaryOp where
  | neg
  | math (f : MathFunction)
  deriving DecidableEq, Repr

inductive BinaryOp where
  | add
  | sub
  | mul
  | div
  | pow
  deriving DecidableEq, Repr

inductive Comparison where
  | gt
  | lt
  | ge
  | le
  | eq
  deriving DecidableEq, Repr

namespace MathFunction

def apply : MathFunction → Float → Float
  | sqrt, x => x.sqrt
  | sin, x => x.sin
  | cos, x => x.cos
  | exp, x => x.exp
  | log, x => x.log
  | abs, x => x.abs

def name : MathFunction → String
  | sqrt => "sqrt"
  | sin => "sin"
  | cos => "cos"
  | exp => "exp"
  | log => "log"
  | abs => "abs"

def all : List MathFunction := [sqrt, sin, cos, exp, log, abs]

end MathFunction

namespace UnaryOp

def apply : UnaryOp → Float → Float
  | neg, x => -x
  | math f, x => f.apply x

def name : UnaryOp → String
  | neg => "neg"
  | math f => f.name

def all : List UnaryOp := neg :: MathFunction.all.map math

def ofName? (text : String) : Option UnaryOp := all.find? fun op => op.name == text

end UnaryOp

namespace BinaryOp

def apply : BinaryOp → Float → Float → Float
  | add, x, y => x + y
  | sub, x, y => x - y
  | mul, x, y => x * y
  | div, x, y => x / y
  | pow, x, y => x.pow y

def spelling : BinaryOp → String
  | add => "+"
  | sub => "-"
  | mul => "*"
  | div => "/"
  | pow => "^"

def all : List BinaryOp := [add, sub, mul, div, pow]

def ofSpelling? (text : String) : Option BinaryOp := all.find? fun op => op.spelling == text

end BinaryOp

namespace Comparison

def test : Comparison → Float → Float → Bool
  | gt, x, y => x > y
  | lt, x, y => x < y
  | ge, x, y => x >= y
  | le, x, y => x <= y
  | eq, x, y => x == y

def spelling : Comparison → String
  | gt => ">"
  | lt => "<"
  | ge => ">="
  | le => "<="
  | eq => "=="

def all : List Comparison := [gt, lt, ge, le, eq]

end Comparison

end CallByNeed
