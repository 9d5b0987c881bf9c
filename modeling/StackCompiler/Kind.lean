/-
The kinds of values. An int is kept sign-extended to 64 bits in registers,
and a double travels through general registers as its bits.
-/

namespace StackCompiler

/-- The kinds of values. -/
inductive Kind where
  | int
  | long
  | double
  | reference
  | word
  | void
deriving DecidableEq, Repr, Inhabited

namespace Kind

def all : List Kind := [.int, .long, .double, .reference, .word, .void]

def width : Kind → Nat
  | int => 4
  | long | double | reference | word => 8
  | void => 0

def letter : Kind → Char
  | int => 'I'
  | long => 'J'
  | double => 'D'
  | reference => 'L'
  | word => 'W'
  | void => 'V'

def tag : Kind → Int32
  | int => 0
  | long => 1
  | double => 2
  | reference => 3
  | word => 4
  | void => -1

def name : Kind → String
  | int => "int"
  | long => "long"
  | double => "double"
  | reference => "ref"
  | word => "word"
  | void => "void"

def keyword : Kind → String
  | reference => "reference"
  | k => k.name

def ofKeyword? (s : String) : Option Kind := all.find? (·.keyword == s)

/-- The name inside the name of a support routine, and in listings of instructions. -/
def title : Kind → String
  | int => "Int"
  | long => "Long"
  | double => "Double"
  | reference => "Reference"
  | word => "Word"
  | void => "Void"

end Kind
end StackCompiler
