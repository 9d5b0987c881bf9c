/-
The routines that compiled code calls for allocation, array access and
throwing.
-/
import StackCompiler.Bytecode.Method

namespace StackCompiler.Support

def holder : String := "Snippets"

def object : String := "Ljava/lang/Object;"

def routine (name descriptor : String) : MethodKey := ⟨holder, name, descriptor⟩

def typeOf : Kind → String
  | .reference => object
  | kind => String.singleton kind.letter

def newArray : MethodKey := routine "newArray" ("(II)" ++ object)

def newInstance : MethodKey := routine "newInstance" ("(" ++ object ++ ")" ++ object)

def arrayLength : MethodKey := routine "arrayLength" ("(" ++ object ++ ")I")

def arrayLoad (element : Kind) : MethodKey :=
  routine ("arrayLoad" ++ element.title) ("(" ++ object ++ "I)" ++ typeOf element)

def arrayStore (element : Kind) : MethodKey :=
  routine ("arrayStore" ++ element.title) ("(" ++ object ++ "I" ++ typeOf element ++ ")V")

def throwException : MethodKey := routine "throwException" ("(" ++ object ++ ")V")

end StackCompiler.Support
