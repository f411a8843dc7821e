/-!
# Names of methods and closure classes

A method is known outside its class as `Class$method`.  The class that stands for a function is
named by the path of enclosing functions down to it.
-/

namespace Midend

def initName : String := "__init__"

/-- The name of the method that holds the body of a closure. -/
def applyName : String := "apply"

def selfName : String := "self"

/-- The name of a method outside its class. -/
def methodName (className method : String) : String := className ++ "$" ++ method

/-- The name of the class that stands for `function`, nested in the functions `enclosing`, outermost
first. -/
def closureClassName (function : String) (enclosing : List String) : String :=
  "_$".intercalate (enclosing ++ [function]) ++ "_$closure$"

def dottedPath (function : String) (enclosing : List String) : String :=
  ".".intercalate (enclosing ++ [function])

end Midend
