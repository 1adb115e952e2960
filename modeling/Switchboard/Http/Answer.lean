import Switchboard.Text.Utf8

/-!
# Answers

What is sent back for a request.
-/

namespace Switchboard.Http

/-- A request as far as it is looked at; names of headers are in lower case. -/
structure Request where
  method : String
  path : String
  headers : List (String × String) := []
  deriving Repr

structure Answer where
  status : Nat
  type : Option String := none
  allow : Option String := none
  length : Option Nat := none
  body : Bytes := []
  deriving Repr

namespace Answer

/-- A status with nothing to say, and no length. -/
def bare (status : Nat) : Answer := { status := status }

/-- A status with an empty body. -/
def empty (status : Nat) : Answer := { status := status, length := some 0 }

/-- A status with a body of the given type. -/
def full (status : Nat) (type : String) (body : Bytes) : Answer :=
  { status := status, type := some type, length := some body.length, body := body }

/-- The answer to a request for the head alone keeps the length of the body it leaves out. -/
def forMethod (a : Answer) (method : String) : Answer :=
  if method = "HEAD" then { a with body := [] } else a

end Answer

end Switchboard.Http
