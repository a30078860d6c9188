import LiveQuery.Ty.Basic

/-! # Faults of encoding and evaluation

What can go wrong when values are stored or read back, and when an expression is typed or evaluated.
Each fault is a cause; `message` gives its wording.
-/
namespace LiveQuery

/-- Why a value cannot be stored, or bytes cannot be read as a value. -/
inductive EncodingFault
  /-- The bytes end inside a number of fixed width. -/
  | shortRead
  | unsupported (ty : Ty)
  | invalidSerialType (code : Int)
  | invalidText
  | truncated
  | invalidFieldName
deriving DecidableEq, Repr

namespace EncodingFault

/-- The wording of a fault. -/
def message : EncodingFault → String
  | .shortRead => "Error reading encoded value: failed to fill whole buffer"
  | .unsupported ty => "Values of type " ++ ty.text ++ " cannot be stored."
  | .invalidSerialType code => "Invalid serial type code " ++ toString code ++ "."
  | .invalidText => "Bytes were not a valid string encoding."
  | .truncated => "Record is truncated."
  | .invalidFieldName => "Record field name is not a string."

end EncodingFault

/-- Why an expression has no type or no value. -/
inductive EvalFault
  | notInScope (name : String)
  | typeMismatch (expected actual : Ty)
  | missingTypeVar (name : String)
  | arity (name : String) (expected actual : Nat)
  | notARecord (member : String) (ty : Ty)
  | noSuchMember (member : String) (ty : Ty)
  | notAFunction (name : String)
  | returnContract (name : String) (declared actual : Ty)
  | notSerializable (ty : Ty)
  | rowNotFound (table key : String)
  | iteratorBusy
  | overflow (operation : String)
  | unknownPoint (point : Int)
  | encoding (fault : EncodingFault)
deriving DecidableEq, Repr

namespace EvalFault

/-- The wording of a fault. -/
def message : EvalFault → String
  | .notInScope name => name ++ " is not in scope"
  | .typeMismatch expected actual =>
    "type mismatch: expected " ++ expected.text ++ ", found " ++ actual.text
  | .missingTypeVar name => "missing type var '" ++ name
  | .arity name expected actual =>
    name ++ " expects " ++ toString expected ++ " arguments, got " ++ toString actual
  | .notARecord member ty =>
    "cannot access member " ++ member ++ " of non-record type " ++ ty.text
  | .noSuchMember member ty => "record of type " ++ ty.text ++ " has no member " ++ member
  | .notAFunction name => name ++ " is not a function"
  | .returnContract name declared actual =>
    "builtin " ++ name ++ " is declared to return " ++ declared.text ++ ", but returned " ++
      actual.text
  | .notSerializable ty => "a value of type " ++ ty.text ++ " cannot be serialized"
  | .rowNotFound table key => "no row with key " ++ key ++ " in table " ++ table
  | .iteratorBusy => "iterator is already being consumed"
  | .overflow operation => "integer overflow in " ++ operation
  | .unknownPoint point => "live query has no subscription point " ++ toString point
  | .encoding fault => fault.message

end EvalFault

end LiveQuery
