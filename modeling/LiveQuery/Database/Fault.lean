import LiveQuery.Grammar.Token
import LiveQuery.Plan
import LiveQuery.Schema.Table

/-! # Faults of statements

Every cause for which a statement fails, with the wording that a client is shown.
-/
namespace LiveQuery

/-- Why a statement is refused that can be read and whose parts have types. -/
inductive StatementFault
  | unknownTable (table : String)
  | unknownColumn (table column : String)
  | columnType (column : String) (expected actual : Ty)
  | duplicateKey (table key : String)
  | keyFilter (table : String)
  | primaryKeyUpdate (table : String)
  | noRows (table : String)
  | liveWithoutConnection
  | invalidKey (key : String)
  | notARecord (key table row : String)
deriving DecidableEq, Repr

/-- The wording of a fault. -/
def StatementFault.message : StatementFault → String
  | .unknownTable table => "no such table: " ++ table
  | .unknownColumn table column => "table " ++ table ++ " has no column " ++ column
  | .columnType column expected actual =>
    "column " ++ column ++ " has type " ++ expected.text ++ ", but was given a " ++ actual.text
  | .duplicateKey table key => "table " ++ table ++ " already has a row with key " ++ key
  | .keyFilter table =>
    "rows of " ++ table ++ " can only be selected for writing by their primary key"
  | .primaryKeyUpdate table => "the primary key of " ++ table ++ " cannot be changed"
  | .noRows table => "ONE " ++ table ++ " matched no rows"
  | .liveWithoutConnection => "LIVE queries must be run on a connection"
  | .invalidKey key => "invalid primary key " ++ key
  | .notARecord key table row => "row " ++ key ++ " of " ++ table ++ " is not a record: " ++ row

inductive Fault
  | read (fault : ReadFault)
  | eval (fault : EvalFault)
  | encoding (fault : EncodingFault)
  | plan (fault : PlanFault)
  | schema (fault : SchemaFault)
  | statement (fault : StatementFault)
  /-- The same fault, with what was being done in front of its wording. -/
  | during (activity : String) (fault : Fault)
deriving DecidableEq, Repr

namespace Fault

/-- The wording of a fault. -/
def message : Fault → String
  | .read f => f.message
  | .eval f => f.message
  | .encoding f => f.message
  | .plan f => f.message
  | .schema f => f.message
  | .statement f => f.message
  | .during activity f => activity ++ ": " ++ f.message

end Fault

end LiveQuery
