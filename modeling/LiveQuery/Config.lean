import LiveQuery.Text.Quoted

/-! # Configuration

The settings a database is opened with, read from named variables: where its file is, and how many
posts the inbox of a table holds.
-/
namespace LiveQuery

/-- The settings of a database. -/
structure Config where
  /-- The file; without one the database is kept in memory. -/
  path : Option String := none
  inboxCapacity : Nat := 1024
deriving DecidableEq, Repr, Inhabited

/-- Why a text is no count. -/
inductive CountFault
  | empty
  | invalidDigit
  | tooLarge
deriving DecidableEq, Repr

/-- The wording of a fault. -/
def CountFault.message : CountFault → String
  | .empty => "cannot parse integer from empty string"
  | .invalidDigit => "invalid digit found in string"
  | .tooLarge => "number too large to fit in target type"

/-- Why the variables give no configuration. -/
inductive ConfigFault
  | notACount (text : String) (fault : CountFault)
  | notPositive
deriving DecidableEq, Repr

namespace Config

/-- The variable that names the file. -/
def pathVariable : String := "LIVEDB_PATH"

/-- The variable that gives the capacity of an inbox. -/
def capacityVariable : String := "LIVEDB_INBOX_CAPACITY"

/-- The numbers from here on are no counts. -/
def countLimit : Nat := 18446744073709551616

/-- Reads on in a count after `n`. -/
def countFrom (n : Nat) : List Char → Except CountFault Nat
  | [] => .ok n
  | c :: rest =>
    if c.isDigit then
      let m := n * 10 + (c.toNat - 48)
      if m < countLimit then countFrom m rest else .error .tooLarge
    else .error .invalidDigit

/-- The count that a text writes in decimal digits, which a plus sign may stand before. -/
def readCount (s : String) : Except CountFault Nat :=
  match s.toList with
  | [] => .error .empty
  | ['+'] => .error .invalidDigit
  | '+' :: digits => countFrom 0 digits
  | digits => countFrom 0 digits

/-- The configuration that variables give. -/
def ofVariables (lookup : String → Option String) : Except ConfigFault Config := do
  let path := (lookup pathVariable).filter (· ≠ "")
  match lookup capacityVariable with
  | none => return { path }
  | some text =>
    match readCount text with
    | .error f => throw (.notACount text f)
    | .ok n =>
      if n = 0 then throw .notPositive
      return { path, inboxCapacity := n }

end Config

/-- The wording of a fault. -/
def ConfigFault.message : ConfigFault → String
  | .notACount text fault =>
    Config.capacityVariable ++ " must be a number, not " ++ Text.quoted text ++ ": " ++ fault.message
  | .notPositive => Config.capacityVariable ++ " must be positive"

end LiveQuery
