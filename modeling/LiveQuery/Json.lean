import LiveQuery.Keyed

/-! # JSON

The data that answers and messages carry: null, booleans, integers, texts, lists and objects, an
object's fields in key order.

* `Json.compact` writes a value on one line without blanks.
* `Json.pretty` writes it over several lines, two blanks to a level, empty lists and objects on one.
-/
namespace LiveQuery

inductive Json
  | null
  | bool (b : Bool)
  | num (n : Int)
  | str (s : String)
  | arr (items : List Json)
  | obj (fields : List (String × Json))
deriving Inhabited, Repr

namespace Json

/-! ## Equality -/

mutual

/-- Whether two values are the same. -/
def same : Json → Json → Bool
  | .null, .null => true
  | .bool a, .bool b => a == b
  | .num a, .num b => a == b
  | .str a, .str b => a == b
  | .arr as, .arr bs => sameItems as bs
  | .obj as, .obj bs => sameFields as bs
  | _, _ => false

def sameItems : List Json → List Json → Bool
  | [], [] => true
  | a :: as, b :: bs => a.same b && sameItems as bs
  | _, _ => false

def sameFields : List (String × Json) → List (String × Json) → Bool
  | [], [] => true
  | (m, a) :: as, (n, b) :: bs => m == n && a.same b && sameFields as bs
  | _, _ => false

end

mutual

theorem same_iff : (a b : Json) → (a.same b = true ↔ a = b)
  | .arr as, .arr bs => by rw [same, sameItems_iff as bs, Json.arr.injEq]
  | .obj as, .obj bs => by rw [same, sameFields_iff as bs, Json.obj.injEq]
  | .null, b | .bool _, b | .num _, b | .str _, b => by cases b <;> simp [same]
  | .arr _, .null | .arr _, .bool _ | .arr _, .num _ | .arr _, .str _ | .arr _, .obj _ => by simp [same]
  | .obj _, .null | .obj _, .bool _ | .obj _, .num _ | .obj _, .str _ | .obj _, .arr _ => by simp [same]

theorem sameItems_iff : (as bs : List Json) → (sameItems as bs = true ↔ as = bs)
  | [], bs => by cases bs <;> simp [sameItems]
  | _ :: _, [] => by simp [sameItems]
  | a :: as, b :: bs => by
    rw [sameItems, Bool.and_eq_true, same_iff a b, sameItems_iff as bs, List.cons.injEq]

theorem sameFields_iff : (as bs : List (String × Json)) → (sameFields as bs = true ↔ as = bs)
  | [], bs => by cases bs <;> simp [sameFields]
  | _ :: _, [] => by simp [sameFields]
  | (m, a) :: as, (n, b) :: bs => by
    rw [sameFields, Bool.and_eq_true, Bool.and_eq_true, same_iff a b, sameFields_iff as bs, beq_iff_eq,
      List.cons.injEq, Prod.mk.injEq]

end

instance : DecidableEq Json := fun a b => decidable_of_iff _ (same_iff a b)

/-- The object with the given fields. -/
def ofFields (fields : List (String × Json)) : Json := .obj (Keyed.ofList fields)

/-! ## Writing -/

/-- One character inside a JSON text. -/
def escaped (c : Char) : List Char :=
  if c = '"' then ['\\', '"']
  else if c = '\\' then ['\\', '\\']
  else if c = '\x08' then ['\\', 'b']
  else if c = '\x0c' then ['\\', 'f']
  else if c = '\n' then ['\\', 'n']
  else if c = '\r' then ['\\', 'r']
  else if c = '\t' then ['\\', 't']
  else if c.toNat < 0x20 then
    ['\\', 'u', '0', '0', Nat.digitChar (c.toNat / 16), Nat.digitChar (c.toNat % 16)]
  else [c]

/-- A text between quotes. -/
def quotedText (s : String) : String :=
  "\"" ++ String.ofList (s.toList.flatMap escaped) ++ "\""

mutual

/-- The value on one line, without blanks. -/
def compact : Json → String
  | .null => "null"
  | .bool b => if b then "true" else "false"
  | .num n => toString n
  | .str s => quotedText s
  | .arr items => "[" ++ ",".intercalate (compactItems items) ++ "]"
  | .obj fields => "\x7b" ++ ",".intercalate (compactFields fields) ++ "\x7d"

def compactItems : List Json → List String
  | [] => []
  | v :: rest => v.compact :: compactItems rest

def compactFields : List (String × Json) → List String
  | [] => []
  | (k, v) :: rest => (quotedText k ++ ":" ++ v.compact) :: compactFields rest

end

/-- The blanks in front of a line at some depth. -/
def margin (depth : Nat) : String := String.ofList (List.replicate (2 * depth) ' ')

/-- Lines between an opening and a closing bracket, each but the last followed by a comma. -/
def bracketed (opening closing : String) (depth : Nat) (lines : List String) : String :=
  opening ++ "\n" ++ ",\n".intercalate (lines.map (margin (depth + 1) ++ ·)) ++ "\n" ++
    margin depth ++ closing

mutual

/-- The value over several lines, starting at some depth. -/
def prettyAt (depth : Nat) : Json → String
  | .null => "null"
  | .bool b => if b then "true" else "false"
  | .num n => toString n
  | .str s => quotedText s
  | .arr [] => "[]"
  | .arr (v :: rest) =>
    bracketed "[" "]" depth (v.prettyAt (depth + 1) :: prettyItems (depth + 1) rest)
  | .obj [] => "\x7b\x7d"
  | .obj ((k, v) :: rest) =>
    bracketed "\x7b" "\x7d" depth
      ((quotedText k ++ ": " ++ v.prettyAt (depth + 1)) :: prettyFields (depth + 1) rest)

def prettyItems (depth : Nat) : List Json → List String
  | [] => []
  | v :: rest => v.prettyAt depth :: prettyItems depth rest

def prettyFields (depth : Nat) : List (String × Json) → List String
  | [] => []
  | (k, v) :: rest => (quotedText k ++ ": " ++ v.prettyAt depth) :: prettyFields depth rest

end

/-- The value over several lines. -/
def pretty (v : Json) : String := v.prettyAt 0

/-! ## Reading parts -/

/-- The items of a list. -/
def items? : Json → Option (List Json)
  | .arr items => some items
  | _ => none

/-- The fields of an object. -/
def fields? : Json → Option (List (String × Json))
  | .obj fields => some fields
  | _ => none

/-- Whether the value has no parts. -/
def isScalar : Json → Bool
  | .arr _ | .obj _ => false
  | _ => true

end Json

end LiveQuery
