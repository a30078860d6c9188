import LiveQuery.Keyed

/-! # Types

The types of values: integers, booleans, texts, records, iterators, functions, indexes and type
variables, which stand for any type in the declaration of a function.

* `Ty.text` writes a type; a record's fields are in key order.
* Equality of types is decidable.
* `Ty.isGround` holds of types without variables.
-/
namespace LiveQuery

inductive Ty
  | int
  | bool
  | string
  | record (fields : List (String × Ty))
  | iterator (element : Ty)
  | function (params : List Ty) (result : Ty)
  | index (key row : Ty)
  | var (name : String)
deriving Inhabited, Repr

namespace Ty

/-- The record type with the given fields; of two fields with one name the later one counts. -/
def recordOf (fields : List (String × Ty)) : Ty := .record (Keyed.ofList fields)

/-! ## Equality -/

mutual

/-- Whether two types are the same. -/
def same : Ty → Ty → Bool
  | .int, .int | .bool, .bool | .string, .string => true
  | .record fs, .record gs => sameFields fs gs
  | .iterator a, .iterator b => a.same b
  | .function ps a, .function qs b => sameList ps qs && a.same b
  | .index a b, .index c d => a.same c && b.same d
  | .var n, .var m => n == m
  | _, _ => false

def sameFields : List (String × Ty) → List (String × Ty) → Bool
  | [], [] => true
  | (n, a) :: fs, (m, b) :: gs => n == m && a.same b && sameFields fs gs
  | _, _ => false

def sameList : List Ty → List Ty → Bool
  | [], [] => true
  | a :: ps, b :: qs => a.same b && sameList ps qs
  | _, _ => false

end

mutual

theorem same_iff : (a b : Ty) → (a.same b = true ↔ a = b)
  | a, b => by
    cases a <;> cases b <;> simp only [same, reduceCtorEq, Bool.false_eq_true, Bool.and_eq_true,
      beq_iff_eq, Ty.record.injEq, Ty.iterator.injEq, Ty.function.injEq, Ty.index.injEq, Ty.var.injEq]
    · exact sameFields_iff _ _
    · exact same_iff _ _
    · rw [sameList_iff, same_iff]
    · rw [same_iff, same_iff]

theorem sameFields_iff : (fs gs : List (String × Ty)) → (sameFields fs gs = true ↔ fs = gs)
  | [], [] => by simp [sameFields]
  | [], _ :: _ => by simp [sameFields]
  | _ :: _, [] => by simp [sameFields]
  | (n, a) :: fs, (m, b) :: gs => by
    simp only [sameFields, Bool.and_eq_true, beq_iff_eq, List.cons.injEq, Prod.mk.injEq]
    rw [same_iff a b, sameFields_iff fs gs]

theorem sameList_iff : (ps qs : List Ty) → (sameList ps qs = true ↔ ps = qs)
  | [], [] => by simp [sameList]
  | [], _ :: _ => by simp [sameList]
  | _ :: _, [] => by simp [sameList]
  | a :: ps, b :: qs => by
    simp only [sameList, Bool.and_eq_true, List.cons.injEq]
    rw [same_iff a b, sameList_iff ps qs]

end

instance : DecidableEq Ty := fun a b => decidable_of_iff _ (same_iff a b)

/-! ## Variables -/

mutual

/-- Whether no type variable occurs in the type. -/
def isGround : Ty → Bool
  | .int | .bool | .string => true
  | .record fields => groundFields fields
  | .iterator t => t.isGround
  | .function params result => groundList params && result.isGround
  | .index key row => key.isGround && row.isGround
  | .var _ => false

def groundFields : List (String × Ty) → Bool
  | [] => true
  | (_, t) :: rest => t.isGround && groundFields rest

def groundList : List Ty → Bool
  | [] => true
  | t :: rest => t.isGround && groundList rest

end

/-! ## Writing -/

mutual

/-- The type as text. -/
def text : Ty → String
  | .int => "int"
  | .bool => "bool"
  | .string => "string"
  | .record fields => "\x7b" ++ ", ".intercalate (fieldTexts fields) ++ "\x7d"
  | .iterator t => "iterator<" ++ t.text ++ ">"
  | .function params result =>
    "fn(" ++ ", ".intercalate (paramTexts params) ++ "): " ++ result.text
  | .index key row => "index<" ++ key.text ++ ", " ++ row.text ++ ">"
  | .var name => "'" ++ name

def fieldTexts : List (String × Ty) → List String
  | [] => []
  | (k, t) :: rest => (k ++ ": " ++ t.text) :: fieldTexts rest

def paramTexts : List Ty → List String
  | [] => []
  | t :: rest => t.text :: paramTexts rest

end

end Ty

end LiveQuery
