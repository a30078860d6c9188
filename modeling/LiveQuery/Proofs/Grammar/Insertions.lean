import LiveQuery.Grammar.Statement
import LiveQuery.Proofs.Grammar.Expressions

/-! # Rows that are written out

An insertion of a record of literals (`Statement.insertion`) is read as such, whatever the values are: in a text every
character can stand for itself, but a quote and a backslash, which have a backslash in front
(`Statement.read_insertion`).
-/
namespace LiveQuery

/-! ## Literals -/

/-- How a character is written between quotes when a backslash stands only where it has to. -/
def Text.guarded (c : Char) : List Char := if c = '"' ∨ c = '\\' then ['\\', c] else [c]

/-- The literal with as few escapes as there can be. -/
def Literal.plainText : Literal → String
  | .str s => String.ofList ('"' :: (s.toList.flatMap Text.guarded ++ ['"']))
  | .int n => toString n.toInt
  | .bool b => if b then "true" else "false"

/-- The statement that inserts a row of literals. -/
def Statement.insertion (table : String) (row : List (String × Literal)) : String :=
  "INSERT INTO " ++ table ++ " \x7b" ++ ", ".intercalate (row.map fun f => f.1 ++ ": " ++ f.2.plainText) ++ "\x7d"

/-- The record of literals. -/
def Expr.ofRow (row : List (String × Literal)) : Expr := .record (Keyed.mapValues Literal.expr row)

/-- The characters of a literal with as few escapes as there can be. -/
def Expr.plainChars : Expr → List Char
  | .str s => '"' :: (s.toList.flatMap Text.guarded ++ ['"'])
  | e => e.text.toList

theorem Literal.plainChars_expr (l : Literal) : l.expr.plainChars = l.plainText.toList := by
  cases l with
  | str s => rw [plainText, String.toList_ofList]; rfl
  | int n => rfl
  | bool b => cases b <;> rfl

namespace Grammar

open Text

theorem splitQuoted_guarded (s rest : List Char) :
    splitQuoted (s.flatMap guarded ++ '"' :: rest) = some (s.flatMap guarded, rest) := by
  induction s with
  | nil => rfl
  | cons c s ih =>
    rw [List.flatMap_cons, List.append_assoc]
    by_cases hc : c = '"' ∨ c = '\\'
    · rw [guarded, if_pos hc]
      show (splitQuoted (s.flatMap guarded ++ '"' :: rest)).map _ = _
      rw [ih]
      rfl
    · have hplain : ∀ d ∈ [c], d ≠ '"' ∧ d ≠ '\\' := by simpa using not_or.mp hc
      rw [guarded, if_neg hc, splitQuoted_plain hplain, ih]
      rfl

theorem unescape_guarded (s : List Char) : unescape (s.flatMap guarded) = some s := by
  induction s with
  | nil => rfl
  | cons c s ih =>
    rw [List.flatMap_cons]
    by_cases hc : c = '"' ∨ c = '\\'
    · rw [guarded, if_pos hc]
      rcases hc with rfl | rfl
      all_goals
        show (unescape (s.flatMap guarded)).map _ = _
        rw [ih]
        rfl
    · have hstep : unescape (c :: s.flatMap guarded) = (unescape (s.flatMap guarded)).map (c :: ·) := by
        rw [unescape]
        all_goals simp [(not_or.mp hc).2]
      rw [guarded, if_neg hc, List.singleton_append, hstep, ih]
      rfl

theorem primary_text {rt : Reader Ty} {re : Reader Expr} {s : List Char} (hs : Blanks s) (t : String)
    (P : List Char → Prop) :
    (primary rt re).Reads (s ++ '"' :: (t.toList.flatMap guarded ++ ['"'])) (.str t) P := by
  intro rest fault _
  have hread := string_eq (s := []) (by decide) (splitQuoted_guarded t.toList rest) fault
  rw [unescape_guarded, Option.elim_some, Option.elim_some, String.ofList_toList, Option.or_none,
    List.nil_append] at hread
  have htext : s ++ '"' :: (t.toList.flatMap guarded ++ ['"']) ++ rest =
      s ++ '"' :: (t.toList.flatMap guarded ++ '"' :: rest) := by simp
  rw [htext, primary_eq, Reader.bind_eq (peek_eq hs (by decide) _ fault), if_neg (by decide), if_neg (by decide),
    if_pos rfl, Reader.bind_eq hread]
  rfl

theorem literal_spells (fuel : Nat) (l : Literal) : Spells (expr (fuel + 1)) l.expr.plainChars l.expr := by
  refine spells_base fun s hs => ?_
  cases l with
  | str t => exact (primary_text hs t _).notes.takes
  | int n => exact (primary_int hs n).notes.takes.mono fun _ h => h.ends
  | bool b =>
    have hn : Name (if b then "true" else "false") := by cases b <;> decide
    exact (primary_var hs hn).mono fun _ h => ⟨h.ends, h.call⟩

/-! ## Insertions -/

/-- The characters of a row of literals. -/
def rowChars (row : List (String × Literal)) : List Char :=
  '\x7b' :: (itemChars (Expr.fieldChars Expr.plainChars) (Keyed.mapValues Literal.expr row) ++ ['\x7d'])

theorem row_spells (fuel : Nat) {row : List (String × Literal)} (ho : Keyed.Ordered row)
    (hn : ∀ f ∈ row, Name f.1) : Spells (expr (fuel + 2)) (rowChars row) (.ofRow row) := by
  refine spells_base fun s hs => (primary_record hs (ho.mapValues _) ?_ ?_ _).notes.takes
  · intro f hf
    obtain ⟨g, hg, rfl⟩ := List.mem_map.mp hf
    exact hn g hg
  · intro f hf
    obtain ⟨g, -, rfl⟩ := List.mem_map.mp hf
    exact literal_spells fuel g.2

theorem itemChars_map {α β : Type} (chars : β → List Char) (f : α → β) (as : List α) :
    itemChars chars (as.map f) = itemChars (fun a => chars (f a)) as := by
  cases as with
  | nil => rfl
  | cons a as => simp [itemChars, moreChars, List.flatMap_map]

theorem toList_insertion (table : String) (row : List (String × Literal)) :
    (Statement.insertion table row).toList =
      "INSERT".toList ++ (" INTO".toList ++ (' ' :: table.toList ++ (' ' :: rowChars row))) := by
  have hinsert : "INSERT INTO ".toList = "INSERT".toList ++ (" INTO".toList ++ [' ']) := rfl
  have hopen : " \x7b".toList = [' ', '\x7b'] := rfl
  have hclose : "\x7d".toList = ['\x7d'] := rfl
  have hcomma : ", ".toList = [',', ' '] := rfl
  have hcolon : ": ".toList = [':', ' '] := rfl
  have hfields : (row.map fun f => f.1 ++ ": " ++ f.2.plainText).map String.toList =
      row.map fun f => Expr.fieldChars Expr.plainChars (f.1, f.2.expr) := by
    rw [List.map_map]
    refine List.map_congr_left fun f _ => ?_
    simp only [Function.comp_apply, String.toList_append, hcolon, Expr.fieldChars, Literal.plainChars_expr,
      List.append_assoc]
    rfl
  simp only [Statement.insertion, String.toList_append, String.toList_intercalate, hinsert, hopen, hclose, hcomma,
    hfields, intercalate_comma, rowChars, Keyed.mapValues, itemChars_map, List.append_assoc, List.cons_append,
    List.nil_append]

theorem insertion_read {table : String} {row : List (String × Literal)} (ht : Identifier table)
    (ho : Keyed.Ordered row) (hn : ∀ f ∈ row, Name f.1) (fuel : Nat) :
    statement (fuel + 2) ⟨(Statement.insertion table row).toList, none⟩ =
      some (.insert table (.ofRow row), ⟨[], none⟩) := by
  obtain ⟨s', rest', hs', heq, hrow⟩ := (row_spells fuel ho hn).run (s := [' ']) (by decide) finishes_nil none
  obtain ⟨-, rfl⟩ := List.append_eq_nil_iff.mp heq.symm
  rw [List.append_nil, List.singleton_append] at hrow
  have hname : identifier ⟨' ' :: table.toList ++ (' ' :: rowChars row), none⟩ =
      some (table, ⟨' ' :: rowChars row, none⟩) :=
    identifier_reads (s := [' ']) (by decide) ht _ none (ends_blank _)
  generalize hafter : ' ' :: table.toList ++ (' ' :: rowChars row) = after at hname
  have hends : Ends after := hafter ▸ ends_blank _
  have hinto : keyword "into" ⟨" INTO".toList ++ after, none⟩ = some ((), ⟨after, none⟩) :=
    keyword_reads (s := [' ']) (w := "INTO".toList) (by decide) (by decide) (by decide) _ none hends
  have hfollow : Ends (" INTO".toList ++ after) := ends_blank _
  have hpeek : peekWord ⟨"INSERT".toList ++ (" INTO".toList ++ after), none⟩ =
      some ("INSERT".toList, ⟨"INSERT".toList ++ (" INTO".toList ++ after), none⟩) :=
    peekWord_eq (s := []) (by decide) (show IsWord "INSERT".toList by decide) hfollow none
  have hinsert : keyword "insert" ⟨"INSERT".toList ++ (" INTO".toList ++ after), none⟩ =
      some ((), ⟨" INTO".toList ++ after, none⟩) :=
    keyword_reads (s := []) (w := "INSERT".toList) (by decide) (by decide) (by decide) _ none hfollow
  rw [toList_insertion, hafter, statement, Reader.bind_eq hpeek, if_neg (by decide), if_pos (by decide),
    Reader.bind_eq hinsert, insertTail, Reader.bind_eq hinto, Reader.bind_eq hname, Reader.bind_eq hrow]
  rfl

end Grammar

/-- A row of literals is read from its insertion, whatever the values are. -/
theorem Statement.read_insertion {table : String} {row : List (String × Literal)} (ht : Grammar.Identifier table)
    (ho : Keyed.Ordered row) (hn : ∀ f ∈ row, Grammar.Name f.1) :
    Statement.read (Statement.insertion table row) = .ok (.insert table (.ofRow row)) := by
  obtain ⟨fuel, hfuel⟩ : ∃ fuel, (Statement.insertion table row).length + 1 = fuel + 2 := by
    have hlen := congrArg List.length (Grammar.toList_insertion table row)
    rw [List.length_append, String.length_toList] at hlen
    have hword : "INSERT".toList.length = 6 := by decide
    exact ⟨(Statement.insertion table row).length - 1, by omega⟩
  rw [Statement.read, hfuel, Grammar.readAll]
  have hend : Grammar.accept ';' ⟨[], none⟩ = some (false, ⟨[], none⟩) := rfl
  rw [Reader.bind_eq (j := ⟨[], none⟩) (a := .insert table (.ofRow row))
    (by rw [Reader.bind_eq (Grammar.insertion_read ht ho hn fuel), Reader.bind_eq hend]; rfl)]
  rfl

example : Statement.insertion "t" [("b", .bool true), ("n", .int (-1)), ("s", .str "\r\"")] =
    "INSERT INTO t \x7bb: true, n: -1, s: \"\r\\\"\"\x7d" := by decide +kernel

end LiveQuery
