import LiveQuery.Proofs.Grammar.Tokens

/-! # Declarations are read as they were written

The text of a declaration reads back as the declaration (`TableDef.read_text`), if its names are identifiers and
it has a column. Every declaration that was read is like that (`TableDef.readable_of_read`).
Behind a column another constraint could follow, so its reader has to know what does (`Grammar.Closes`).
-/
namespace LiveQuery

namespace Grammar

/-! ## Columns -/

/-- The declaration of a column ends here. -/
def Closes (rest : List Char) : Prop := ∃ tail, rest = ',' :: tail ∨ rest = ')' :: tail

theorem Closes.ends {rest : List Char} (h : Closes rest) :
    Ends rest ∧ ∀ c ∈ rest.head?, isBlank c = false := by
  obtain ⟨tail, rfl | rfl⟩ := h
  all_goals exact ⟨by rintro c ⟨⟩; decide, by rintro c ⟨⟩; decide⟩

theorem constraints_done (c : ColumnDef) (fuel : Nat) : (constraints c (fuel + 1)).Reads [] c Closes := by
  intro rest fault hrest
  rw [constraints, List.nil_append, Reader.bind_eq (peekWord_nil hrest.ends.1 hrest.ends.2 fault)]
  rfl

/-- The characters of a reference. -/
def referenceChars (target : String) : List Char := " REFERENCES ".toList ++ target.toList

theorem constraints_reference (c : ColumnDef) {target : String} (ht : Identifier target) (fuel : Nat) :
    (constraints c (fuel + 2)).Reads (referenceChars target) { c with references := some target } Closes := by
  intro rest fault hrest
  have hkey : IsWord "REFERENCES".toList := by decide
  have hfollow : Ends (' ' :: (target.toList ++ rest)) := ends_blank _
  have htext : referenceChars target ++ rest =
      [' '] ++ ("REFERENCES".toList ++ (' ' :: (target.toList ++ rest))) := rfl
  have hread : keyword "references" ⟨"REFERENCES".toList ++ (' ' :: (target.toList ++ rest)), fault⟩ =
      some ((), ⟨' ' :: (target.toList ++ rest), fault⟩) :=
    keyword_reads (s := []) (by decide) hkey (by decide) _ fault hfollow
  have hname : identifier ⟨' ' :: (target.toList ++ rest), fault⟩ = some (target, ⟨rest, fault⟩) :=
    identifier_reads (s := [' ']) (by decide) ht _ fault hrest.ends.1
  rw [htext, constraints, Reader.bind_eq (peekWord_eq (by decide) hkey hfollow fault), if_neg (by decide),
    if_pos (by decide), Reader.bind_eq hread, Reader.bind_eq hname]
  exact constraints_done _ fuel rest fault hrest

theorem constraints_primary (c : ColumnDef) {cs : List Char} {c' : ColumnDef} {fuel : Nat}
    (hcs : ∀ rest, Closes rest → Ends (cs ++ rest))
    (h : (constraints { c with primaryKey := true } fuel).Reads cs c' Closes) :
    (constraints c (fuel + 1)).Reads (" PRIMARY KEY".toList ++ cs) c' Closes := by
  intro rest fault hrest
  have hfirst : IsWord "PRIMARY".toList := by decide
  have hsecond : IsWord "KEY".toList := by decide
  have hfollow : Ends (" KEY".toList ++ (cs ++ rest)) := ends_blank _
  have htext : " PRIMARY KEY".toList ++ cs ++ rest = [' '] ++ ("PRIMARY".toList ++ (" KEY".toList ++ (cs ++ rest))) :=
    rfl
  have hread : keyword "primary" ⟨"PRIMARY".toList ++ (" KEY".toList ++ (cs ++ rest)), fault⟩ =
      some ((), ⟨" KEY".toList ++ (cs ++ rest), fault⟩) :=
    keyword_reads (s := []) (by decide) hfirst (by decide) _ fault hfollow
  have hread' : keyword "key" ⟨" KEY".toList ++ (cs ++ rest), fault⟩ = some ((), ⟨cs ++ rest, fault⟩) :=
    keyword_reads (s := [' ']) (by decide) hsecond (by decide) _ fault (hcs rest hrest)
  rw [htext, constraints, Reader.bind_eq (peekWord_eq (by decide) hfirst hfollow fault), if_pos (by decide),
    Reader.bind_eq hread, Reader.bind_eq hread']
  exact h rest fault hrest

/-- The characters of the constraints of a column. -/
def constraintChars (c : ColumnDef) : List Char :=
  (if c.primaryKey then " PRIMARY KEY".toList else []) ++ (c.references.map referenceChars).getD []

end Grammar

/-- A declaration of a column whose names can be read. -/
structure ColumnDef.Readable (c : ColumnDef) : Prop where
  name : Grammar.Identifier c.name
  references : ∀ target ∈ c.references, Grammar.Identifier target

/-- A declaration of a table whose names can be read, with a column. -/
structure TableDef.Readable (d : TableDef) : Prop where
  name : Grammar.Identifier d.name
  columns : ∀ c ∈ d.columns, c.Readable
  nonempty : d.columns ≠ []

namespace Grammar

theorem constraints_read {c : ColumnDef} (hc : c.Readable) {fuel : Nat} (hfuel : (constraintChars c).length < fuel) :
    (constraints { name := c.name, type := c.type } fuel).Reads (constraintChars c) c Closes := by
  obtain ⟨name, type, primaryKey, references⟩ := c
  have hprimary : " PRIMARY KEY".toList.length = 12 := rfl
  have hreference : ∀ target : String, 12 ≤ (referenceChars target).length := by
    intro target
    have hword : " REFERENCES ".toList.length = 12 := rfl
    have hlen : (referenceChars target).length = 12 + target.toList.length :=
      List.length_append.trans (congrArg (· + _) hword)
    omega
  rw [constraintChars, List.length_append] at hfuel
  cases references with
  | none =>
    cases primaryKey with
    | false =>
      obtain ⟨n, rfl⟩ : ∃ n, fuel = n + 1 := ⟨fuel - 1, by omega⟩
      exact constraints_done _ n
    | true =>
      rw [if_pos rfl, hprimary] at hfuel
      obtain ⟨n, rfl⟩ : ∃ n, fuel = n + 2 := ⟨fuel - 2, by omega⟩
      exact constraints_primary _ (fun rest h => h.ends.1) (constraints_done _ n)
  | some target =>
    have ht : Identifier target := hc.references target rfl
    have hlong : 12 < fuel := by
      have hlen := hreference target
      rw [Option.map_some, Option.getD_some] at hfuel
      omega
    cases primaryKey with
    | false =>
      obtain ⟨n, rfl⟩ : ∃ n, fuel = n + 2 := ⟨fuel - 2, by omega⟩
      exact constraints_reference _ ht n
    | true =>
      obtain ⟨n, rfl⟩ : ∃ n, fuel = n + 3 := ⟨fuel - 3, by omega⟩
      exact constraints_primary _ (fun rest _ => ends_blank _) (constraints_reference _ ht n)

/-- The name of a column type is read as the type. -/
theorem columnType_reads (t : ColumnType) (P : List Char → Prop) (hP : ∀ rest, P rest → Ends rest) :
    columnType.Reads (' ' :: t.text.toList) t P := by
  intro rest fault hrest
  have hends := hP rest hrest
  have hletters : ∀ c ∈ t.text.toList, c.isAlpha = true :=
    List.all_eq_true.mp (by cases t <;> decide)
  have hhead : ∀ c ∈ (t.text.toList ++ rest).head?, isBlank c = false := head_word (by cases t <;> decide)
  have hnext : ∀ c ∈ rest.head?, c.isAlpha = false := by
    intro c hc
    have hname := hends c hc
    simp only [isNameChar, Char.isAlphanum, Bool.or_eq_false_iff] at hname
    exact hname.1.1
  have hskip : skip ⟨' ' :: (t.text.toList ++ rest), fault⟩ = some ((), ⟨t.text.toList ++ rest, fault⟩) :=
    skip_eq (s := [' ']) (by decide) hhead fault
  rw [List.cons_append, columnType, Reader.bind_eq hskip,
    Reader.bind_eq (takeWhile_eq hletters hnext fault)]
  cases t <;> rfl

/-- The characters of the declaration of a column. -/
def columnChars (c : ColumnDef) : List Char := c.name.toList ++ ((' ' :: c.type.text.toList) ++ constraintChars c)

theorem ends_constraintChars (c : ColumnDef) {rest : List Char} (hrest : Closes rest) :
    Ends (constraintChars c ++ rest) := by
  obtain ⟨name, type, primaryKey, references⟩ := c
  cases primaryKey with
  | true => exact ends_blank _
  | false =>
    cases references with
    | none => exact hrest.ends.1
    | some target => exact ends_blank _

theorem columnDef_reads {s : List Char} (hb : Blanks s) {c : ColumnDef} (hc : c.Readable) :
    columnDef.Reads (s ++ columnChars c) c Closes := by
  intro rest fault hrest
  have hends : Ends (' ' :: (c.type.text.toList ++ (constraintChars c ++ rest))) := ends_blank _
  have hname :
      identifier ⟨s ++ (c.name.toList ++ (' ' :: (c.type.text.toList ++ (constraintChars c ++ rest)))), fault⟩ =
        some (c.name, ⟨' ' :: (c.type.text.toList ++ (constraintChars c ++ rest)), fault⟩) := by
    rw [← List.append_assoc]
    exact identifier_reads hb hc.name _ fault hends
  have htype : columnType ⟨' ' :: (c.type.text.toList ++ (constraintChars c ++ rest)), fault⟩ =
      some (c.type, ⟨constraintChars c ++ rest, fault⟩) :=
    columnType_reads c.type Ends (fun _ h => h) _ fault (ends_constraintChars c hrest)
  have hfuel : (constraintChars c).length < (constraintChars c ++ rest).length + 1 := by
    rw [List.length_append]
    omega
  have htext : s ++ columnChars c ++ rest =
      s ++ (c.name.toList ++ (' ' :: (c.type.text.toList ++ (constraintChars c ++ rest)))) := by
    simp [columnChars]
  rw [htext, columnDef, Reader.bind_eq hname, Reader.bind_eq htype]
  exact constraints_read hc hfuel rest fault hrest

/-! ## Tables -/

/-- The characters of the declaration of a table, whose first column is `c`. -/
def tableChars (name : String) (c : ColumnDef) (cs : List ColumnDef) : List Char :=
  "CREATE".toList ++ (" TABLE".toList ++ ((' ' :: name.toList) ++ (" (".toList ++
    (columnChars c ++ (moreChars columnChars cs ++ [')'])))))

/-- The definition as a lemma, since the equation that is made for it evaluates the texts. -/
theorem tableChars_eq (name : String) (c : ColumnDef) (cs : List ColumnDef) : tableChars name c cs =
    "CREATE".toList ++ (" TABLE".toList ++ (' ' :: (name.toList ++ (" (".toList ++
      (columnChars c ++ (moreChars columnChars cs ++ [')'])))))) := rfl

theorem statement_read {name : String} {c : ColumnDef} {cs : List ColumnDef}
    (h : TableDef.Readable ⟨name, c :: cs⟩) (fuel : Nat) :
    statement fuel ⟨tableChars name c cs, none⟩ = some (.create ⟨name, c :: cs⟩, ⟨[], none⟩) := by
  have hfirst : IsWord "CREATE".toList := by decide
  have hsecond : IsWord "TABLE".toList := by decide
  obtain ⟨hc, hcs⟩ := List.forall_mem_cons.mp h.columns
  generalize hcolumns : columnChars c ++ (moreChars columnChars cs ++ [')']) = columns
  have hitems : items columnDef ⟨columns, none⟩ = some (c :: cs, ⟨[')'], none⟩) := by
    rw [← hcolumns, ← List.append_assoc]
    exact items_read (s := []) (by decide) (by decide) (by decide) ⟨[], .inr rfl⟩ (fun rest => ⟨rest, .inl rfl⟩)
      (columnDef_reads (s := []) (by decide) hc).notes.takes
      (fun b hb => (columnDef_reads (s := [' ']) (by decide) (hcs b hb)).notes.takes) none
  have hname : identifier ⟨' ' :: (name.toList ++ (" (".toList ++ columns)), none⟩ =
      some (name, ⟨" (".toList ++ columns, none⟩) :=
    identifier_reads (s := [' ']) (by decide) h.name _ none (ends_blank _)
  have htable : keyword "table" ⟨" TABLE".toList ++ (' ' :: (name.toList ++ (" (".toList ++ columns))), none⟩ =
      some ((), ⟨' ' :: (name.toList ++ (" (".toList ++ columns)), none⟩) :=
    keyword_reads (s := [' ']) (by decide) hsecond (by decide) _ none (ends_blank _)
  have hopen : symbol '(' ⟨" (".toList ++ columns, none⟩ = some ((), ⟨columns, none⟩) :=
    symbol_reads (s := [' ']) (by decide) (by decide) (fun _ => True) _ none trivial
  have hclose : symbol ')' ⟨[')'], none⟩ = some ((), ⟨[], none⟩) :=
    symbol_eq (by decide) [] none
  have hfollow : Ends (" TABLE".toList ++ (' ' :: (name.toList ++ (" (".toList ++ columns)))) := ends_blank _
  have hpeek : peekWord ⟨"CREATE".toList ++ (" TABLE".toList ++ (' ' :: (name.toList ++ (" (".toList ++ columns)))),
      none⟩ = some ("CREATE".toList, ⟨"CREATE".toList ++ (" TABLE".toList ++ (' ' :: (name.toList ++
        (" (".toList ++ columns)))), none⟩) :=
    peekWord_eq (s := []) (by decide) hfirst hfollow none
  have hcreate : keyword "create" ⟨"CREATE".toList ++ (" TABLE".toList ++ (' ' :: (name.toList ++
      (" (".toList ++ columns)))), none⟩ = some ((), ⟨" TABLE".toList ++ (' ' :: (name.toList ++
        (" (".toList ++ columns))), none⟩) :=
    keyword_reads (s := []) (by decide) hfirst (by decide) _ none hfollow
  rw [tableChars_eq, hcolumns, statement, Reader.bind_eq hpeek, if_pos (by decide),
    Reader.bind_eq hcreate, createTail, Reader.bind_eq htable, Reader.bind_eq hname, Reader.bind_eq hopen,
    Reader.bind_eq hitems, Reader.bind_eq hclose]
  rfl

end Grammar

theorem ColumnDef.toList_text (c : ColumnDef) : c.text.toList = Grammar.columnChars c := by
  have hblank : " ".toList = [' '] := rfl
  have hnone : "".toList = [] := rfl
  obtain ⟨name, type, primaryKey, references⟩ := c
  have hprimary : (if primaryKey then " PRIMARY KEY" else "").toList =
      if primaryKey then " PRIMARY KEY".toList else [] := by
    cases primaryKey <;> rfl
  simp only [ColumnDef.text, Grammar.columnChars, Grammar.constraintChars, String.toList_append, List.append_assoc]
  rw [hprimary, hblank]
  cases references with
  | none =>
    dsimp only
    rw [hnone]
    rfl
  | some target =>
    dsimp only
    rw [String.toList_append]
    rfl

theorem TableDef.toList_text (name : String) (c : ColumnDef) (cs : List ColumnDef) :
    (TableDef.text ⟨name, c :: cs⟩).toList = Grammar.tableChars name c cs := by
  have hcolumns : (ColumnDef.text c :: cs.map ColumnDef.text).map String.toList =
      (c :: cs).map Grammar.columnChars := by
    rw [← List.map_cons, List.map_map]
    exact List.map_congr_left fun c _ => c.toList_text
  have hcomma : ", ".toList = [',', ' '] := rfl
  have hclose : ")".toList = [')'] := rfl
  have hopen : "CREATE TABLE ".toList = "CREATE".toList ++ (" TABLE".toList ++ [' ']) := rfl
  have htext : TableDef.text ⟨name, c :: cs⟩ =
      "CREATE TABLE " ++ name ++ " (" ++ ", ".intercalate ((c :: cs).map ColumnDef.text) ++ ")" := rfl
  rw [htext, Grammar.tableChars_eq]
  simp only [String.toList_append, String.toList_intercalate, hcomma, hclose, hopen, List.map_cons, List.append_assoc,
    List.cons_append, List.nil_append] at hcolumns ⊢
  rw [hcolumns, ← List.map_cons, intercalate_comma, Grammar.itemChars, List.append_assoc]

/-- The text of a declaration is read as the declaration. -/
theorem TableDef.read_text {d : TableDef} (h : d.Readable) : Statement.read d.text = .ok (.create d) := by
  obtain ⟨name, columns⟩ := d
  cases columns with
  | nil => exact absurd rfl h.nonempty
  | cons c cs =>
    have hend : Grammar.accept ';' ⟨[], none⟩ = some (false, ⟨[], none⟩) := rfl
    have hread := Grammar.statement_read h ((TableDef.text ⟨name, c :: cs⟩).length + 1)
    rw [Statement.read, Grammar.readAll, TableDef.toList_text, Reader.bind_eq (j := ⟨[], none⟩)
      (a := .create ⟨name, c :: cs⟩) (by rw [Reader.bind_eq hread, Reader.bind_eq hend]; rfl)]
    rfl

/-! ## What is read is readable -/

namespace Grammar

open Reader.Gives

theorem constraints_gives (fuel : Nat) {c : ColumnDef} (hname : Identifier c.name)
    (hrefs : ∀ target ∈ c.references, Identifier target) : (constraints c fuel).Gives ColumnDef.Readable := by
  induction fuel generalizing c with
  | zero => exact failure
  | succ fuel ih =>
    refine after fun w => ite (fun _ => after fun _ => after fun _ => ih hname hrefs) fun _ =>
      ite (fun _ => after fun _ => identifier_gives.bind fun target ht => ih hname ?_) fun _ => pure ⟨hname, hrefs⟩
    rintro _ ⟨⟩
    exact ht

theorem columnDef_gives : columnDef.Gives ColumnDef.Readable :=
  identifier_gives.bind fun _ hn => after fun _ => after fun _ => constraints_gives _ hn (by simp)

/-- A declaration in a statement is readable. -/
def Declares (s : Statement) : Prop := ∀ d, s = .create d → d.Readable

theorem createTail_gives : createTail.Gives Declares := by
  refine after fun _ => identifier_gives.bind fun n hn => after fun _ =>
    bind (P := fun cs => (∀ c ∈ cs, c.Readable) ∧ cs ≠ []) ?_ fun cs hcs => after fun _ => pure ?_
  · exact fun i cs j h => ⟨items_gives columnDef_gives i cs j h, items_nonempty _ i cs j h⟩
  · rintro d ⟨⟩
    exact ⟨hn, hcs.1, hcs.2⟩

theorem statement_declares (fuel : Nat) : (statement fuel).Gives Declares := by
  have hother : ∀ {s : Statement}, (∀ d, s ≠ .create d) → Declares s := fun hne d h => absurd h (hne d)
  refine after fun w => ite (fun _ => after fun _ => createTail_gives) fun _ => ite (fun _ => ?insert) fun _ =>
    ite (fun _ => ?update) fun _ => ite (fun _ => ?delete) fun _ => ite (fun _ => ?eval) fun _ =>
    ite (fun _ => ?live) fun _ => ?select
  case insert => exact after fun _ => after fun _ => after fun _ => after fun _ => pure (hother (by simp))
  case update =>
    exact after fun _ => after fun _ => after fun _ => after fun _ => after fun _ => pure (hother (by simp))
  case delete => exact after fun _ => after fun _ => after fun _ => after fun _ => pure (hother (by simp))
  case eval => exact after fun _ => after fun _ => pure (hother (by simp))
  case live => exact after fun _ => after fun _ => pure (hother (by simp))
  case select => exact after fun _ => pure (hother (by simp))

end Grammar

/-- A declaration that was read can be read again from its text. -/
theorem TableDef.readable_of_read {text : String} {d : TableDef} (h : Statement.read text = .ok (.create d)) :
    d.Readable :=
  Grammar.readAll_gives ((Grammar.statement_declares _).bind fun _ hs => .after fun _ => .pure hs) h d rfl

end LiveQuery
