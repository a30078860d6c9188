import LiveQuery.Proofs.Grammar.Literals

/-! # Queries are read as they were written, if their texts can be

The text of a query that was read is read as the same query, at any depth of nesting, unless a text in a condition
has a character that is written with an escape which is not read; then the first such literal is reported
(`Statement.read_query_text`). A carriage return is such a character (`Statement.exists_misread`).

The fuel of the reader is a bound for the length of the text, which is longer for a query than for those in it.
-/
namespace LiveQuery

/-! ## What is in a query -/

mutual

/-- The values in the conditions of a query, in the order in which they are written. -/
def Query.literals : Query → List Literal
  | .mk _ _ fs ss => fs.map Filter.value ++ selectionsLiterals ss

def Selection.literals : Selection → List Literal
  | .column _ => []
  | .nested _ q => q.literals

def selectionsLiterals : List Selection → List Literal
  | [] => []
  | s :: rest => s.literals ++ selectionsLiterals rest

end

/-- The fault of the text of a query: that of the first literal that has one. -/
def Query.fault (q : Query) : Option ReadFault := q.literals.findSome? Literal.fault

def Selection.fault (s : Selection) : Option ReadFault := s.literals.findSome? Literal.fault

theorem Query.fault_mk (c : Cardinality) (t : String) (fs : List Filter) (ss : List Selection) :
    (Query.mk c t fs ss).fault =
      (fs.findSome? fun f => f.value.fault).or (ss.findSome? Selection.fault) := by
  have hss : (selectionsLiterals ss).findSome? Literal.fault = ss.findSome? Selection.fault := by
    induction ss with
    | nil => rfl
    | cons s ss ih => rw [selectionsLiterals, List.findSome?_append, ih, Grammar.findSome?_cons_or]; rfl
  rw [Query.fault, Query.literals, List.findSome?_append, hss, List.findSome?_map]
  rfl

/-- The tables and columns of the query have names that can be read, and something is selected at every level. -/
inductive Query.Readable : Query → Prop
  | mk {c : Cardinality} {t : String} {fs : List Filter} {ss : List Selection} (table : Grammar.Identifier t)
      (columns : ∀ f ∈ fs, Grammar.Identifier f.column) (nonempty : ss ≠ [])
      (names : ∀ s ∈ ss, Grammar.Identifier s.name) (nested : ∀ n q, .nested n q ∈ ss → q.Readable) :
      (Query.mk c t fs ss).Readable

namespace Grammar

/-! ## Conditions -/

section

variable {s : List Char} (hb : Blanks s)
include hb

theorem condition_notes {f : Filter} (hf : Identifier f.column) :
    condition.Notes (s ++ f.text.toList) f f.value.fault Ends := by
  intro rest fault hrest
  obtain ⟨v, hv, hread⟩ := literal_notes (s := [' ']) (by decide) f.value rest fault hrest
  refine ⟨⟨f.column, v⟩, fun h => by rw [hv h], ?_⟩
  have hname : identifier ⟨s ++ f.column.toList ++ ' ' :: '=' :: ([' '] ++ f.value.text.toList ++ rest), fault⟩ =
      some (f.column, ⟨' ' :: '=' :: ([' '] ++ f.value.text.toList ++ rest), fault⟩) :=
    identifier_reads hb hf _ fault (ends_blank _)
  have hequals : symbol '=' ⟨' ' :: '=' :: ([' '] ++ f.value.text.toList ++ rest), fault⟩ =
      some ((), ⟨[' '] ++ f.value.text.toList ++ rest, fault⟩) :=
    symbol_reads (s := [' ']) (by decide) (by decide) (fun _ => True) _ fault trivial
  have hsign : " = ".toList = [' ', '=', ' '] := rfl
  have htext : s ++ f.text.toList ++ rest =
      s ++ f.column.toList ++ ' ' :: '=' :: ([' '] ++ f.value.text.toList ++ rest) := by
    simp [Filter.text, hsign]
  rw [htext, condition, Reader.bind_eq hname, Reader.bind_eq hequals, Reader.bind_eq hread]
  rfl

end

/-- The characters of conditions after the first one. -/
def conditionChars (fs : List Filter) : List Char := fs.flatMap fun f => " AND ".toList ++ f.text.toList

theorem ends_conditionChars (fs : List Filter) (tail : List Char) : Ends (conditionChars fs ++ (' ' :: tail)) := by
  cases fs with
  | nil => exact ends_blank tail
  | cons f fs => exact ends_blank _

theorem peekWord_brace (tail : List Char) (fault : Option ReadFault) :
    peekWord ⟨' ' :: '\x7b' :: tail, fault⟩ = some ([], ⟨'\x7b' :: tail, fault⟩) := by
  have hskip : skip ⟨' ' :: '\x7b' :: tail, fault⟩ = some ((), ⟨'\x7b' :: tail, fault⟩) :=
    skip_eq (s := [' ']) (by decide) (by rintro c ⟨⟩; decide) fault
  rw [peekWord, Reader.bind_eq hskip]
  rfl

/-- The conditions end where a brace opens. -/
theorem moreConditions_note {fs : List Filter} (h : ∀ f ∈ fs, Identifier f.column) {fuel : Nat}
    (hfuel : fs.length < fuel) (tail : List Char) (fault : Option ReadFault) :
    ∃ fs', (fs.findSome? (fun f => f.value.fault) = none → fs' = fs) ∧
      moreConditions fuel ⟨conditionChars fs ++ (' ' :: '\x7b' :: tail), fault⟩ =
        some (fs', ⟨'\x7b' :: tail, fault.or (fs.findSome? fun f => f.value.fault)⟩) := by
  have hand : IsWord "AND".toList := by decide
  induction fs generalizing fuel fault with
  | nil =>
    obtain ⟨n, rfl⟩ : ∃ n, fuel = n + 1 := ⟨fuel - 1, by simp at hfuel; omega⟩
    refine ⟨[], fun _ => rfl, ?_⟩
    rw [show conditionChars [] ++ (' ' :: '\x7b' :: tail) = ' ' :: '\x7b' :: tail from rfl, moreConditions,
      Reader.bind_eq (peekWord_brace tail fault), if_neg (by decide), List.findSome?_nil, Option.or_none]
    rfl
  | cons f fs ih =>
    obtain ⟨n, rfl⟩ : ∃ n, fuel = n + 1 := ⟨fuel - 1, by simp at hfuel; omega⟩
    obtain ⟨hf, hfs⟩ := List.forall_mem_cons.mp h
    have hshort : fs.length < n := by simp at hfuel; omega
    obtain ⟨fs', hfs', hmore⟩ := ih hfs hshort (fault.or f.value.fault)
    generalize hafter : conditionChars fs ++ (' ' :: '\x7b' :: tail) = after at hmore
    have hends : Ends after := hafter ▸ ends_conditionChars fs _
    obtain ⟨f', hf', hread⟩ := condition_notes (s := [' ']) (by decide) hf after fault hends
    have htext : conditionChars (f :: fs) ++ (' ' :: '\x7b' :: tail) =
        [' '] ++ ("AND".toList ++ ([' '] ++ f.text.toList ++ after)) := by
      rw [← hafter, conditionChars, List.flatMap_cons]
      simp only [List.append_assoc]
      rfl
    have hfollow : Ends ([' '] ++ f.text.toList ++ after) := ends_blank _
    have hpeek := peekWord_eq (s := [' ']) (by decide) hand hfollow fault
    have hkeyword : keyword "and" ⟨"AND".toList ++ ([' '] ++ f.text.toList ++ after), fault⟩ =
        some ((), ⟨[' '] ++ f.text.toList ++ after, fault⟩) :=
      keyword_reads (s := []) (by decide) hand (by decide) _ fault hfollow
    refine ⟨f' :: fs', fun hnone => ?_, ?_⟩
    · rw [findSome?_cons_or] at hnone
      obtain ⟨hn, hns⟩ := Option.or_eq_none_iff.mp hnone
      rw [hf' hn, hfs' hns]
    · rw [htext, moreConditions, Reader.bind_eq hpeek, if_pos (by decide), Reader.bind_eq hkeyword,
        Reader.bind_eq hread, Reader.bind_eq hmore, findSome?_cons_or, Option.or_assoc]
      rfl

/-- The characters of the conditions of a query, with the blank in front. -/
def whereChars : List Filter → List Char
  | [] => []
  | f :: fs => " WHERE".toList ++ ([' '] ++ f.text.toList ++ conditionChars fs)

theorem whereChars_cons (f : Filter) (fs : List Filter) :
    whereChars (f :: fs) = " WHERE".toList ++ ([' '] ++ f.text.toList ++ conditionChars fs) := rfl

/-- Reads the conditions of a query, perhaps none. -/
def filters : Reader (List Filter) := peekWord >>= fun w => if isKeyword "where" w then whereClause else pure []

theorem filters_note {fs : List Filter} (h : ∀ f ∈ fs, Identifier f.column) (tail : List Char)
    (fault : Option ReadFault) :
    ∃ fs', (fs.findSome? (fun f => f.value.fault) = none → fs' = fs) ∧
      filters ⟨whereChars fs ++ (' ' :: '\x7b' :: tail), fault⟩ =
        some (fs', ⟨'\x7b' :: tail, fault.or (fs.findSome? fun f => f.value.fault)⟩) := by
  have hwhere : IsWord "WHERE".toList := by decide
  cases fs with
  | nil =>
    refine ⟨[], fun _ => rfl, ?_⟩
    rw [show whereChars [] ++ (' ' :: '\x7b' :: tail) = ' ' :: '\x7b' :: tail from rfl, filters,
      Reader.bind_eq (peekWord_brace tail fault), if_neg (by decide), List.findSome?_nil, Option.or_none]
    rfl
  | cons f fs =>
    obtain ⟨hf, hfs⟩ := List.forall_mem_cons.mp h
    generalize hafter : conditionChars fs ++ (' ' :: '\x7b' :: tail) = after
    have hends : Ends after := hafter ▸ ends_conditionChars fs _
    obtain ⟨f', hf', hread⟩ := condition_notes (s := [' ']) (by decide) hf after fault hends
    have hfuel : fs.length < after.length + 1 := by
      have hlen : fs.length ≤ (conditionChars fs).length := by
        clear hafter hfs h
        induction fs with
        | nil => exact Nat.zero_le _
        | cons f fs ih =>
          have hand : " AND ".toList.length = 5 := rfl
          simp only [conditionChars, List.flatMap_cons, List.length_append, List.length_cons, hand] at ih ⊢
          omega
      rw [← hafter, List.length_append]
      omega
    obtain ⟨fs', hfs', hmore⟩ := moreConditions_note hfs hfuel tail (fault.or f.value.fault)
    rw [hafter] at hmore
    have htext : whereChars (f :: fs) ++ (' ' :: '\x7b' :: tail) =
        [' '] ++ ("WHERE".toList ++ ([' '] ++ f.text.toList ++ after)) := by
      rw [← hafter, whereChars_cons]
      simp only [List.append_assoc]
      rfl
    have hfollow : Ends ([' '] ++ f.text.toList ++ after) := ends_blank _
    have hpeek := peekWord_eq (s := [' ']) (by decide) hwhere hfollow fault
    have hkeyword : keyword "where" ⟨"WHERE".toList ++ ([' '] ++ f.text.toList ++ after), fault⟩ =
        some ((), ⟨[' '] ++ f.text.toList ++ after, fault⟩) :=
      keyword_reads (s := []) (by decide) hwhere (by decide) _ fault hfollow
    refine ⟨f' :: fs', fun hnone => ?_, ?_⟩
    · rw [findSome?_cons_or] at hnone
      obtain ⟨hn, hns⟩ := Option.or_eq_none_iff.mp hnone
      rw [hf' hn, hfs' hns]
    · rw [htext, filters, Reader.bind_eq hpeek, if_pos (by decide), whereClause, Reader.bind_eq hkeyword,
        Reader.bind_eq hread]
      show (moreConditions (after.length + 1) >>= fun fs => pure (f' :: fs)) _ = _
      rw [Reader.bind_eq hmore, findSome?_cons_or, Option.or_assoc]
      rfl

/-! ## Selections -/

/-- Nothing of a selection follows: neither a name nor, behind blanks, a colon. -/
def Selects (rest : List Char) : Prop :=
  Ends rest ∧ ∃ s c tail, Blanks s ∧ isBlank c = false ∧ c ≠ ':' ∧ rest = s ++ c :: tail

theorem selects_comma (tail : List Char) : Selects (',' :: tail) :=
  ⟨by rintro c ⟨⟩; decide, [], ',', tail, by decide, by decide, by decide, rfl⟩

theorem selects_close (tail : List Char) : Selects (' ' :: '\x7d' :: tail) :=
  ⟨ends_blank _, [' '], '\x7d', tail, by decide, by decide, by decide, rfl⟩

/-- What is read of a query, with blanks in front. -/
def QueryNotes (r : Reader Query) (q : Query) : Prop :=
  ∀ s, Blanks s → r.Notes (s ++ q.text.toList) q q.fault fun _ => True

theorem selection_takes {r : Reader Query} {sel : Selection} (hn : Identifier sel.name)
    (h : ∀ n q, sel = .nested n q → QueryNotes r q) {s : List Char} (hb : Blanks s) :
    (selection r).Takes (s ++ sel.text.toList) sel sel.fault Selects := by
  cases sel with
  | column n =>
    rintro rest fault ⟨hends, s', c, tail, hb', hc, hcolon, rfl⟩
    refine ⟨s', c :: tail, .column n, hb', rfl, fun _ => rfl, ?_⟩
    have hname : identifier ⟨s ++ (Selection.text (.column n)).toList ++ (s' ++ c :: tail), fault⟩ =
        some (n, ⟨s' ++ c :: tail, fault⟩) := identifier_reads hb hn _ fault hends
    have hfault : (Selection.column n).fault = none := rfl
    rw [selection, Reader.bind_eq hname, Reader.bind_eq (accept_of_ne hb' hc hcolon tail fault), hfault,
      Option.or_none]
    rfl
  | nested n q =>
    refine Reader.Notes.takes fun rest fault _ => ?_
    obtain ⟨q', hq', hread⟩ := h n q rfl [' '] (by decide) rest fault trivial
    refine ⟨.nested n q', fun hnone => by rw [hq' hnone], ?_⟩
    have hcolon : ": ".toList = [':', ' '] := rfl
    have htext : s ++ (Selection.text (.nested n q)).toList ++ rest =
        s ++ n.toList ++ ':' :: ([' '] ++ q.text.toList ++ rest) := by
      simp [Selection.text, hcolon]
    have hname : identifier ⟨s ++ n.toList ++ ':' :: ([' '] ++ q.text.toList ++ rest), fault⟩ =
        some (n, ⟨':' :: ([' '] ++ q.text.toList ++ rest), fault⟩) :=
      identifier_reads hb hn _ fault (by rintro c ⟨⟩; decide)
    have haccept : accept ':' ⟨':' :: ([' '] ++ q.text.toList ++ rest), fault⟩ =
        some (true, ⟨[' '] ++ q.text.toList ++ rest, fault⟩) :=
      accept_of_eq (s := []) (by decide) (by decide) _ fault
    rw [htext, selection, Reader.bind_eq hname, Reader.bind_eq haccept, if_pos rfl,
      Reader.bind_eq hread]
    rfl

/-! ## Queries -/

theorem query_succ (fuel : Nat) : query (fuel + 1) = cardinality >>= fun c => identifier >>= fun table =>
    filters >>= fun fs => symbol '\x7b' >>= fun _ => items (selection (query fuel)) >>= fun ss =>
      symbol '\x7d' >>= fun _ => pure (.mk c table fs ss) := by
  rw [query]
  congr 1
  funext c
  congr 1
  funext table
  rw [filters, bind_assoc]
  congr 1
  funext w
  by_cases hwhere : isKeyword "where" w = true
  · rw [if_pos hwhere, if_pos hwhere]
  · rw [if_neg hwhere, if_neg hwhere]

/-- The characters of what is selected, between the braces. -/
def selectionChars (ss : List Selection) : List Char := itemChars (fun s : Selection => s.text.toList) ss

end Grammar

theorem Query.toList_text (c : Cardinality) (t : String) (fs : List Filter) (ss : List Selection) :
    (Query.mk c t fs ss).text.toList = c.text.toList ++ ([' '] ++ t.toList ++ (Grammar.whereChars fs ++
      (' ' :: '\x7b' :: ([' '] ++ Grammar.selectionChars ss ++ [' ', '\x7d'])))) := by
  have hblank : " ".toList = [' '] := rfl
  have hopen : " \x7b ".toList = [' ', '\x7b', ' '] := rfl
  have hclose : " \x7d".toList = [' ', '\x7d'] := rfl
  have hcomma : ", ".toList = [',', ' '] := rfl
  have hwhere : (if fs.isEmpty then "" else " WHERE " ++ Filter.allText fs).toList = Grammar.whereChars fs := by
    cases fs with
    | nil => rfl
    | cons f fs =>
      have hword : " WHERE ".toList = " WHERE".toList ++ [' '] := rfl
      have hall : (Filter.allText (f :: fs)).toList = f.text.toList ++ Grammar.conditionChars fs := by
        rw [Filter.allText, String.toList_intercalate, List.map_map]
        exact intercalate_map _ (fun f : Filter => f.text.toList) f fs
      rw [if_neg (by simp), String.toList_append, hall, hword, Grammar.whereChars_cons]
      simp only [List.append_assoc]
  have hselections : (selectionTexts ss).map String.toList = ss.map fun s => s.text.toList := by
    induction ss with
    | nil => rfl
    | cons s ss ih => rw [selectionTexts, List.map_cons, ih]; rfl
  rw [Query.text, String.toList_append, String.toList_append, String.toList_append, String.toList_append,
    String.toList_append, String.toList_append, hwhere, String.toList_intercalate, hselections, hblank, hopen, hclose,
    hcomma, intercalate_comma, Grammar.selectionChars]
  simp only [List.append_assoc, List.cons_append, List.nil_append]

namespace Grammar

theorem cardinality_reads {s : List Char} (hb : Blanks s) (c : Cardinality) :
    cardinality.Reads (s ++ c.text.toList) c Ends := by
  intro rest fault hrest
  have hw : IsWord c.text.toList := by cases c <;> decide
  rw [cardinality, Reader.bind_eq (word_reads hb hw rest fault hrest)]
  cases c <;> rfl

theorem query_mk_notes {fuel : Nat} {c : Cardinality} {t : String} {fs : List Filter} {ss : List Selection}
    (table : Identifier t) (columns : ∀ f ∈ fs, Identifier f.column) (nonempty : ss ≠ [])
    (h : ∀ sel ∈ ss, ∀ s, Blanks s → (selection (query fuel)).Takes (s ++ sel.text.toList) sel sel.fault Selects) :
    QueryNotes (query (fuel + 1)) (.mk c t fs ss) := by
  intro s hb rest fault _
  obtain ⟨sel, sels, rfl⟩ := List.exists_cons_of_ne_nil nonempty
  have hfirst := h sel List.mem_cons_self [' '] (by decide)
  have hothers : ∀ b ∈ sels, (selection (query fuel)).Takes (' ' :: b.text.toList) b b.fault Selects :=
    fun b hb => h b (List.mem_cons_of_mem _ hb) [' '] (by decide)
  generalize hinner : [' '] ++ selectionChars (sel :: sels) ++ ([' '] ++ '\x7d' :: rest) = inner
  generalize hbody : whereChars fs ++ (' ' :: '\x7b' :: inner) = body
  have hends : Ends body := by
    rw [← hbody]
    cases fs with
    | nil => exact ends_blank _
    | cons f fs => exact ends_blank _
  have hcardinality := cardinality_reads hb c ([' '] ++ t.toList ++ body) fault (ends_blank _)
  have htable : identifier ⟨[' '] ++ t.toList ++ body, fault⟩ = some (t, ⟨body, fault⟩) :=
    identifier_reads (by decide) table body fault hends
  obtain ⟨fs', hfs', hfilters⟩ := filters_note columns inner fault
  rw [hbody] at hfilters
  have hopen : ∀ fault', symbol '\x7b' ⟨'\x7b' :: inner, fault'⟩ = some ((), ⟨inner, fault'⟩) := fun fault' =>
    symbol_eq (by decide) _ fault'
  obtain ⟨ss', hss', hitems⟩ := items_take (s := [' ']) Selection.fault (by decide)
    (by decide) (by decide) (selects_close rest) selects_comma hfirst hothers
    (fault.or (fs.findSome? fun f => f.value.fault))
  change items _ ⟨[' '] ++ selectionChars (sel :: sels) ++ _, _⟩ = _ at hitems
  rw [hinner] at hitems
  have hclose : ∀ fault', symbol '\x7d' ⟨'\x7d' :: rest, fault'⟩ = some ((), ⟨rest, fault'⟩) := fun fault' =>
    symbol_eq (by decide) _ fault'
  have htext : s ++ (Query.mk c t fs (sel :: sels)).text.toList ++ rest =
      s ++ c.text.toList ++ ([' '] ++ t.toList ++ body) := by
    rw [Query.toList_text, ← hbody, ← hinner]
    simp only [List.append_assoc, List.cons_append, List.nil_append]
  refine ⟨.mk c t fs' ss', fun hnone => ?_, ?_⟩
  · rw [Query.fault_mk] at hnone
    obtain ⟨hn, hns⟩ := Option.or_eq_none_iff.mp hnone
    rw [hfs' hn, hss' hns]
  · rw [htext, query_succ, Reader.bind_eq hcardinality, Reader.bind_eq htable, Reader.bind_eq hfilters,
      Reader.bind_eq (hopen _), Reader.bind_eq hitems, Reader.bind_eq (hclose _), Query.fault_mk, Option.or_assoc]
    rfl

theorem query_notes {fuel : Nat} {q : Query} (hfuel : q.text.toList.length < fuel) (hr : q.Readable) :
    QueryNotes (query fuel) q := by
  -- as with types, a query in a query has a shorter text
  induction fuel generalizing q with
  | zero => exact absurd hfuel (Nat.not_lt_zero _)
  | succ fuel ih =>
    cases hr with
    | @mk c t fs ss table columns nonempty names nested =>
    refine query_mk_notes table columns nonempty fun sel hsel s hb => selection_takes (names sel hsel) ?_ hb
    rintro n q rfl
    refine ih ?_ (nested n q hsel)
    have hlen := length_le_itemChars (fun s : Selection => s.text.toList) hsel
    rw [Query.toList_text, selectionChars] at hfuel
    simp only [Selection.text, String.toList_append, List.length_append, List.length_cons] at hlen hfuel
    omega

/-! ## Statements -/

theorem statement_query {q q' : Query} {fuel : Nat} {f : Option ReadFault}
    (hread : query fuel ⟨q.text.toList, none⟩ = some (q', ⟨[], f⟩)) :
    statement fuel ⟨q.text.toList, none⟩ = some (.select false q', ⟨[], f⟩) := by
  obtain ⟨c, t, fs, ss⟩ := q
  rw [Query.toList_text] at hread ⊢
  generalize hrest : [' '] ++ t.toList ++ _ = rest at hread ⊢
  have hends : Ends rest := hrest ▸ ends_blank _
  have hw : IsWord c.text.toList := by cases c <;> decide
  have hpeek := peekWord_eq (s := []) (by decide) hw hends none
  have hother : ∀ k ∈ ["create", "insert", "update", "delete", "eval", "live"],
      ¬isKeyword k c.text.toList = true := by cases c <;> decide
  simp only [List.forall_mem_cons] at hother
  obtain ⟨hcreate, hinsert, hupdate, hdelete, heval, hlive, -⟩ := hother
  rw [List.nil_append] at hpeek
  rw [statement, Reader.bind_eq hpeek, if_neg hcreate, if_neg hinsert, if_neg hupdate, if_neg hdelete, if_neg heval,
    if_neg hlive, Reader.bind_eq hread]
  rfl

/-! ## What is read is readable -/

open Reader.Gives

theorem condition_gives : condition.Gives fun f => Identifier f.column :=
  identifier_gives.bind fun _ hn => after fun _ => after fun _ => pure hn

theorem moreConditions_gives (fuel : Nat) : (moreConditions fuel).Gives fun fs => ∀ f ∈ fs, Identifier f.column := by
  induction fuel with
  | zero => exact failure
  | succ fuel ih =>
    refine after fun w => ite (fun _ => after fun _ => ?_) fun _ => pure (by simp)
    exact condition_gives.bind fun f hf => ih.bind fun fs hfs => pure (List.forall_mem_cons.mpr ⟨hf, hfs⟩)

theorem filters_gives : filters.Gives fun fs => ∀ f ∈ fs, Identifier f.column := by
  refine after fun w => ite (fun _ => after fun _ => ?_) fun _ => pure (by simp)
  exact condition_gives.bind fun f hf => after fun _ => (moreConditions_gives _).bind fun fs hfs =>
    pure (List.forall_mem_cons.mpr ⟨hf, hfs⟩)

theorem selection_gives {r : Reader Query} (h : r.Gives Query.Readable) :
    (selection r).Gives fun s => Identifier s.name ∧ ∀ n q, s = .nested n q → q.Readable := by
  refine identifier_gives.bind fun n hn => after fun b => ite (fun _ => h.bind fun q hq => pure ⟨hn, ?_⟩) fun _ =>
    pure ⟨hn, ?_⟩
  · rintro _ _ ⟨⟩
    exact hq
  · rintro _ _ ⟨⟩

theorem query_gives (fuel : Nat) : (query fuel).Gives Query.Readable := by
  induction fuel with
  | zero => exact failure
  | succ fuel ih =>
    rw [query_succ]
    refine after fun c => identifier_gives.bind fun t ht => filters_gives.bind fun fs hfs => after fun _ =>
      bind (P := fun ss => (∀ s ∈ ss, Identifier s.name ∧ ∀ n q, s = .nested n q → q.Readable) ∧ ss ≠ []) ?_
        fun ss hss => after fun _ => pure ?_
    · exact fun i ss j h => ⟨items_gives (selection_gives ih) i ss j h, items_nonempty _ i ss j h⟩
    · exact .mk ht hfs hss.2 (fun s hs => (hss.1 s hs).1) fun n q hs => (hss.1 _ hs).2 n q rfl

/-- A query in a statement is readable. -/
def Asks (s : Statement) : Prop := ∀ live q, s = .select live q → q.Readable

theorem statement_asks (fuel : Nat) : (statement fuel).Gives Asks := by
  have hother : ∀ {s : Statement}, (∀ live q, s ≠ .select live q) → Asks s := fun hne live q h => absurd h (hne live q)
  refine after fun w => ite (fun _ => ?create) fun _ => ite (fun _ => ?insert) fun _ =>
    ite (fun _ => ?update) fun _ => ite (fun _ => ?delete) fun _ => ite (fun _ => ?eval) fun _ =>
    ite (fun _ => ?live) fun _ => ?select
  case create =>
    exact after fun _ => after fun _ => after fun _ => after fun _ => after fun _ => after fun _ =>
      pure (hother (by simp))
  case insert => exact after fun _ => after fun _ => after fun _ => after fun _ => pure (hother (by simp))
  case update =>
    exact after fun _ => after fun _ => after fun _ => after fun _ => after fun _ => pure (hother (by simp))
  case delete => exact after fun _ => after fun _ => after fun _ => after fun _ => pure (hother (by simp))
  case eval => exact after fun _ => after fun _ => pure (hother (by simp))
  case live =>
    refine after fun _ => (query_gives fuel).bind fun q hq => pure ?_
    rintro _ _ ⟨⟩
    exact hq
  case select =>
    refine (query_gives fuel).bind fun q hq => pure ?_
    rintro _ _ ⟨⟩
    exact hq

end Grammar

/-- A query that was read has names that can be read again. -/
theorem Query.readable_of_read {text : String} {live : Bool} {q : Query}
    (h : Statement.read text = .ok (.select live q)) : q.Readable :=
  Grammar.readAll_gives ((Grammar.statement_asks _).bind fun _ hs => .after fun _ => .pure hs) h live q rfl

/-- The text of a query that was read is read as the query, unless a literal in it has a fault; then the first one
is reported. -/
theorem Statement.read_query_text {text : String} {live : Bool} {q : Query}
    (h : Statement.read text = .ok (.select live q)) :
    Statement.read q.text = q.fault.elim (.ok (.select false q)) .error := by
  have hfuel : q.text.toList.length < q.text.length + 1 := by
    rw [String.length_toList]
    omega
  obtain ⟨q', hq', hread⟩ :=
    Grammar.query_notes hfuel (Query.readable_of_read h) [] (by decide) [] none trivial
  rw [List.nil_append, List.append_nil, Option.none_or] at hread
  have hend : ∀ f, Grammar.accept ';' ⟨[], f⟩ = some (false, ⟨[], f⟩) := fun _ => rfl
  rw [Statement.read, Grammar.readAll, Reader.bind_eq (j := ⟨[], q.fault⟩) (a := .select false q')
    (by rw [Reader.bind_eq (Grammar.statement_query hread), Reader.bind_eq (hend _)]; rfl)]
  cases hfault : q.fault with
  | none =>
    rw [hq' hfault]
    rfl
  | some f => rfl

/-! ## A query that is read again and one that is not -/

/-- The query of a text that asks for rows, and whether for as long as the client listens. -/
def Statement.asked? (text : String) : Option (Bool × Query) :=
  match Statement.read text with
  | .ok (.select live q) => some (live, q)
  | _ => none

/-- Why a text cannot be read. -/
def Statement.fault? (text : String) : Option ReadFault :=
  match Statement.read text with
  | .ok _ => none
  | .error f => some f

theorem Statement.of_asked? {text : String} {live : Bool} {q : Query} (h : Statement.asked? text = some (live, q)) :
    Statement.read text = .ok (.select live q) := by
  unfold Statement.asked? at h
  split at h
  next hread =>
    cases h
    exact hread
  next => cases h

theorem Statement.of_fault? {text : String} {f : ReadFault} (h : Statement.fault? text = some f) :
    Statement.read text = .error f := by
  unfold Statement.fault? at h
  split at h
  next => cases h
  next hread =>
    cases h
    exact hread

namespace Query.Sample

/-- People by a name with a quote, a backslash and a line feed in it, and by a number, with the open team of each. -/
def nested : String :=
  "live many people where name = \"\\\"\\\\\\n\" and age = -1 " ++
    "\x7bid, team: one teams where open = TRUE \x7bid\x7d \x7d;"

/-- People by a name with a carriage return in it. -/
def returning : String := "MANY people WHERE name = \"x\ry\" \x7b id \x7d"

end Query.Sample

open Query.Sample

theorem Statement.read_query_text_nested : ∃ q, Statement.read nested = .ok (.select true q) ∧
    q.literals = [.str "\"\\\n", .int (-1), .bool true] ∧ Statement.read q.text = .ok (.select false q) := by
  have hplay : (Statement.asked? nested).any (fun p =>
      p.1 && p.2.literals = [.str "\"\\\n", .int (-1), .bool true] && p.2.fault = none) = true := by
    decide +kernel
  obtain ⟨⟨live, q⟩, hasked, htest⟩ := (Option.any_eq_true _ _).mp hplay
  simp only [Bool.and_eq_true, decide_eq_true_eq] at htest
  obtain ⟨⟨rfl, hliterals⟩, hfault⟩ := htest
  have hread := Statement.of_asked? hasked
  have hagain := Statement.read_query_text hread
  rw [hfault, Option.elim_none] at hagain
  exact ⟨q, hread, hliterals, hagain⟩

/-- A carriage return is written with an escape that is not read. -/
theorem Statement.exists_misread : ∃ q, Statement.read returning = .ok (.select false q) ∧
    Statement.read q.text = .error (.literal "\"x\\ry\"") := by
  have hplay : (Statement.asked? returning).any (fun p =>
      !p.1 && Statement.fault? p.2.text = some (.literal "\"x\\ry\"")) = true := by
    decide +kernel
  obtain ⟨⟨live, q⟩, hasked, htest⟩ := (Option.any_eq_true _ _).mp hplay
  simp only [Bool.and_eq_true, Bool.not_eq_true', decide_eq_true_eq] at htest
  obtain ⟨rfl, hfault⟩ := htest
  exact ⟨q, Statement.of_asked? hasked, Statement.of_fault? hfault⟩

end LiveQuery
