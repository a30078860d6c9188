import LiveQuery.Proofs.Grammar.Expressions
import Mathlib.Data.List.TakeWhile

/-! # Every text can be quoted

What stands between quotes is a sequence of pieces (`Grammar.Piece`): characters that stand for themselves, and
backslashes each with the character behind it. Where a quoted text ends is decided before anything in it is read,
and both readings take it to the same pieces, so that in a run of backslashes they pair the same ones.

The main result, `Grammar.quotation_denotes`, says that every text is read from a quotation in which its quotes and
backslashes stand behind backslashes, that quotations are the texts that have the form of a literal, and which of them
are refused for a pair without a meaning.
-/
namespace LiveQuery.Grammar

/-- A piece of what stands between quotes. -/
inductive Piece
  /-- A character for itself, which neither ends the quotation nor takes the next one along. -/
  | plain (c : Char) (free : c ≠ '"' ∧ c ≠ '\\')
  /-- A backslash and the character behind it. -/
  | pair (c : Char)

namespace Piece

/-- The characters of a piece. -/
def chars : Piece → List Char
  | plain c _ => [c]
  | pair c => ['\\', c]

/-- The characters that have a meaning behind a backslash. -/
def Known (c : Char) : Prop := c = 'n' ∨ c = 't' ∨ c = '"' ∨ c = '\\'

/-- The character that a piece stands for, if it has a meaning. -/
def meaning? : Piece → Option Char
  | plain c _ => some c
  | pair 'n' => some '\n'
  | pair 't' => some '\t'
  | pair '"' => some '"'
  | pair '\\' => some '\\'
  | pair _ => none

theorem meaning?_pair_eq_none_iff {c : Char} : (pair c).meaning? = none ↔ ¬Known c := by
  constructor
  · rintro h (rfl | rfl | rfl | rfl) <;> cases h
  · intro h
    rw [meaning?] <;> rintro rfl <;> exact h (by simp [Known])

/-- How a character is written: a quote and a backslash behind a backslash, a line feed and a tab by letters if `short`
says so, and every other character as itself. -/
def ofChar (c : Char) (short : Bool) : Piece :=
  if h : c = '"' ∨ c = '\\' then pair c
  else if short ∧ c = '\n' then pair 'n'
  else if short ∧ c = '\t' then pair 't'
  else plain c (not_or.mp h)

theorem meaning?_ofChar (c : Char) (short : Bool) : (ofChar c short).meaning? = some c := by
  unfold ofChar
  split
  next h => rcases h with rfl | rfl <;> rfl
  split
  next h => rw [h.2]; rfl
  split
  next h => rw [h.2]; rfl
  next => rfl

end Piece

/-- The quoted text of some pieces. -/
def quotation (ps : List Piece) : List Char := '"' :: (ps.flatMap Piece.chars ++ ['"'])

/-- What some pieces stand for, if all of them have a meaning. -/
def meaning? (ps : List Piece) : Option (List Char) := ps.mapM Piece.meaning?

@[simp] theorem meaning?_nil : meaning? [] = some [] := rfl

theorem meaning?_cons (p : Piece) (ps : List Piece) :
    meaning? (p :: ps) = p.meaning?.bind fun c => (meaning? ps).map (c :: ·) := by
  rw [meaning?, List.mapM_cons]
  cases p.meaning? <;> cases h : ps.mapM Piece.meaning? <;> simp [meaning?, h]

theorem meaning?_eq_none_iff {ps : List Piece} : meaning? ps = none ↔ ∃ c, .pair c ∈ ps ∧ ¬Piece.Known c := by
  induction ps with
  | nil => simp
  | cons p ps ih =>
    rw [meaning?_cons]
    cases hp : p.meaning? with
    | none =>
      cases p with
      | plain => cases hp
      | pair c =>
        exact iff_of_true rfl ⟨c, List.mem_cons_self, Piece.meaning?_pair_eq_none_iff.mp hp⟩
    | some c =>
      have hne : ∀ d, ¬Piece.Known d → Piece.pair d ≠ p := by
        rintro d hd rfl
        rw [Piece.meaning?_pair_eq_none_iff.mpr hd] at hp
        cases hp
      rw [Option.bind_some, Option.map_eq_none_iff, ih]
      refine exists_congr fun d => and_congr_left fun hd => ?_
      rw [List.mem_cons, or_iff_right (hne d hd)]

/-- A text is meant by the pieces of its characters, whichever way each of them is written. -/
theorem meaning?_ofChars (cs : List (Char × Bool)) :
    meaning? (cs.map fun c => .ofChar c.1 c.2) = some (cs.map Prod.fst) := by
  induction cs with
  | nil => rfl
  | cons c cs ih =>
    rw [List.map_cons, meaning?_cons, Piece.meaning?_ofChar, ih]
    rfl

/-! ## The two readings -/

theorem splitQuoted_plain_cons {c : Char} (h : c ≠ '"' ∧ c ≠ '\\') (l : List Char) :
    splitQuoted (c :: l) = (splitQuoted l).map fun p => (c :: p.1, p.2) := by
  have hall : ∀ d ∈ [c], d ≠ '"' ∧ d ≠ '\\' := by simpa using h
  exact splitQuoted_plain hall l

/-- A quotation ends behind its pieces, whatever follows. -/
theorem splitQuoted_pieces (ps : List Piece) (rest : List Char) :
    splitQuoted (ps.flatMap Piece.chars ++ '"' :: rest) = some (ps.flatMap Piece.chars, rest) := by
  induction ps with
  | nil => rfl
  | cons p ps ih =>
    rw [List.flatMap_cons, List.append_assoc]
    cases p with
    | plain c free =>
      rw [Piece.chars, List.singleton_append, splitQuoted_plain_cons free, ih]
      rfl
    | pair c =>
      show (splitQuoted (ps.flatMap Piece.chars ++ '"' :: rest)).map _ = _
      rw [ih]
      rfl

/-- Of three backslashes in front of two quotes the third takes the first quote along. -/
example : splitQuoted ['\\', '\\', '\\', '"', '"', 'x'] = some (['\\', '\\', '\\', '"'], ['x']) := by decide

/-- What is found before the quote that ends a text are pieces. -/
theorem exists_pieces {l raw rest : List Char} (h : splitQuoted l = some (raw, rest)) :
    ∃ ps : List Piece, raw = ps.flatMap Piece.chars ∧ l = raw ++ '"' :: rest := by
  fun_induction splitQuoted l generalizing raw with
  | case1 => cases h
  | case2 => cases h; exact ⟨[], rfl, rfl⟩
  | case3 => cases h
  | case4 c l ih =>
    obtain ⟨⟨raw', rest'⟩, hsplit, h⟩ := Option.map_eq_some_iff.mp h
    cases h
    obtain ⟨ps, rfl, rfl⟩ := ih hsplit
    exact ⟨.pair c :: ps, rfl, rfl⟩
  | case5 c l hquote hlast hslash ih =>
    obtain ⟨⟨raw', rest'⟩, hsplit, h⟩ := Option.map_eq_some_iff.mp h
    cases h
    obtain ⟨ps, rfl, rfl⟩ := ih hsplit
    have hfree : c ≠ '"' ∧ c ≠ '\\' := by
      refine ⟨hquote, fun heq => ?_⟩
      obtain ⟨d, l', hl⟩ : ∃ d l', ps.flatMap Piece.chars ++ '"' :: rest = d :: l' :=
        List.exists_cons_of_ne_nil (by simp)
      exact hslash d l' heq hl
    exact ⟨.plain c hfree :: ps, rfl, rfl⟩

theorem unescape_pieces (ps : List Piece) : unescape (ps.flatMap Piece.chars) = meaning? ps := by
  induction ps with
  | nil => rfl
  | cons p ps ih =>
    rw [List.flatMap_cons, meaning?_cons, ← ih]
    cases p with
    | plain c free =>
      show unescape (c :: ps.flatMap Piece.chars) = _
      rw [unescape]
      · rfl
      all_goals simp [free.2]
    | pair c =>
      show unescape ('\\' :: c :: ps.flatMap Piece.chars) = _
      by_cases hknown : Piece.Known c
      · rcases hknown with rfl | rfl | rfl | rfl <;> rfl
      · rw [Piece.meaning?_pair_eq_none_iff.mpr hknown, unescape]
        · rfl
        all_goals
          rintro _ ⟨⟩
          exact hknown (by simp [Piece.Known])

/-! ## Literals and expressions -/

/-- The fault of a quotation: it has a pair without a meaning. -/
def quotationFault (ps : List Piece) : Option ReadFault :=
  (meaning? ps).elim (some (.literal (String.ofList (quotation ps)))) fun _ => none

/-- The text that a quotation stands for; one without a meaning gives none. -/
def quotationText (ps : List Piece) : String := (meaning? ps).elim "" String.ofList

section

variable (ps : List Piece) (rest : List Char) (fault : Option ReadFault)

theorem string_quotation :
    string ⟨quotation ps ++ rest, fault⟩ = some (quotationText ps, ⟨rest, fault.or (quotationFault ps)⟩) := by
  have htext : quotation ps ++ rest = [] ++ '"' :: (ps.flatMap Piece.chars ++ '"' :: rest) := by
    simp [quotation]
  rw [htext, string_eq (by decide) (splitQuoted_pieces ps rest) fault, unescape_pieces]
  rfl

theorem peek_quotation :
    peek ⟨quotation ps ++ rest, fault⟩ = some (some '"', ⟨quotation ps ++ rest, fault⟩) :=
  peek_eq (s := []) (by decide) (by decide) _ fault

theorem literal_quotation : literal ⟨quotation ps ++ rest, fault⟩ =
    some (.str (quotationText ps), ⟨rest, fault.or (quotationFault ps)⟩) := by
  rw [literal_eq, Reader.bind_eq (peek_quotation ps rest fault), if_pos rfl,
    Reader.bind_eq (string_quotation ps rest fault)]
  rfl

/-- An expression that is a quotation alone. -/
theorem expr_quotation (fuel : Nat) : expr (fuel + 1) ⟨quotation ps, fault⟩ =
    some (.str (quotationText ps), ⟨[], fault.or (quotationFault ps)⟩) := by
  have hpeek := peek_quotation ps [] fault
  have hstring := string_quotation ps [] fault
  rw [List.append_nil] at hpeek hstring
  have hprimary : primary (ty (fuel + 1)) (expr fuel) ⟨quotation ps, fault⟩ =
      some (.str (quotationText ps), ⟨[], fault.or (quotationFault ps)⟩) := by
    rw [primary_eq, Reader.bind_eq hpeek, if_neg (by decide), if_neg (by decide), if_pos rfl, Reader.bind_eq hstring]
    rfl
  rw [expr, Reader.bind_eq hprimary]
  rfl

end

/-- A text that a reader takes to its end. -/
theorem readAll_of_end {α : Type} {r : Reader α} {cs : List Char} {a : α} {f : Option ReadFault}
    (h : r ⟨cs, none⟩ = some (a, ⟨[], f⟩)) : readAll r (String.ofList cs) = f.elim (.ok a) .error := by
  have hend : (do let a ← r; atEnd; return a : Reader α) { rest := cs } = some (a, ⟨[], f⟩) := by
    rw [Reader.bind_eq h]
    rfl
  rw [readAll, String.toList_ofList, hend]
  cases f <;> rfl

theorem readAll_literal (ps : List Piece) : readAll literal (String.ofList (quotation ps)) =
    (quotationFault ps).elim (.ok (.str (quotationText ps))) .error := by
  have h := literal_quotation ps [] none
  rw [List.append_nil] at h
  exact readAll_of_end h

theorem read_quotation (ps : List Piece) : Expr.read (String.ofList (quotation ps)) =
    (quotationFault ps).elim (.ok (.str (quotationText ps))) .error :=
  readAll_of_end (expr_quotation ps none _)

/-- A quotation is refused for its fault, which it has if and only if a pair in it has no meaning. -/
theorem refused_iff {α : Type} (ps : List Piece) (a : α) :
    ((quotationFault ps).elim (.ok a) .error : Except ReadFault α) = .error (.literal (String.ofList (quotation ps))) ↔
      ∃ c, .pair c ∈ ps ∧ ¬Piece.Known c := by
  rw [← meaning?_eq_none_iff, quotationFault]
  cases meaning? ps <;> simp

/-- A text in which something is left over. -/
theorem readAll_of_rest {α : Type} {r : Reader α} {cs rest : List Char} {a : α} {f : Option ReadFault}
    (h : r ⟨cs, none⟩ = some (a, ⟨rest, f⟩)) {c : Char} (hc : c ∈ rest) (hblank : isBlank c = false) :
    readAll r (String.ofList cs) = .error .form := by
  obtain ⟨d, left, hleft⟩ : ∃ d left, rest.dropWhile isBlank = d :: left := by
    refine List.exists_cons_of_ne_nil fun hnil => ?_
    rw [List.dropWhile_eq_nil_iff.mp hnil c hc] at hblank
    cases hblank
  have hpeek : peek ⟨rest, f⟩ = some (some d, ⟨d :: left, f⟩) := by
    show some ((rest.dropWhile isBlank).head?, Input.mk (rest.dropWhile isBlank) f) = _
    rw [hleft]
    rfl
  have hend : (do let a ← r; atEnd; return a : Reader α) { rest := cs } = none := by
    rw [Reader.bind_eq h]
    show ((atEnd ⟨rest, f⟩).bind _) = none
    rw [atEnd, Reader.bind_eq hpeek]
    rfl
  rw [readAll, String.toList_ofList, hend]

/-- A text that no quote ends. -/
theorem readAll_unclosed {l : List Char} (h : splitQuoted l = none) :
    readAll literal (String.ofList ('"' :: l)) = .error .form := by
  have hpeek : peek ⟨'"' :: l, none⟩ = some (some '"', ⟨'"' :: l, none⟩) :=
    peek_eq (s := []) (by decide) (by decide) _ none
  have hopen : symbol '"' ⟨'"' :: l, none⟩ = some ((), ⟨l, none⟩) :=
    symbol_reads (s := []) (by decide) (c := '"') (by decide) (fun _ => True) l none trivial
  have hget : (get : Reader Input) ⟨l, none⟩ = some (⟨l, none⟩, ⟨l, none⟩) := rfl
  have hstring : string ⟨'"' :: l, none⟩ = none := by
    rw [string, Reader.bind_eq hopen, Reader.bind_eq hget]
    dsimp only
    rw [h]
    rfl
  have hliteral : literal ⟨'"' :: l, none⟩ = none := by
    rw [literal_eq, Reader.bind_eq hpeek, if_pos rfl]
    show (string ⟨'"' :: l, none⟩).bind _ = none
    rw [hstring]
    rfl
  have hall : (do let a ← literal; atEnd; return a : Reader Literal) { rest := '"' :: l } = none := by
    show (literal ⟨'"' :: l, none⟩).bind _ = none
    rw [hliteral]
    rfl
  rw [readAll, String.toList_ofList, hall]

/-- What ends at a quote and is not all between the quotes goes on to that quote. -/
theorem eq_nil_or_quote_mem {raw raw' rest : List Char} (h : raw ++ ['"'] = raw' ++ '"' :: rest) :
    rest = [] ∨ '"' ∈ rest := by
  rcases List.eq_nil_or_concat rest with rfl | ⟨front, c, rfl⟩
  · exact .inl rfl
  · rw [List.concat_eq_append, ← List.cons_append, ← List.append_assoc] at h
    have hlast : ['"'] = [c] := (List.append_inj' h rfl).2
    rw [List.concat_eq_append, ← hlast]
    exact .inr (by simp)

/-- Between two quotes stand pieces if and only if the whole has the form of a literal. -/
theorem form_iff (raw : List Char) :
    readAll literal (String.ofList ('"' :: (raw ++ ['"']))) ≠ .error .form ↔
      ∃ ps : List Piece, raw = ps.flatMap Piece.chars := by
  constructor
  · intro hform
    cases hsplit : splitQuoted (raw ++ ['"']) with
    | none =>
      exact (hform (readAll_unclosed hsplit)).elim
    | some p =>
      obtain ⟨ps, hps, hraw⟩ := exists_pieces hsplit
      rcases eq_nil_or_quote_mem hraw with hrest | hquote
      · rw [hrest] at hraw
        exact ⟨ps, hps ▸ List.append_cancel_right hraw⟩
      · have htext : '"' :: (raw ++ ['"']) = quotation ps ++ p.2 := by
          rw [hraw, hps]
          simp [quotation]
        rw [htext] at hform
        exact (hform (readAll_of_rest (literal_quotation ps p.2 none) hquote rfl)).elim
  · rintro ⟨ps, rfl⟩
    rw [show '"' :: (ps.flatMap Piece.chars ++ ['"']) = quotation ps from rfl, readAll_literal, quotationFault]
    cases meaning? ps <;> simp

/-- Every text is read from its quotation, as a literal in front of anything and as an expression, whichever way
each of its characters is written. The quoted texts that have the form of a literal are the quotations of pieces,
and they are refused as invalid literals if and only if a pair in them is not `\\n`, `\\t`, a quote or a backslash
behind a backslash. -/
theorem quotation_denotes :
    (∀ cs : List (Char × Bool),
      let text := quotation (cs.map fun c => .ofChar c.1 c.2)
      let s := String.ofList (cs.map Prod.fst)
      literal.Reads text (.str s) (fun _ => True) ∧ Expr.read (String.ofList text) = .ok (.str s)) ∧
    (∀ raw : List Char, readAll literal (String.ofList ('"' :: (raw ++ ['"']))) ≠ .error .form ↔
      ∃ ps : List Piece, raw = ps.flatMap Piece.chars) ∧
    ∀ ps : List Piece,
      let text := String.ofList (quotation ps)
      (readAll literal text = .error (.literal text) ↔ ∃ c, .pair c ∈ ps ∧ ¬Piece.Known c) ∧
        (Expr.read text = .error (.literal text) ↔ ∃ c, .pair c ∈ ps ∧ ¬Piece.Known c) := by
  refine ⟨fun cs => ⟨fun rest fault _ => ?_, ?_⟩, form_iff, fun ps => ⟨?_, ?_⟩⟩
  · rw [literal_quotation, quotationText, quotationFault, meaning?_ofChars, Option.elim_some, Option.elim_some,
      Option.or_none]
  · rw [read_quotation, quotationText, quotationFault, meaning?_ofChars]
    rfl
  · rw [readAll_literal]
    exact refused_iff ps _
  · rw [read_quotation]
    exact refused_iff ps _

end LiveQuery.Grammar
