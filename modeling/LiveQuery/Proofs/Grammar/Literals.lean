import LiveQuery.Proofs.Grammar.Tokens

/-! # Literals are read as they were written, if they can be

Numbers and truth values are read from their texts as they are. A quoted text is written with an escape for each
character that would not be seen, and the reader knows a few of these escapes only (`Text.isLegible`): a text with
another character in it is read to its end, and an invalid literal is reported (`Grammar.literal_takes`).
-/
namespace LiveQuery

/-! ## Quoted texts -/

/-- Whether a character is written as itself, or with an escape that is read. -/
def Text.isLegible (c : Char) : Bool :=
  c == '"' || c == '\\' || c == '\n' || c == '\t' || (c != '\r' && c != '\x00' && !Text.isUnprintable c)

/-- The fault of the text of a literal: it has a character with an escape that is not read. -/
def Literal.fault : Literal → Option ReadFault
  | .str s => if s.toList.all Text.isLegible then none else some (.literal (Text.quoted s))
  | .int _ | .bool _ => none

namespace Grammar

open Text

theorem splitQuoted_plain {cs : List Char} (h : ∀ c ∈ cs, c ≠ '"' ∧ c ≠ '\\') (rest : List Char) :
    splitQuoted (cs ++ rest) = (splitQuoted rest).map fun p => (cs ++ p.1, p.2) := by
  induction cs with
  | nil => simp
  | cons c cs ih =>
    obtain ⟨⟨hquote, hslash⟩, hcs⟩ := List.forall_mem_cons.mp h
    have hstep : splitQuoted (c :: (cs ++ rest)) = (splitQuoted (cs ++ rest)).map fun p => (c :: p.1, p.2) := by
      rw [splitQuoted]
      · exact fun h => hquote h
      · exact fun h => absurd h hslash
      · exact fun _ _ h => absurd h hslash
    rw [List.cons_append, hstep, ih hcs, Option.map_map]
    rfl

theorem hexDigits_plain (n : Nat) : ∀ c ∈ hexDigits n, c ≠ '"' ∧ c ≠ '\\' := by
  have hdigit : ∀ d : Nat, d.digitChar ≠ '"' ∧ d.digitChar ≠ '\\' :=
    fun d => ⟨Nat.digitChar_ne _ rfl, Nat.digitChar_ne _ rfl⟩
  induction n using Nat.strongRecOn with
  | ind n ih =>
    intro c hc
    rw [hexDigits] at hc
    by_cases hsmall : n < 16
    · rw [Nat.toDigits_of_lt_base hsmall, List.mem_singleton] at hc
      rw [hc]
      exact hdigit n
    · rw [Nat.toDigits_of_base_le (by decide) (by omega), List.mem_append, List.mem_singleton] at hc
      rcases hc with hc | rfl
      · exact ih (n / 16) (by omega) c hc
      · exact hdigit _

/-- The ways to write a character: a backslash and a letter, its number, or itself. -/
theorem escaped_cases (c : Char) :
    (∃ d, escaped c = ['\\', d] ∧ ∀ rest, unescape ('\\' :: d :: rest) =
      if isLegible c then (unescape rest).map (c :: ·) else none) ∨
    (escaped c = ['\\', 'u'] ++ (['\x7b'] ++ hexDigits c.toNat ++ ['\x7d']) ∧ isLegible c = false) ∨
    (escaped c = [c] ∧ c ≠ '"' ∧ c ≠ '\\' ∧ isLegible c = true) := by
  by_cases hquote : c = '"'
  · subst hquote
    exact .inl ⟨'"', rfl, fun _ => rfl⟩
  by_cases hslash : c = '\\'
  · subst hslash
    exact .inl ⟨'\\', rfl, fun _ => rfl⟩
  by_cases hfeed : c = '\n'
  · subst hfeed
    exact .inl ⟨'n', rfl, fun _ => rfl⟩
  by_cases hreturn : c = '\r'
  · subst hreturn
    exact .inl ⟨'r', rfl, fun _ => rfl⟩
  by_cases htab : c = '\t'
  · subst htab
    exact .inl ⟨'t', rfl, fun _ => rfl⟩
  by_cases hnull : c = '\x00'
  · subst hnull
    exact .inl ⟨'0', rfl, fun _ => rfl⟩
  rw [escaped, if_neg hquote, if_neg hslash, if_neg hfeed, if_neg hreturn, if_neg htab, if_neg hnull]
  by_cases hseen : isUnprintable c = true
  · rw [if_pos hseen]
    refine .inr (.inl ⟨rfl, ?_⟩)
    simp [isLegible, hquote, hslash, hfeed, htab, hseen]
  · rw [if_neg hseen]
    refine .inr (.inr ⟨rfl, hquote, hslash, ?_⟩)
    simp [isLegible, hreturn, hnull, hseen]

theorem splitQuoted_escaped (s rest : List Char) :
    splitQuoted (s.flatMap escaped ++ '"' :: rest) = some (s.flatMap escaped, rest) := by
  induction s with
  | nil => rfl
  | cons c s ih =>
    have hstep : ∀ l, splitQuoted (escaped c ++ l) = (splitQuoted l).map fun p => (escaped c ++ p.1, p.2) := by
      intro l
      obtain ⟨d, hc, -⟩ | ⟨hc, -⟩ | ⟨hc, hquote, hslash, -⟩ := escaped_cases c
      · rw [hc]
        rfl
      · have hplain : ∀ d ∈ ['\x7b'] ++ hexDigits c.toNat ++ ['\x7d'], d ≠ '"' ∧ d ≠ '\\' := by
          intro d hd
          simp only [List.mem_append, List.mem_singleton] at hd
          rcases hd with (rfl | hd) | rfl
          · decide
          · exact hexDigits_plain _ d hd
          · decide
        rw [hc, List.append_assoc]
        show (splitQuoted (['\x7b'] ++ hexDigits c.toNat ++ ['\x7d'] ++ l)).map _ = _
        rw [splitQuoted_plain hplain, Option.map_map]
        rfl
      · rw [hc]
        exact splitQuoted_plain (by simpa using ⟨hquote, hslash⟩) l
    rw [List.flatMap_cons, List.append_assoc, hstep, ih]
    rfl

theorem unescape_escaped (s : List Char) :
    unescape (s.flatMap escaped) = if s.all isLegible then some s else none := by
  induction s with
  | nil => rfl
  | cons c s ih =>
    rw [List.flatMap_cons, List.all_cons]
    obtain ⟨d, hc, hread⟩ | ⟨hc, hlegible⟩ | ⟨hc, -, hslash, hlegible⟩ := escaped_cases c
    · rw [hc]
      show unescape ('\\' :: d :: s.flatMap escaped) = _
      rw [hread, ih]
      cases isLegible c <;> cases s.all isLegible <;> rfl
    · rw [hc, hlegible]
      rfl
    · have hstep : unescape (c :: s.flatMap escaped) = (unescape (s.flatMap escaped)).map (c :: ·) := by
        rw [unescape]
        all_goals simp [hslash]
      rw [hc, hlegible]
      show unescape (c :: s.flatMap escaped) = _
      rw [hstep, ih]
      cases s.all isLegible <;> rfl

theorem string_eq {s l raw rest : List Char} (hb : Blanks s) (hsplit : splitQuoted l = some (raw, rest))
    (fault : Option ReadFault) : string ⟨s ++ '"' :: l, fault⟩ =
      some ((unescape raw).elim "" String.ofList, ⟨rest, fault.or
        ((unescape raw).elim (some (.literal (String.ofList ('"' :: (raw ++ ['"']))))) fun _ => none)⟩) := by
  have hopen : symbol '"' ⟨s ++ '"' :: l, fault⟩ = some ((), ⟨l, fault⟩) := by
    have h := symbol_reads hb (c := '"') (by decide) (fun _ => True) l fault trivial
    rwa [List.append_assoc] at h
  have hget : (get : Reader Input) ⟨l, fault⟩ = some (⟨l, fault⟩, ⟨l, fault⟩) := rfl
  rw [string, Reader.bind_eq hopen, Reader.bind_eq hget]
  dsimp only
  rw [hsplit]
  dsimp only
  have hset : (set (Input.mk rest fault) : Reader PUnit) ⟨l, fault⟩ = some (⟨⟩, ⟨rest, fault⟩) := rfl
  rw [Reader.bind_eq hset]
  cases unescape raw with
  | some t =>
    rw [Option.elim_some, Option.elim_some, Option.or_none]
    rfl
  | none =>
    rw [Option.elim_none, Option.elim_none, ← Option.orElse_eq_or (f := fun _ => _)]
    rfl

theorem string_notes {s : List Char} (hb : Blanks s) (t : String) (P : List Char → Prop) :
    string.Notes (s ++ (quoted t).toList) t (Literal.str t).fault P := by
  intro rest fault _
  have htext : s ++ (quoted t).toList ++ rest = s ++ '"' :: (t.toList.flatMap escaped ++ '"' :: rest) := by
    simp [quotedChars]
  have hread := string_eq hb (splitQuoted_escaped t.toList rest) fault
  rw [← htext, unescape_escaped] at hread
  by_cases hlegible : t.toList.all isLegible = true
  · have hfault : (Literal.str t).fault = none := if_pos hlegible
    rw [if_pos hlegible, Option.elim_some, Option.elim_some, String.ofList_toList] at hread
    rw [hfault]
    exact ⟨t, fun _ => rfl, hread⟩
  · have hfault : (Literal.str t).fault = some (.literal (quoted t)) := if_neg hlegible
    rw [if_neg hlegible, Option.elim_none, Option.elim_none] at hread
    rw [hfault]
    exact ⟨"", fun h => (by cases h), hread⟩

/-! ## Numbers -/

theorem digitsValue_toDigits (n : Nat) : digitsValue (Nat.toDigits 10 n) = n := by
  have hsame : digitsValue (Nat.toDigits 10 n) = Nat.ofDigitChars 10 (Nat.toDigits 10 n) 0 := by
    rw [digitsValue, Nat.ofDigitChars]
    congr 1
    funext m d
    rw [Nat.mul_comm]
    rfl
  rw [hsame, Nat.ofDigitChars_toDigits (by decide) (by decide)]

theorem not_isDigit {rest : List Char} (h : Ends rest) : ∀ c ∈ rest.head?, c.isDigit = false := by
  intro c hc
  have hname := h c hc
  simp only [isNameChar, Char.isAlphanum, Bool.or_eq_false_iff] at hname
  exact hname.1.2

theorem isBlank_of_isDigit {d : Char} (h : d.isDigit = true) : isBlank d = false :=
  not_isBlank (by simp [isNameChar, Char.isAlphanum, h])

/-- The digits of a number, after a minus or not. -/
theorem digits_read (m : Nat) {rest : List Char} (hrest : Ends rest) (fault : Option ReadFault) :
    takeWhile Char.isDigit ⟨Nat.toDigits 10 m ++ rest, fault⟩ = some (Nat.toDigits 10 m, ⟨rest, fault⟩) ∧
      ¬(Nat.toDigits 10 m).isEmpty = true :=
  ⟨takeWhile_eq (fun _ hc => Nat.isDigit_of_mem_toDigits (by decide) (by decide) hc) (not_isDigit hrest) fault,
    by simp [Nat.toDigits_ne_nil]⟩

theorem toDigits_head (m : Nat) : ∃ d ds, Nat.toDigits 10 m = d :: ds ∧ d.isDigit = true := by
  obtain ⟨d, ds, hd⟩ := List.exists_cons_of_ne_nil (Nat.toDigits_ne_nil (b := 10) (n := m))
  exact ⟨d, ds, hd, Nat.isDigit_of_mem_toDigits (n := m) (by decide) (by decide) (hd ▸ List.mem_cons_self)⟩

/-- A number starts with a digit or with a minus. -/
theorem toString_head (n : Int64) : ∃ d cs, (toString n.toInt).toList = d :: cs ∧
    (d.isDigit || d == '-') = true ∧ isBlank d = false := by
  rw [Int.toString_eq_repr, Int.repr_eq_if]
  split
  · obtain ⟨d, ds, hd, hdigit⟩ := toDigits_head n.toInt.toNat
    exact ⟨d, ds, by rw [Nat.toList_repr, hd], by rw [hdigit]; rfl, isBlank_of_isDigit hdigit⟩
  · exact ⟨'-', _, by rw [String.toList_append]; rfl, rfl, rfl⟩

theorem integer_reads {s : List Char} (hb : Blanks s) (n : Int64) :
    integer.Reads (s ++ (toString n.toInt).toList) n Ends := by
  intro rest fault hrest
  have hbounds : Int64.minValue.toInt ≤ n.toInt ∧ n.toInt ≤ Int64.maxValue.toInt :=
    ⟨n.minValue_le_toInt, n.toInt_le⟩
  have hget : ∀ i : Input, (get : Reader Input) i = some (i, i) := fun _ => rfl
  rw [Int.toString_eq_repr, Int.repr_eq_if]
  by_cases hsign : 0 ≤ n.toInt
  · obtain ⟨d, ds, hd, hdigit⟩ := toDigits_head n.toInt.toNat
    obtain ⟨hdigits, hempty⟩ := digits_read n.toInt.toNat hrest fault
    have hvalue : (digitsValue (Nat.toDigits 10 n.toInt.toNat) : Int) = n.toInt := by
      rw [digitsValue_toDigits]
      omega
    have hskip : skip ⟨s ++ (Nat.toDigits 10 n.toInt.toNat ++ rest), fault⟩ =
        some ((), ⟨Nat.toDigits 10 n.toInt.toNat ++ rest, fault⟩) := by
      refine skip_eq hb ?_ fault
      rw [hd]
      rintro c ⟨⟩
      exact isBlank_of_isDigit hdigit
    have hminus : ¬(Nat.toDigits 10 n.toInt.toNat ++ rest).head? = some '-' := by
      rw [hd]
      rintro ⟨⟩
      exact absurd hdigit (by decide)
    rw [if_pos hsign, Nat.toList_repr, List.append_assoc, integer, Reader.bind_eq hskip, Reader.bind_eq (hget _)]
    dsimp only
    rw [if_neg hminus, pure_bind, Reader.bind_eq hdigits, if_neg hempty, if_neg Bool.false_ne_true,
      hvalue, if_pos hbounds, Int64.ofInt_toInt]
    rfl
  · obtain ⟨hdigits, hempty⟩ := digits_read (-n.toInt).toNat hrest fault
    have hvalue : -(digitsValue (Nat.toDigits 10 (-n.toInt).toNat) : Int) = n.toInt := by
      rw [digitsValue_toDigits]
      omega
    have hskip : skip ⟨s ++ '-' :: (Nat.toDigits 10 (-n.toInt).toNat ++ rest), fault⟩ =
        some ((), ⟨'-' :: (Nat.toDigits 10 (-n.toInt).toNat ++ rest), fault⟩) :=
      skip_eq hb (by rintro c ⟨⟩; decide) fault
    have htext : s ++ ("-" ++ (-n.toInt).toNat.repr).toList ++ rest =
        s ++ '-' :: (Nat.toDigits 10 (-n.toInt).toNat ++ rest) := by
      simp
    rw [if_neg hsign, htext, integer, Reader.bind_eq hskip, Reader.bind_eq (hget _)]
    dsimp only
    have hminus : ('-' :: (Nat.toDigits 10 (-n.toInt).toNat ++ rest)).head? = some '-' := rfl
    rw [if_pos hminus, Reader.bind_eq (char_eq _ _ _), pure_bind, Reader.bind_eq hdigits, if_neg hempty,
      if_pos (rfl : true = true), hvalue, if_pos hbounds, Int64.ofInt_toInt]
    rfl

/-! ## Literals -/

/-- The first character decides what is read. -/
theorem literal_eq : literal = peek >>= fun c =>
    if c = some '"' then string >>= fun s => pure (.str s)
    else if c.any fun d => d.isDigit || d == '-' then integer >>= fun n => pure (.int n)
    else if c.isSome then word >>= fun w =>
      if isKeyword "true" w then pure (.bool true)
      else if isKeyword "false" w then pure (.bool false)
      else failure
    else failure := by
  rw [literal]
  congr 1
  funext c
  split
  next => rfl
  next d hquote =>
    have hne : ¬some d = some '"' := by
      rintro ⟨⟩
      exact hquote rfl
    rw [if_neg hne]
    rfl
  next => rfl

section

variable {s : List Char} (hb : Blanks s)
include hb

theorem literal_str_notes (t : String) :
    literal.Notes (s ++ (quoted t).toList) (.str t) (Literal.str t).fault Ends := by
  intro rest fault hrest
  obtain ⟨t', ht', hstring⟩ := string_notes (s := []) (by decide) t Ends rest fault hrest
  refine ⟨.str t', fun h => by rw [ht' h], ?_⟩
  have htext : (quoted t).toList ++ rest = '"' :: (t.toList.flatMap escaped ++ '"' :: rest) := by
    simp [quotedChars]
  rw [List.nil_append, htext] at hstring
  rw [List.append_assoc, htext, literal_eq, Reader.bind_eq (peek_eq hb (by decide) _ fault), if_pos rfl,
    Reader.bind_eq hstring]
  rfl

theorem literal_int_reads (n : Int64) : literal.Reads (s ++ (toString n.toInt).toList) (.int n) Ends := by
  intro rest fault hrest
  obtain ⟨d, cs, hd, hdigit, hblank⟩ := toString_head n
  have hquote : ¬some d = some '"' := by
    rintro ⟨⟩
    exact absurd hdigit (by decide)
  have hany : ((some d).any fun d => d.isDigit || d == '-') = true := hdigit
  have hread := integer_reads (s := []) (by decide) n rest fault hrest
  rw [List.nil_append, hd, List.cons_append] at hread
  rw [hd, List.append_assoc, List.cons_append, literal_eq, Reader.bind_eq (peek_eq hb hblank _ fault), if_neg hquote,
    if_pos hany, Reader.bind_eq hread]
  rfl

theorem literal_bool_reads (b : Bool) :
    literal.Reads (s ++ (Literal.text (.bool b)).toList) (.bool b) Ends := by
  intro rest fault hrest
  have hw : IsWord (Literal.text (.bool b)).toList := by cases b <;> decide
  obtain ⟨c, cs, hc, hblank, hquote, hany⟩ : ∃ c cs, (Literal.text (.bool b)).toList = c :: cs ∧ isBlank c = false ∧
      ¬some c = some '"' ∧ ¬((some c).any fun d => d.isDigit || d == '-') = true := by
    cases b with
    | false => exact ⟨'f', _, rfl, by decide, by decide, by decide⟩
    | true => exact ⟨'t', _, rfl, by decide, by decide, by decide⟩
  have hword := word_reads (s := []) (by decide) hw rest fault hrest
  rw [List.nil_append, hc, List.cons_append] at hword
  rw [hc, List.append_assoc, List.cons_append, literal_eq, Reader.bind_eq (peek_eq hb hblank _ fault), if_neg hquote,
    if_neg hany, if_pos Option.isSome_some, Reader.bind_eq hword, ← hc]
  cases b <;> rfl

/-- The text of a literal is read as the literal, or its fault is noted. -/
theorem literal_notes (v : Literal) : literal.Notes (s ++ v.text.toList) v v.fault Ends := by
  cases v with
  | str t => exact literal_str_notes hb t
  | int n => exact (literal_int_reads hb n).notes
  | bool b => exact (literal_bool_reads hb b).notes

end

end Grammar

end LiveQuery
