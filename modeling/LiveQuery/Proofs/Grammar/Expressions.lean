import LiveQuery.Grammar.Expr
import LiveQuery.Proofs.Grammar.Grouping

/-! # Expressions are read from their texts

The text of an expression that was read is read again, and gives the expression as the text groups it
(`Expr.read_text_regrouped`): the same expression, unless a member is taken of a function.

An expression is read as its base with the names of the members that are taken of it. The body of a function and the
name of a variable go on with what stands behind them, so what follows an expression may not open a call or take a
member, also behind blanks (`Grammar.Finishes`). The fuel of the reader is a bound for the length of the text.
-/
namespace LiveQuery

namespace Expr

/-! ## The characters of an expression -/

/-- The characters of an expression. -/
abbrev textChars (e : Expr) : List Char := e.text.toList

/-- The characters of a field whose value is written with the given ones. -/
def fieldChars (chars : Expr → List Char) (f : String × Expr) : List Char :=
  f.1.toList ++ ([':'] ++ ([' '] ++ chars f.2))

/-- The characters of a local binding, with the blank in front. -/
def bindingChars (b : String × Expr) : List Char :=
  ' ' :: ("let".toList ++ (' ' :: b.1.toList ++ (' ' :: '=' :: ' ' :: b.2.text.toList ++ [';'])))

/-- The characters of the members that are taken. -/
def chainChars (ns : List String) : List Char := ns.flatMap fun n => '.' :: n.toList

theorem toList_fieldTexts (fs : List (String × Expr)) : (fieldTexts fs).map String.toList =
    fs.map (fieldChars textChars) := by
  have hcolon : ": ".toList = [':', ' '] := rfl
  induction fs with
  | nil => rfl
  | cons f fs ih =>
    simp only [fieldTexts, List.map_cons, String.toList_append, hcolon, List.append_assoc] at ih ⊢
    rw [ih]
    rfl

theorem toList_argTexts (args : List Expr) : (argTexts args).map String.toList = args.map textChars := by
  induction args with
  | nil => rfl
  | cons e args ih =>
    rw [argTexts, List.map_cons, ih]
    rfl

theorem toList_paramTexts (ps : List (String × Ty)) :
    (ps.map paramText).map String.toList = ps.map Ty.fieldChars := by
  have hcolon : ": ".toList = [':', ' '] := rfl
  rw [List.map_map]
  refine List.map_congr_left fun p _ => ?_
  simp only [Function.comp_apply, paramText, Ty.fieldChars, String.toList_append, hcolon, List.append_assoc]
  rfl

/-- The blank behind each binding stands in front of the next one. -/
theorem toList_bindingsText (bs : List (String × Expr)) (cs : List Char) :
    ' ' :: ((bindingsText bs).toList ++ cs) = bs.flatMap bindingChars ++ ' ' :: cs := by
  have hlet : "let ".toList = "let".toList ++ [' '] := rfl
  have hequals : " = ".toList = [' ', '=', ' '] := rfl
  have hend : "; ".toList = [';', ' '] := rfl
  induction bs with
  | nil => rfl
  | cons b bs ih =>
    simp only [bindingsText, List.flatMap_cons, bindingChars, String.toList_append, hlet, hequals, hend,
      List.append_assoc, List.cons_append, List.nil_append] at ih ⊢
    rw [ih]

theorem toList_str (s : String) : (text (.str s)).toList = '"' :: (s.toList.flatMap Text.escaped ++ ['"']) := by
  simp [text, Text.quotedChars]

theorem toList_record (fs : List (String × Expr)) :
    (text (.record fs)).toList = '\x7b' :: (Grammar.itemChars (fieldChars textChars) fs ++ ['\x7d']) := by
  have hopen : "\x7b".toList = ['\x7b'] := rfl
  have hclose : "\x7d".toList = ['\x7d'] := rfl
  have hcomma : ", ".toList = [',', ' '] := rfl
  rw [text, String.toList_append, String.toList_append, String.toList_intercalate, toList_fieldTexts, hcomma, hopen,
    hclose, intercalate_comma, List.append_assoc]
  rfl

theorem toList_lambda (params : List (String × Ty)) (result : Ty) (body : Expr) :
    (text (.lambda params result body)).toList = "fn".toList ++
      ('(' :: ((Grammar.itemChars Ty.fieldChars params ++ [')']) ++
        (':' :: (([' '] ++ result.text.toList) ++ (' ' :: '=' :: '>' :: ([' '] ++ body.text.toList)))))) := by
  have hopen : "fn(".toList = "fn".toList ++ ['('] := rfl
  have hclose : "): ".toList = [')', ':', ' '] := rfl
  have harrow : " => ".toList = [' ', '=', '>', ' '] := rfl
  have hcomma : ", ".toList = [',', ' '] := rfl
  rw [text]
  simp only [String.toList_append, String.toList_intercalate, toList_paramTexts, hcomma, hopen, hclose, harrow,
    intercalate_comma, List.append_assoc, List.cons_append, List.nil_append]

theorem toList_call (n : String) (args : List Expr) (site : CallSite) :
    (text (.call n args site)).toList =
      n.toList ++ ('(' :: (Grammar.itemChars textChars args ++ [')'])) := by
  have hopen : "(".toList = ['('] := rfl
  have hclose : ")".toList = [')'] := rfl
  have hcomma : ", ".toList = [',', ' '] := rfl
  rw [text]
  simp only [String.toList_append, String.toList_intercalate, toList_argTexts, hcomma, hopen, hclose,
    intercalate_comma, List.append_assoc, List.cons_append, List.nil_append]

theorem toList_member (e : Expr) (n : String) : (text (.member e n)).toList = e.text.toList ++ '.' :: n.toList := by
  have hdot : ".".toList = ['.'] := rfl
  rw [text, String.toList_append, String.toList_append, hdot, List.append_assoc]
  rfl

theorem toList_block (bs : List (String × Expr)) (result : Expr) :
    (text (.block bs result)).toList =
      "do".toList ++ (' ' :: '\x7b' :: (bs.flatMap bindingChars ++ ' ' :: (result.text.toList ++ [' ', '\x7d']))) := by
  have hopen : "do \x7b ".toList = "do".toList ++ [' ', '\x7b', ' '] := rfl
  have hclose : " \x7d".toList = [' ', '\x7d'] := rfl
  rw [← toList_bindingsText, text]
  simp only [String.toList_append, hopen, hclose, List.append_assoc, List.cons_append, List.nil_append]

/-! ## Shorter parts -/

theorem length_le_flatMap {α : Type} (chars : α → List Char) {a : α} {as : List α} (h : a ∈ as) :
    (chars a).length ≤ (as.flatMap chars).length := by
  rw [List.flatMap_def]
  exact (List.sublist_flatten_of_mem (List.mem_map.mpr ⟨a, h, rfl⟩)).length_le

theorem length_text_lt {e x : Expr} (h : x ∈ e.parts) : x.text.toList.length < e.text.toList.length := by
  cases e with
  | record fs =>
    obtain ⟨f, hf, rfl⟩ := List.mem_map.mp h
    have hlen := Grammar.length_le_itemChars (fieldChars textChars) hf
    simp only [toList_record, fieldChars, textChars, List.length_append, List.length_cons] at hlen ⊢
    omega
  | lambda params result body =>
    rw [List.mem_singleton.mp h]
    simp only [toList_lambda, List.length_append, List.length_cons]
    omega
  | call n args site =>
    have hlen := Grammar.length_le_itemChars textChars (show x ∈ args from h)
    simp only [toList_call, textChars, List.length_append, List.length_cons] at hlen ⊢
    omega
  | member e n =>
    rw [List.mem_singleton.mp h]
    simp only [toList_member, List.length_append, List.length_cons]
    omega
  | block bs result =>
    simp only [toList_block, List.length_append, List.length_cons]
    rcases List.mem_append.mp h with h | h
    · obtain ⟨b, hb, rfl⟩ := List.mem_map.mp h
      have hlen := length_le_flatMap bindingChars hb
      simp only [bindingChars, List.length_append, List.length_cons] at hlen
      omega
    · rw [List.mem_singleton.mp h]
      omega
  | int _ | str _ | var _ | index _ | value _ => cases h

theorem length_le_bindingChars (bs : List (String × Expr)) : bs.length ≤ (bs.flatMap bindingChars).length := by
  induction bs with
  | nil => exact Nat.zero_le _
  | cons b bs ih =>
    rw [List.flatMap_cons, List.length_append, bindingChars, List.length_cons, List.length_cons]
    omega

/-! ## Members taken one after the other -/

/-- The expression of which the members are taken. -/
def base : Expr → Expr
  | .member e _ => e.base
  | e => e

/-- The members that are taken, the first one first. -/
def chain : Expr → List String
  | .member e n => e.chain ++ [n]
  | _ => []

/-- Not a member of anything. -/
def IsBase : Expr → Prop
  | .member .. => False
  | _ => True

theorem foldl_chain (e : Expr) : e.chain.foldl member e.base = e := by
  induction e using partsInduction with
  | h e ih =>
    cases e with
    | member e n => rw [chain, base, List.foldl_append, ih e (List.mem_singleton_self e)]; rfl
    | _ => rfl

theorem toList_chain (e : Expr) : e.text.toList = e.base.text.toList ++ chainChars e.chain := by
  induction e using partsInduction with
  | h e ih =>
    cases e with
    | member e n =>
      rw [toList_member, chain, base, ih e (List.mem_singleton_self e), chainChars, chainChars, List.flatMap_append,
        List.append_assoc]
      simp
    | _ => simp [chain, base, chainChars]

theorem length_le_chainChars (ns : List String) : ns.length ≤ (chainChars ns).length := by
  induction ns with
  | nil => exact Nat.zero_le _
  | cons n ns ih =>
    rw [chainChars, List.flatMap_cons, List.length_append, List.length_cons, List.length_cons]
    exact Nat.le_trans (Nat.succ_le_succ ih) (by rw [chainChars]; omega)

theorem isBase_base (e : Expr) : e.base.IsBase := by
  induction e using partsInduction with
  | h e ih =>
    cases e with
    | member e n => exact ih e (List.mem_singleton_self e)
    | _ => trivial

theorem Everywhere.base {p : Expr → Prop} {e : Expr} (h : e.Everywhere p) : e.base.Everywhere p := by
  induction h with
  | @mk e here inside ih =>
    cases e with
    | member e n => exact ih e (List.mem_singleton_self e)
    | _ => exact ⟨here, inside⟩

theorem names_chain {e : Expr} (h : e.Everywhere Plain) : ∀ n ∈ e.chain, Grammar.Name n := by
  induction h with
  | @mk e here inside ih =>
    cases e with
    | member e n =>
      exact List.forall_mem_append.mpr ⟨ih e (List.mem_singleton_self e), List.forall_mem_singleton.mpr here⟩
    | _ => exact fun n hn => absurd hn List.not_mem_nil

/-- No members are taken of a function. -/
theorem chain_of_grouped {e : Expr} (h : e.Everywhere Grouped) {params : List (String × Ty)} {result : Ty}
    {body : Expr} (hb : e.base = .lambda params result body) : e.chain = [] := by
  induction h with
  | @mk e here inside ih =>
    cases e with
    | member e n =>
      have hchain := ih e (List.mem_singleton_self e) hb
      have he : e = .lambda params result body := by rw [← foldl_chain e, hchain, ← hb]; rfl
      rw [he] at here
      cases here
    | _ => rfl

end Expr

namespace Grammar

/-! ## What may follow -/

/-- The next token does not start with the character. -/
def NotNext (c : Char) (rest : List Char) : Prop := (rest.dropWhile isBlank).head? ≠ some c

/-- No name, call or member goes on here. -/
structure Finishes (rest : List Char) : Prop where
  ends : Ends rest
  call : NotNext '(' rest
  member : NotNext '.' rest

theorem accept_of_notNext {c : Char} {rest : List Char} (h : NotNext c rest) (fault : Option ReadFault) :
    accept c ⟨rest, fault⟩ = some (false, ⟨rest.dropWhile isBlank, fault⟩) := by
  have hpeek : peek ⟨rest, fault⟩ = some ((rest.dropWhile isBlank).head?, ⟨rest.dropWhile isBlank, fault⟩) := rfl
  rw [accept, Reader.bind_eq hpeek, if_neg h]
  rfl

theorem notNext_symbol {s : List Char} {c d : Char} (hs : Blanks s) (hc : isBlank c = false) (hne : c ≠ d)
    (rest : List Char) : NotNext d (s ++ c :: rest) := by
  have hdrop : (s ++ c :: rest).dropWhile isBlank = c :: rest := dropWhile_blanks hs (by rintro e ⟨⟩; exact hc)
  rw [NotNext, hdrop]
  exact fun h => hne (Option.some.inj h)

theorem ends_blanks {s : List Char} {c : Char} (hs : Blanks s) (hc : isNameChar c = false) (rest : List Char) :
    Ends (s ++ c :: rest) := by
  cases s with
  | nil => exact ends_of hc rest
  | cons b s =>
    refine ends_of ?_ _
    rw [Bool.eq_false_iff]
    intro hname
    have hblank : isBlank b = true := hs b List.mem_cons_self
    rw [not_isBlank hname] at hblank
    cases hblank

/-- A mark that opens nothing and takes nothing finishes an expression. -/
theorem finishes_mark {s : List Char} {c : Char} (hs : Blanks s) (hc : isNameChar c = false ∧ isBlank c = false ∧
    c ≠ '(' ∧ c ≠ '.') (rest : List Char) : Finishes (s ++ c :: rest) :=
  ⟨ends_blanks hs hc.1 rest, notNext_symbol hs hc.2.1 hc.2.2.1 rest, notNext_symbol hs hc.2.1 hc.2.2.2 rest⟩

theorem finishes_nil : Finishes [] := ⟨fun _ h => (by cases h), by simp [NotNext], by simp [NotNext]⟩

/-- A mark is read behind an expression, which may have taken the blanks in front of it. -/
theorem symbol_after {s s' rest' tail : List Char} {c : Char} (hs : Blanks s) (hs' : Blanks s')
    (hc : isBlank c = false) (h : s ++ c :: tail = s' ++ rest') (fault : Option ReadFault) :
    symbol c ⟨rest', fault⟩ = some ((), ⟨tail, fault⟩) := by
  have hdrop : rest'.dropWhile isBlank = c :: tail := by
    rw [← List.dropWhile_append_of_pos hs', ← h]
    exact dropWhile_blanks hs (by rintro d ⟨⟩; exact hc)
  have hskip : skip ⟨rest', fault⟩ = some ((), ⟨c :: tail, fault⟩) := by
    show some ((), Input.mk (rest'.dropWhile isBlank) fault) = _
    rw [hdrop]
  rw [symbol, Reader.bind_eq hskip]
  exact char_eq c tail fault

/-! ## The start of an expression -/

theorem takeWhile_word {w rest : List Char} (hw : ∀ c ∈ w, isNameChar c = true) (hrest : Ends rest) :
    (w ++ rest).takeWhile isNameChar = w :=
  congrArg Prod.fst (Option.some.inj (takeWhile_eq hw hrest none))

theorem not_isDigit_of_isNameStart {c : Char} (h : isNameStart c = true) : c.isDigit = false := by
  rw [Bool.eq_false_iff]
  intro hdigit
  delta isNameStart Char.isAlpha Char.isUpper Char.isLower at h
  simp only [Bool.or_eq_true, Bool.and_eq_true, decide_eq_true_eq, beq_iff_eq, Char.isDigit, UInt32.le_iff_toNat_le,
    ge_iff_le] at h hdigit
  rcases h with (⟨hlow, -⟩ | ⟨hlow, -⟩) | rfl
  · exact absurd (Nat.le_trans hlow hdigit.2) (by decide)
  · exact absurd (Nat.le_trans hlow hdigit.2) (by decide)
  · exact absurd hdigit.2 (by decide)

theorem name_ne_reserved {n : String} (hn : Name n) {k : String} (hk : k ∈ reserved) : n.toList ≠ k.toList := by
  intro heq
  have hname := hn.2
  rw [isName, Bool.and_eq_true, Bool.not_eq_true', List.any_eq_false] at hname
  exact hname.2 k hk (by rw [heq]; exact beq_self_eq_true _)

end Grammar

namespace Expr

open Grammar

/-- An expression starts with a character that closes nothing. -/
theorem text_head {e : Expr} (h : e.Everywhere Plain) :
    ∃ c cs, e.text.toList = c :: cs ∧ isBlank c = false ∧ c ≠ ')' := by
  induction h with
  | @mk e here inside ih =>
    cases e with
    | int n =>
      obtain ⟨d, cs, hd, hdigit, hblank⟩ := toString_head n
      refine ⟨d, cs, hd, hblank, ?_⟩
      rintro rfl
      exact absurd hdigit (by decide)
    | str s => exact ⟨'"', _, toList_str s, by decide, by decide⟩
    | var n => simpa [text] using name_head here [] (c := ')') (by decide)
    | record fs => exact ⟨'\x7b', _, toList_record fs, by decide, by decide⟩
    | lambda params result body => exact ⟨'f', _, toList_lambda params result body, by decide, by decide⟩
    | call n args site => simpa only [toList_call] using name_head here.1 _ (by decide)
    | member e n =>
      obtain ⟨c, cs, hc, hblank, hne⟩ := ih e (List.mem_singleton_self e)
      exact ⟨c, cs ++ '.' :: n.toList, by rw [toList_member, hc, List.cons_append], hblank, hne⟩
    | block bs result => exact ⟨'d', _, toList_block bs result, by decide, by decide⟩
    | index i => exact here.elim
    | value v => exact here.elim

/-- An expression is not taken for a local binding. -/
theorem takeWhile_ne_let {e : Expr} (h : e.Everywhere Plain) {rest : List Char} (hrest : Grammar.Ends rest) :
    (e.text.toList ++ rest).takeWhile isNameChar ≠ "let".toList := by
  have hlet : "let" ∈ reserved := by decide
  have hmark : ∀ (c : Char) (cs : List Char), isNameChar c = false ∨ c ≠ 'l' →
      (c :: cs).takeWhile isNameChar ≠ "let".toList := by
    intro c cs hc heq
    rw [List.takeWhile_cons] at heq
    split at heq
    next hchar =>
      obtain ⟨rfl, -⟩ := List.cons.inj heq
      rcases hc with hc | hc
      · exact absurd hc (by decide)
      · exact hc rfl
    next => cases heq
  induction h generalizing rest with
  | @mk e here inside ih =>
    cases e with
    | int n =>
      obtain ⟨d, cs, hd, hdigit, -⟩ := toString_head n
      rw [text, hd, List.cons_append]
      refine hmark d _ (.inr ?_)
      rintro rfl
      exact absurd hdigit (by decide)
    | str s => rw [toList_str]; exact hmark '"' _ (.inl (by decide))
    | var n =>
      rw [text, takeWhile_word here.1.2 hrest]
      exact name_ne_reserved here hlet
    | record fs => rw [toList_record]; exact hmark '\x7b' _ (.inl (by decide))
    | lambda params result body => rw [toList_lambda]; exact hmark 'f' _ (.inr (by decide))
    | call n args site =>
      rw [toList_call, List.append_assoc, List.cons_append, takeWhile_word here.1.1.2 (ends_of (by decide) _)]
      exact name_ne_reserved here.1 hlet
    | member e n =>
      rw [toList_member, List.append_assoc]
      exact ih e (List.mem_singleton_self e) (ends_of (by decide) _)
    | block bs result => rw [toList_block]; exact hmark 'd' _ (.inr (by decide))
    | index i => exact here.elim
    | value v => exact here.elim

end Expr

namespace Grammar

open Text

/-! ## Reading a base -/

/-- The first character decides what is read. -/
theorem primary_eq (rt : Reader Ty) (re : Reader Expr) : primary rt re = peek >>= fun c =>
    if c = some '(' then symbol '(' >>= fun _ => re >>= fun e => symbol ')' >>= fun _ => pure e
    else if c = some '\x7b' then
      symbol '\x7b' >>= fun _ => itemsUntil '\x7d' (named re) >>= fun fields => pure (Expr.recordOf fields)
    else if c = some '"' then string >>= fun s => pure (.str s)
    else if c.any fun d => d.isDigit || d == '-' then integer >>= fun n => pure (.int n)
    else if c.isSome then word >>= exprOfWord rt re
    else failure := by
  rw [primary]
  congr 1
  funext c
  split
  next => rfl
  next => rfl
  next => rfl
  next c hparen hbrace hquote =>
    rw [if_neg (fun h => hparen (Option.some.inj h)), if_neg (fun h => hbrace (Option.some.inj h)),
      if_neg (fun h => hquote (Option.some.inj h))]
    rfl
  next => rfl

/-- The characters spell the expression for a reader, with blanks in front. -/
def Spells (r : Reader Expr) (cs : List Char) (e : Expr) : Prop :=
  ∀ s, Blanks s → r.Takes (s ++ cs) e none Finishes

/-- The text of an expression spells it. -/
def ExprReads (r : Reader Expr) (e : Expr) : Prop := Spells r e.textChars e

/-- The run of an expression that is read: blanks behind it may be passed too. -/
theorem Spells.run {r : Reader Expr} {cs : List Char} {e : Expr} (h : Spells r cs e) {s : List Char} (hs : Blanks s)
    {rest : List Char} (hrest : Finishes rest) (fault : Option ReadFault) :
    ∃ s' rest', Blanks s' ∧ rest = s' ++ rest' ∧ r ⟨s ++ (cs ++ rest), fault⟩ = some (e, ⟨rest', fault⟩) := by
  obtain ⟨s', rest', e', hs', heq, he, hr⟩ := h s hs rest fault hrest
  rw [he rfl, Option.or_none, List.append_assoc] at hr
  exact ⟨s', rest', hs', heq, hr⟩

section Base

variable {rt : Reader Ty} {re : Reader Expr} {s : List Char} (hs : Blanks s)
include hs

theorem primary_of_word {w : List Char} (hw : IsWord w) (hstart : w.head?.any isNameStart = true) {rest : List Char}
    (hrest : Ends rest) (fault : Option ReadFault) :
    primary rt re ⟨s ++ (w ++ rest), fault⟩ = exprOfWord rt re w ⟨rest, fault⟩ := by
  obtain ⟨c, w', rfl⟩ := List.exists_cons_of_ne_nil hw.1
  have hc : isNameChar c = true := hw.2 c List.mem_cons_self
  have hne : ∀ d, isNameChar d = false → ¬some c = some d := by
    rintro d hd ⟨⟩
    rw [hc] at hd
    cases hd
  have hdigit : ¬((some c).any fun d => d.isDigit || d == '-') = true := by
    have hminus : (c == '-') = false := beq_eq_false_iff_ne.mpr fun h => hne '-' (by decide) (congrArg some h)
    rw [Option.any_some, not_isDigit_of_isNameStart hstart, hminus]
    decide
  have hpeek : peek ⟨s ++ c :: (w' ++ rest), fault⟩ = some (some c, ⟨c :: (w' ++ rest), fault⟩) :=
    peek_eq hs (not_isBlank hc) _ fault
  have hword : word ⟨c :: (w' ++ rest), fault⟩ = some (c :: w', ⟨rest, fault⟩) :=
    word_reads (s := []) (by decide) hw rest fault hrest
  rw [List.cons_append, primary_eq, Reader.bind_eq hpeek, if_neg (hne '(' (by decide)), if_neg (hne '\x7b' (by decide)),
    if_neg (hne '"' (by decide)), if_neg hdigit, if_pos Option.isSome_some, Reader.bind_eq hword]

theorem primary_int (n : Int64) : (primary rt re).Reads (s ++ (Expr.text (.int n)).toList) (.int n) Ends := by
  intro rest fault hrest
  obtain ⟨d, cs, hd, hdigit, hblank⟩ := toString_head n
  have hne : ∀ c, (c.isDigit || c == '-') = false → ¬some d = some c := by
    rintro c hc ⟨⟩
    rw [hdigit] at hc
    cases hc
  have hread := integer_reads (s := []) (by decide) n rest fault hrest
  rw [List.nil_append, hd, List.cons_append] at hread
  have hany : ((some d).any fun d => d.isDigit || d == '-') = true := hdigit
  rw [Expr.text, hd, List.append_assoc, List.cons_append, primary_eq, Reader.bind_eq (peek_eq hs hblank _ fault),
    if_neg (hne '(' (by decide)), if_neg (hne '\x7b' (by decide)), if_neg (hne '"' (by decide)), if_pos hany,
    Reader.bind_eq hread]
  rfl

theorem primary_str {t : String} (ht : t.toList.all isLegible = true) (P : List Char → Prop) :
    (primary rt re).Reads (s ++ (Expr.text (.str t)).toList) (.str t) P := by
  intro rest fault _
  obtain ⟨t', ht', hread⟩ := string_notes (s := []) (by decide) t (fun _ => True) rest fault trivial
  have hfault : (Literal.str t).fault = none := if_pos ht
  have htext : (quoted t).toList = '"' :: (t.toList.flatMap escaped ++ ['"']) := Expr.toList_str t
  rw [ht' hfault, hfault, Option.or_none, List.nil_append, htext, List.cons_append] at hread
  rw [Expr.toList_str, List.append_assoc, List.cons_append, primary_eq, Reader.bind_eq (peek_eq hs (by decide) _ fault),
    if_neg (by decide), if_neg (by decide), if_pos rfl, Reader.bind_eq hread]
  rfl

omit hs in
theorem exprOfWord_name {w : List Char} (hw : isName w = true) : exprOfWord rt re w = accept '(' >>= fun b =>
    if b then itemsUntil ')' re >>= fun args => pure (Expr.callOf (String.ofList w) args)
    else pure (.var (String.ofList w)) := by
  have hne : ∀ k ∈ reserved, ¬w = k.toList := by
    rintro k hk rfl
    revert k
    decide
  rw [exprOfWord, if_neg (hne "fn" (by decide)), if_neg (hne "do" (by decide)), if_pos hw]

theorem primary_var {n : String} (hn : Name n) : (primary rt re).Takes (s ++ (Expr.text (.var n)).toList) (.var n) none
    fun rest => Ends rest ∧ NotNext '(' rest := by
  rintro rest fault ⟨hends, hcall⟩
  refine ⟨rest.takeWhile isBlank, rest.dropWhile isBlank, .var n, ?_, List.takeWhile_append_dropWhile.symm,
    fun _ => rfl, ?_⟩
  · exact List.all_eq_true.mp List.all_takeWhile
  · rw [Expr.text, List.append_assoc, primary_of_word hs hn.1 (Bool.and_eq_true_iff.mp hn.2).1 hends,
      exprOfWord_name hn.2, Reader.bind_eq (accept_of_notNext hcall fault), String.ofList_toList, Option.or_none]
    rfl

theorem primary_call {n : String} (hn : Name n) {args : List Expr} (hargs : ∀ e ∈ args, ExprReads re e)
    (hplain : ∀ e ∈ args, e.Everywhere Expr.Plain) (P : List Char → Prop) :
    (primary rt re).Reads (s ++ (Expr.text (.call n args .unlinked)).toList) (.call n args .unlinked) P := by
  intro rest fault _
  have hitems : itemsUntil ')' re ⟨itemChars Expr.textChars args ++ [')'] ++ rest, fault⟩ =
      some (args, ⟨rest, fault⟩) :=
    itemsUntil_reads (by decide) (by decide) (fun _ => finishes_mark (s := []) (by decide) (by decide) _)
      (fun _ => finishes_mark (s := []) (by decide) (by decide) _) hargs (fun e he => Expr.text_head (hplain e he))
      (fun _ => True) rest fault trivial
  have hopen : accept '(' ⟨'(' :: (itemChars Expr.textChars args ++ [')'] ++ rest), fault⟩ =
      some (true, ⟨itemChars Expr.textChars args ++ [')'] ++ rest, fault⟩) :=
    accept_of_eq (s := []) (by decide) (by decide) _ fault
  rw [Expr.toList_call, List.append_assoc, List.append_assoc, List.cons_append,
    primary_of_word hs hn.1 (Bool.and_eq_true_iff.mp hn.2).1 (ends_of (by decide) _), exprOfWord_name hn.2]
  rw [Reader.bind_eq hopen, if_pos rfl, Reader.bind_eq hitems, String.ofList_toList]
  rfl

/-- A name, a colon and an expression. -/
theorem named_takes {chars : Expr → List Char} {f : String × Expr} (hn : Name f.1) (h : Spells re (chars f.2) f.2) :
    (named re).Takes (s ++ Expr.fieldChars chars f) f none Finishes := by
  intro rest fault hrest
  obtain ⟨s', rest', hs', heq, hrun⟩ := h.run (s := [' ']) (by decide) hrest fault
  refine ⟨s', rest', f, hs', heq, fun _ => rfl, ?_⟩
  have hname : name ⟨(s ++ f.1.toList) ++ (':' :: ([' '] ++ (chars f.2 ++ rest))), fault⟩ =
      some (f.1, ⟨':' :: ([' '] ++ (chars f.2 ++ rest)), fault⟩) :=
    name_reads hs hn _ fault (ends_of (by decide) _)
  have hcolon : symbol ':' ⟨':' :: ([' '] ++ (chars f.2 ++ rest)), fault⟩ =
      some ((), ⟨[' '] ++ (chars f.2 ++ rest), fault⟩) := symbol_eq (by decide) _ fault
  have htext : s ++ Expr.fieldChars chars f ++ rest =
      (s ++ f.1.toList) ++ (':' :: ([' '] ++ (chars f.2 ++ rest))) := by
    simp [Expr.fieldChars]
  rw [htext, named, Reader.bind_eq hname, Reader.bind_eq hcolon, Reader.bind_eq hrun, Option.or_none]
  rfl

/-- A record is read whichever way the values of its fields are spelled. -/
theorem primary_record {chars : Expr → List Char} {fs : List (String × Expr)} (ho : Keyed.Ordered fs)
    (hn : ∀ f ∈ fs, Name f.1) (h : ∀ f ∈ fs, Spells re (chars f.2) f.2) (P : List Char → Prop) :
    (primary rt re).Reads (s ++ ('\x7b' :: (itemChars (Expr.fieldChars chars) fs ++ ['\x7d']))) (.record fs) P := by
  intro rest fault _
  have hhead : ∀ f ∈ fs, ∃ d cs, Expr.fieldChars chars f = d :: cs ∧ isBlank d = false ∧ d ≠ '\x7d' :=
    fun f hf => name_head (hn f hf) _ (by decide)
  have hfields : itemsUntil '\x7d' (named re) ⟨itemChars (Expr.fieldChars chars) fs ++ ['\x7d'] ++ rest, fault⟩ =
      some (fs, ⟨rest, fault⟩) :=
    itemsUntil_reads (by decide) (by decide) (fun _ => finishes_mark (s := []) (by decide) (by decide) _)
      (fun _ => finishes_mark (s := []) (by decide) (by decide) _) (fun f hf s hs => named_takes hs (hn f hf) (h f hf))
      hhead (fun _ => True) rest fault trivial
  have hopen : symbol '\x7b' ⟨'\x7b' :: (itemChars (Expr.fieldChars chars) fs ++ ['\x7d'] ++ rest), fault⟩ =
      some ((), ⟨itemChars (Expr.fieldChars chars) fs ++ ['\x7d'] ++ rest, fault⟩) := symbol_eq (by decide) _ fault
  rw [List.append_assoc, List.cons_append, primary_eq, Reader.bind_eq (peek_eq hs (by decide) _ fault),
    if_neg (by decide), if_pos rfl, Reader.bind_eq hopen, Reader.bind_eq hfields, Expr.recordOf,
    Keyed.ofList_of_ordered ho]
  rfl

theorem primary_lambda {params : List (String × Ty)} {result : Ty} {body : Expr}
    (hparams : ∀ p ∈ params, Name p.1 ∧ TyReads rt p.2) (hresult : TyReads rt result) (hbody : ExprReads re body) :
    (primary rt re).Takes (s ++ (Expr.text (.lambda params result body)).toList) (.lambda params result body) none
      Finishes := by
  intro rest fault hrest
  obtain ⟨s', rest', hs', heq, hrun⟩ := hbody.run (s := [' ']) (by decide) hrest fault
  refine ⟨s', rest', _, hs', heq, fun _ => rfl, ?_⟩
  have hhead : ∀ p ∈ params, ∃ d cs, Ty.fieldChars p = d :: cs ∧ isBlank d = false ∧ d ≠ ')' :=
    fun p hp => name_head (hparams p hp).1 _ (by decide)
  generalize hafter : ' ' :: '=' :: '>' :: ([' '] ++ (body.text.toList ++ rest)) = after
  have hps : itemsUntil ')' (named rt)
      ⟨itemChars Ty.fieldChars params ++ [')'] ++ (':' :: ([' '] ++ result.text.toList ++ after)), fault⟩ =
      some (params, ⟨':' :: ([' '] ++ result.text.toList ++ after), fault⟩) :=
    itemsUntil_reads (by decide) (by decide) (ends_of (by decide)) (ends_of (by decide))
      (fun p hp s hs => (field_reads (hparams p hp).1 (hparams p hp).2 hs).notes.takes) hhead (fun _ => True) _ fault
      trivial
  have hr : rt ⟨[' '] ++ result.text.toList ++ after, fault⟩ = some (result, ⟨after, fault⟩) :=
    hresult [' '] (by decide) after fault (hafter ▸ ends_blank _)
  have harrow : arrow ⟨after, fault⟩ = some ((), ⟨[' '] ++ (body.text.toList ++ rest), fault⟩) := by
    have hequals : symbol '=' ⟨[' '] ++ ['='] ++ '>' :: ([' '] ++ (body.text.toList ++ rest)), fault⟩ =
        some ((), ⟨'>' :: ([' '] ++ (body.text.toList ++ rest)), fault⟩) :=
      symbol_reads (by decide) (by decide) (fun _ => True) _ fault trivial
    rw [← hafter, arrow]
    exact (Reader.bind_eq hequals _).trans (char_eq '>' _ fault)
  have htext : s ++ (Expr.text (.lambda params result body)).toList ++ rest = s ++ ("fn".toList ++ ('(' ::
      (itemChars Ty.fieldChars params ++ [')'] ++ (':' :: ([' '] ++ result.text.toList ++ after))))) := by
    rw [Expr.toList_lambda, ← hafter]
    simp
  rw [htext, primary_of_word hs (by decide) (by decide) (ends_of (by decide) _), exprOfWord, if_pos rfl, lambdaTail,
    Reader.bind_eq (symbol_eq (by decide) _ fault), Reader.bind_eq hps, Reader.bind_eq (symbol_eq (by decide) _ fault),
    Reader.bind_eq hr, Reader.bind_eq harrow, Reader.bind_eq hrun, Option.or_none]
  rfl

omit hs in
/-- Local bindings are read up to an expression that does not look like one. -/
theorem bindings_read {bs : List (String × Expr)} (h : ∀ b ∈ bs, Name b.1 ∧ ExprReads re b.2) {rest : List Char}
    (hrest : (rest.dropWhile isBlank).takeWhile isNameChar ≠ "let".toList) {fuel : Nat} (hfuel : bs.length < fuel)
    (fault : Option ReadFault) :
    bindings re fuel ⟨bs.flatMap Expr.bindingChars ++ rest, fault⟩ = some (bs, ⟨rest.dropWhile isBlank, fault⟩) := by
  induction bs generalizing fuel with
  | nil =>
    obtain ⟨fuel, rfl⟩ : ∃ n, fuel = n + 1 := ⟨fuel - 1, by simp at hfuel; omega⟩
    have hpeek : peekWord ⟨[] ++ rest, fault⟩ =
        some ((rest.dropWhile isBlank).takeWhile isNameChar, ⟨rest.dropWhile isBlank, fault⟩) := rfl
    rw [List.flatMap_nil, bindings, Reader.bind_eq hpeek, if_neg hrest]
    rfl
  | cons b bs ih =>
    obtain ⟨⟨hn, he⟩, hbs⟩ := List.forall_mem_cons.mp h
    obtain ⟨fuel, rfl⟩ : ∃ n, fuel = n + 1 := ⟨fuel - 1, by simp at hfuel; omega⟩
    generalize hmore : bs.flatMap Expr.bindingChars ++ rest = more
    have hih := ih hbs (Nat.succ_lt_succ_iff.mp hfuel)
    rw [hmore] at hih
    have hfinish : Finishes ([] ++ ';' :: more) := finishes_mark (by decide) (by decide) _
    obtain ⟨s', rest', hs', heq, hrun⟩ := he.run (s := [' ']) (by decide) hfinish fault
    have hsemi : symbol ';' ⟨rest', fault⟩ = some ((), ⟨more, fault⟩) :=
      symbol_after (s := []) (by decide) hs' (by decide) heq fault
    generalize hvalue : [' '] ++ (b.2.text.toList ++ ([] ++ ';' :: more)) = value at hrun
    have hequals : symbol '=' ⟨[' '] ++ ['='] ++ value, fault⟩ = some ((), ⟨value, fault⟩) :=
      symbol_reads (by decide) (by decide) (fun _ => True) _ fault trivial
    have hname : name ⟨[' '] ++ b.1.toList ++ ([' '] ++ ['='] ++ value), fault⟩ =
        some (b.1, ⟨[' '] ++ ['='] ++ value, fault⟩) :=
      name_reads (by decide) hn _ fault (ends_blank _)
    generalize hafter : [' '] ++ b.1.toList ++ ([' '] ++ ['='] ++ value) = after at hname
    have hends : Ends after := hafter ▸ ends_blank _
    have hpeek : peekWord ⟨[' '] ++ ("let".toList ++ after), fault⟩ =
        some ("let".toList, ⟨"let".toList ++ after, fault⟩) := peekWord_eq (by decide) (by decide) hends fault
    have hlet : word ⟨"let".toList ++ after, fault⟩ = some ("let".toList, ⟨after, fault⟩) :=
      word_reads (s := []) (by decide) (by decide) _ fault hends
    have htext : (b :: bs).flatMap Expr.bindingChars ++ rest = [' '] ++ ("let".toList ++ after) := by
      rw [← hafter, ← hvalue, ← hmore, List.flatMap_cons, Expr.bindingChars]
      simp
    rw [htext, bindings, Reader.bind_eq hpeek, if_pos rfl, Reader.bind_eq hlet, Reader.bind_eq hname,
      Reader.bind_eq hequals, Reader.bind_eq hrun, Reader.bind_eq hsemi, Reader.bind_eq hih]
    rfl

theorem primary_block {bs : List (String × Expr)} {result : Expr} (hbs : ∀ b ∈ bs, Name b.1 ∧ ExprReads re b.2)
    (hresult : ExprReads re result) (hplain : result.Everywhere Expr.Plain) (P : List Char → Prop) :
    (primary rt re).Reads (s ++ (Expr.text (.block bs result)).toList) (.block bs result) P := by
  intro rest fault _
  generalize hend : [' '] ++ '\x7d' :: rest = tail
  have htail : Finishes tail := hend ▸ finishes_mark (by decide) (by decide) rest
  obtain ⟨s', rest', hs', heq, hrun⟩ := hresult.run (s := []) (by decide) htail fault
  rw [List.nil_append] at hrun
  have hclose : symbol '\x7d' ⟨rest', fault⟩ = some ((), ⟨rest, fault⟩) :=
    symbol_after (s := [' ']) (by decide) hs' (by decide) (hend.trans heq) fault
  have hdrop : (' ' :: (result.text.toList ++ tail)).dropWhile isBlank = result.text.toList ++ tail := by
    obtain ⟨c, cs, hc, hblank, -⟩ := Expr.text_head hplain
    refine dropWhile_blanks (s := [' ']) (by decide) ?_
    rw [hc]
    rintro d ⟨⟩
    exact hblank
  generalize hinner : bs.flatMap Expr.bindingChars ++ ' ' :: (result.text.toList ++ tail) = inner
  have hfuel : bs.length < inner.length + 1 := by
    rw [← hinner, List.length_append]
    exact Nat.lt_succ_of_le (Nat.le_trans (Expr.length_le_bindingChars bs) (Nat.le_add_right _ _))
  have hbindings : bindings re (inner.length + 1) ⟨inner, fault⟩ = some (bs, ⟨result.text.toList ++ tail, fault⟩) := by
    rw [← hdrop, ← hinner]
    exact bindings_read hbs (by rw [hdrop]; exact Expr.takeWhile_ne_let hplain htail.ends) (hinner ▸ hfuel) fault
  have hopen : symbol '\x7b' ⟨[' '] ++ ['\x7b'] ++ inner, fault⟩ = some ((), ⟨inner, fault⟩) :=
    symbol_reads (by decide) (by decide) (fun _ => True) _ fault trivial
  have htext : s ++ (Expr.text (.block bs result)).toList ++ rest = s ++ ("do".toList ++
      ([' '] ++ ['\x7b'] ++ inner)) := by
    rw [Expr.toList_block, ← hinner, ← hend]
    simp only [List.append_assoc, List.cons_append, List.nil_append]
  have hget : (get : Reader Input) ⟨inner, fault⟩ = some (⟨inner, fault⟩, ⟨inner, fault⟩) := rfl
  have hends : Ends ([' '] ++ ['\x7b'] ++ inner) := ends_blank _
  rw [htext, primary_of_word hs (by decide) (by decide) hends, exprOfWord, if_neg (by decide), if_pos rfl,
    blockTail, Reader.bind_eq hopen, Reader.bind_eq hget, Reader.bind_eq hbindings, Reader.bind_eq hrun,
    Reader.bind_eq hclose]
  rfl

end Base

/-- What may stand behind a base: the body of a function would take a member. -/
def Follows (b : Expr) (rest : List Char) : Prop :=
  Ends rest ∧ NotNext '(' rest ∧ ((∃ params result body, b = .lambda params result body) → NotNext '.' rest)

theorem primary_takes {rt : Reader Ty} {re : Reader Expr} {b : Expr} (hbase : b.IsBase)
    (hplain : b.Everywhere Expr.Plain) (hlegible : b.Legible) (hre : ∀ x ∈ b.parts, ExprReads re x)
    (hrt : ∀ t : Ty, t.text.toList.length ≤ b.text.toList.length → t.Sorted → t.Readable → TyReads rt t)
    {s : List Char} (hs : Blanks s) : (primary rt re).Takes (s ++ b.text.toList) b none (Follows b) := by
  have hhere := hplain.here
  have hinside := hplain.inside
  cases b with
  | int n => exact (primary_int hs n).notes.takes.mono fun rest h => h.1
  | str t => exact (primary_str hs hlegible _).notes.takes
  | var n => exact (primary_var hs hhere).mono fun rest h => ⟨h.1, h.2.1⟩
  | record fs =>
    rw [Expr.toList_record]
    exact (primary_record hs hhere.1 hhere.2 (fun f hf => hre f.2 (List.mem_map_of_mem hf)) _).notes.takes
  | lambda params result body =>
    rw [Expr.toList_lambda] at hrt
    simp only [List.length_append, List.length_cons] at hrt
    refine (primary_lambda hs (fun p hp => ⟨(hhere.1 p hp).1, hrt p.2 ?_ (hhere.1 p hp).2.1 (hhere.1 p hp).2.2⟩)
      (hrt result (by omega) hhere.2.1 hhere.2.2) (hre body (List.mem_singleton_self body))).mono
      fun rest h => ⟨h.1, h.2.1, h.2.2 ⟨params, result, body, rfl⟩⟩
    have hlen := length_le_itemChars Ty.fieldChars hp
    simp only [Ty.fieldChars, List.length_append] at hlen
    omega
  | call n args site =>
    obtain ⟨hn, rfl⟩ := hhere
    exact (primary_call hs hn hre hinside _).notes.takes
  | member e n => exact hbase.elim
  | block bs result =>
    obtain ⟨hbs, hresult⟩ := List.forall_mem_append.mp hre
    exact (primary_block hs (fun b hb => ⟨hhere b hb, hbs b.2 (List.mem_map_of_mem hb)⟩)
      (hresult result (List.mem_singleton_self result))
      (hinside result (List.mem_append_right _ (List.mem_singleton_self result))) _).notes.takes
  | index i => exact hhere.elim
  | value v => exact hhere.elim

/-! ## Reading an expression -/

/-- Members are looked for behind blanks. -/
theorem members_blanks (e : Expr) (fuel : Nat) {s : List Char} (hs : Blanks s) (rest : List Char)
    (fault : Option ReadFault) :
    members e (fuel + 1) ⟨s ++ rest, fault⟩ = members e (fuel + 1) ⟨rest, fault⟩ := by
  have hskip : skip ⟨s ++ rest, fault⟩ = skip ⟨rest, fault⟩ := by
    show some ((), Input.mk ((s ++ rest).dropWhile isBlank) fault) = _
    rw [List.dropWhile_append_of_pos hs]
    rfl
  have hpeek : peek ⟨s ++ rest, fault⟩ = peek ⟨rest, fault⟩ := Reader.bind_congr hskip _
  have haccept : accept '.' ⟨s ++ rest, fault⟩ = accept '.' ⟨rest, fault⟩ := Reader.bind_congr hpeek _
  rw [members]
  exact Reader.bind_congr haccept _

theorem members_read {ns : List String} (hns : ∀ n ∈ ns, Name n) (e : Expr) {rest : List Char} (hrest : Finishes rest)
    {fuel : Nat} (hfuel : ns.length < fuel) (fault : Option ReadFault) :
    members e fuel ⟨Expr.chainChars ns ++ rest, fault⟩ =
      some (ns.foldl .member e, ⟨rest.dropWhile isBlank, fault⟩) := by
  induction ns generalizing e fuel with
  | nil =>
    obtain ⟨fuel, rfl⟩ : ∃ n, fuel = n + 1 := ⟨fuel - 1, by simp at hfuel; omega⟩
    rw [show Expr.chainChars [] ++ rest = rest from rfl, members,
      Reader.bind_eq (accept_of_notNext hrest.member fault)]
    rfl
  | cons n ns ih =>
    obtain ⟨hn, hns⟩ := List.forall_mem_cons.mp hns
    obtain ⟨fuel, rfl⟩ : ∃ n, fuel = n + 1 := ⟨fuel - 1, by simp at hfuel; omega⟩
    generalize hmore : Expr.chainChars ns ++ rest = more
    have hends : Ends more := by
      rw [← hmore]
      cases ns with
      | nil => exact hrest.ends
      | cons m ns => exact ends_of (by decide) _
    have hdot : accept '.' ⟨'.' :: (n.toList ++ more), fault⟩ = some (true, ⟨n.toList ++ more, fault⟩) :=
      accept_of_eq (s := []) (by decide) (by decide) _ fault
    have hname : name ⟨n.toList ++ more, fault⟩ = some (n, ⟨more, fault⟩) :=
      name_reads (s := []) (by decide) hn _ fault hends
    have htext : Expr.chainChars (n :: ns) ++ rest = '.' :: (n.toList ++ more) := by
      rw [← hmore]
      simp [Expr.chainChars]
    rw [htext, members, Reader.bind_eq hdot, if_pos rfl, Reader.bind_eq hname, ← hmore]
    exact ih hns _ (Nat.succ_lt_succ_iff.mp hfuel)

/-- An expression is read with the members that are taken of it. -/
theorem spells_members {fuel : Nat} {cs : List Char} {b : Expr} {ns : List String} (hns : ∀ n ∈ ns, Name n)
    (h : ∀ s, Blanks s → (primary (ty (fuel + 1)) (expr fuel)).Takes (s ++ cs) b none
      fun rest => ∃ tail, rest = Expr.chainChars ns ++ tail ∧ Finishes tail) :
    Spells (expr (fuel + 1)) (cs ++ Expr.chainChars ns) (ns.foldl .member b) := by
  intro s hs rest fault hrest
  obtain ⟨s', rest', b', hs', heq, hb, hprimary⟩ := h s hs _ fault ⟨rest, rfl, hrest⟩
  rw [hb rfl, Option.or_none, List.append_assoc] at hprimary
  have hcount : ns.length < rest'.length + 1 := by
    cases ns with
    | nil => exact Nat.succ_pos _
    | cons n ns =>
      -- no blanks are passed in front of a member
      have hnil : s' = [] := by
        cases s' with
        | nil => rfl
        | cons c s' =>
          obtain ⟨rfl, -⟩ := List.cons.inj heq
          exact absurd (hs' _ List.mem_cons_self) (by decide)
      rw [hnil, List.nil_append] at heq
      rw [← heq, List.length_append]
      exact Nat.lt_succ_of_le (Nat.le_trans (Expr.length_le_chainChars _) (Nat.le_add_right _ _))
  have hmembers : members b (rest'.length + 1) ⟨rest', fault⟩ =
      some (ns.foldl .member b, ⟨rest.dropWhile isBlank, fault⟩) := by
    rw [← members_blanks b _ hs', ← heq, members_read hns _ hrest hcount]
  refine ⟨rest.takeWhile isBlank, rest.dropWhile isBlank, _, List.all_eq_true.mp List.all_takeWhile,
    List.takeWhile_append_dropWhile.symm, fun _ => rfl, ?_⟩
  have hget : (get : Reader Input) ⟨rest', fault⟩ = some (⟨rest', fault⟩, ⟨rest', fault⟩) := rfl
  rw [List.append_assoc, List.append_assoc, expr, Reader.bind_eq hprimary, Reader.bind_eq hget, hmembers,
    Option.or_none]

/-- An expression of which no member is taken. -/
theorem spells_base {fuel : Nat} {cs : List Char} {b : Expr}
    (h : ∀ s, Blanks s → (primary (ty (fuel + 1)) (expr fuel)).Takes (s ++ cs) b none Finishes) :
    Spells (expr (fuel + 1)) cs b := by
  have hnone : ∀ n ∈ ([] : List String), Name n := by simp
  have hspells := spells_members hnone fun s hs => (h s hs).mono fun rest => by
    rintro ⟨tail, rfl, htail⟩
    exact htail
  rwa [show Expr.chainChars [] = [] from rfl, List.append_nil] at hspells

/-- An expression where no member is taken of a function is read as it is. -/
theorem expr_reads {fuel : Nat} {e : Expr} (hfuel : e.text.toList.length < fuel) (hplain : e.Everywhere Expr.Plain)
    (hlegible : e.Everywhere Expr.Legible) (hgrouped : e.Everywhere Expr.Grouped) : ExprReads (expr fuel) e := by
  -- the parts of the base have shorter texts, so the fuel suffices for them too
  induction fuel generalizing e with
  | zero => exact absurd hfuel (Nat.not_lt_zero _)
  | succ fuel ih =>
    have hlen : e.base.text.toList.length ≤ e.text.toList.length := by
      rw [e.toList_chain, List.length_append]
      exact Nat.le_add_right _ _
    have hre : ∀ x ∈ e.base.parts, ExprReads (expr fuel) x := fun x hx =>
      ih (by have := Expr.length_text_lt hx; omega) (hplain.base.inside x hx) (hlegible.base.inside x hx)
        (hgrouped.base.inside x hx)
    have hrt : ∀ t : Ty, t.text.toList.length ≤ e.base.text.toList.length → t.Sorted → t.Readable →
        TyReads (ty (fuel + 1)) t := fun t ht hsorted hread => ty_reads (by omega) hsorted hread
    have hfollows : ∀ tail, Finishes tail → Follows e.base (Expr.chainChars e.chain ++ tail) := by
      intro tail htail
      rcases hchain : e.chain with _ | ⟨n, ns⟩
      · exact ⟨htail.ends, htail.call, fun _ => htail.member⟩
      · refine ⟨ends_of (by decide) _, notNext_symbol (s := []) (by decide) (by decide) (by decide) _, ?_⟩
        rintro ⟨params, result, body, hb⟩
        rw [Expr.chain_of_grouped hgrouped hb] at hchain
        cases hchain
    have hspells := spells_members (Expr.names_chain hplain) fun s hs =>
      (primary_takes e.isBase_base hplain.base hlegible.base.here hre hrt hs).mono fun rest => by
        rintro ⟨tail, rfl, htail⟩
        exact hfollows tail htail
    rwa [e.foldl_chain, ← e.toList_chain] at hspells

/-! ## What is read is plain -/

open Reader.Gives LiveQuery.Expr

theorem lambdaTail_plain {rt : Reader Ty} {re : Reader Expr} (hsorted : rt.Gives Ty.Sorted)
    (hread : rt.Gives Ty.Readable) (he : re.Gives (Everywhere Plain)) :
    (lambdaTail rt re).Gives (Everywhere Plain) := by
  have hty : rt.Gives fun t => t.Sorted ∧ t.Readable := fun i t j h => ⟨hsorted i t j h, hread i t j h⟩
  exact after fun _ => (itemsUntil_gives (named_readable hty) ')').bind fun _ hp => after fun _ =>
    hty.bind fun _ hr => after fun _ => he.bind fun _ hb => pure (.lambda ⟨hp, hr⟩ hb)

theorem bindings_plain {re : Reader Expr} (he : re.Gives (Everywhere Plain)) (fuel : Nat) :
    (bindings re fuel).Gives fun bs => ∀ b ∈ bs, Name b.1 ∧ b.2.Everywhere Plain := by
  induction fuel with
  | zero => exact failure
  | succ fuel ih =>
    refine after fun _ => ite (fun _ => ?_) fun _ => pure (by simp)
    refine after fun _ => name_gives.bind fun n hn => after fun _ => he.bind fun e hplain => after fun _ => ?_
    exact ih.bind fun bs hbs => pure (List.forall_mem_cons.mpr ⟨⟨hn, hplain⟩, hbs⟩)

theorem blockTail_plain {re : Reader Expr} (he : re.Gives (Everywhere Plain)) :
    (blockTail re).Gives (Everywhere Plain) :=
  after fun _ => after fun _ => (bindings_plain he _).bind fun _ hbs => he.bind fun _ hr => after fun _ =>
    pure (.block (fun b hb => (hbs b hb).1) (List.forall_mem_map.mpr fun b hb => (hbs b hb).2) hr)

theorem exprOfWord_plain {rt : Reader Ty} {re : Reader Expr} (hsorted : rt.Gives Ty.Sorted)
    (hread : rt.Gives Ty.Readable) (he : re.Gives (Everywhere Plain)) {w : List Char} (hw : IsWord w) :
    (exprOfWord rt re w).Gives (Everywhere Plain) := by
  refine ite (fun _ => lambdaTail_plain hsorted hread he) fun _ => ite (fun _ => blockTail_plain he) fun _ =>
    ite (fun hname => ?_) fun _ => failure
  have hn : Name (String.ofList w) := by
    rw [Name, String.toList_ofList]
    exact ⟨hw, hname⟩
  exact after fun _ => ite (fun _ => (itemsUntil_gives he ')').bind fun _ ha => pure (.call ⟨hn, rfl⟩ ha)) fun _ =>
    pure ⟨hn, fun x hx => absurd hx List.not_mem_nil⟩

theorem primary_plain {rt : Reader Ty} {re : Reader Expr} (hsorted : rt.Gives Ty.Sorted) (hread : rt.Gives Ty.Readable)
    (he : re.Gives (Everywhere Plain)) : (primary rt re).Gives (Everywhere Plain) := by
  have hleaf : ∀ {e : Expr}, e.Plain → e.parts = [] → e.Everywhere Plain := fun h hparts =>
    ⟨h, fun x hx => absurd (hparts ▸ hx) List.not_mem_nil⟩
  rw [primary_eq]
  refine after fun c => ite (fun _ => ?paren) fun _ => ite (fun _ => ?record) fun _ =>
    ite (fun _ => after fun _ => pure (hleaf trivial rfl)) fun _ =>
    ite (fun _ => after fun _ => pure (hleaf trivial rfl)) fun _ =>
    ite (fun _ => word_gives.bind fun w hw => exprOfWord_plain hsorted hread he hw) fun _ => failure
  case paren => exact after fun _ => he.bind fun _ h => after fun _ => pure h
  case record =>
    refine after fun _ => (itemsUntil_gives (named_readable he) '\x7d').bind fun fs hf => pure (.record ?_ ?_)
    · exact ⟨Keyed.ordered_ofList _, fun f hmem => (hf f (Keyed.mem_of_mem_ofList hmem)).1⟩
    · exact List.forall_mem_map.mpr fun f hmem => (hf f (Keyed.mem_of_mem_ofList hmem)).2

theorem members_plain {e : Expr} (he : e.Everywhere Plain) (fuel : Nat) :
    (members e fuel).Gives (Everywhere Plain) := by
  induction fuel generalizing e with
  | zero => exact failure
  | succ fuel ih =>
    exact after fun _ => ite (fun _ => name_gives.bind fun n hn => ih (.member hn he)) fun _ => pure he

theorem expr_plain (fuel : Nat) : (expr fuel).Gives (Everywhere Plain) := by
  induction fuel with
  | zero => exact failure
  | succ fuel ih =>
    exact (primary_plain (ty_gives _) (ty_readable _) ih).bind fun _ he => after fun _ => members_plain he _

end Grammar

namespace Expr

theorem read_ok_of_toOption {text : String} {e : Expr} (h : (Expr.read text).toOption = some e) :
    Expr.read text = .ok e := by
  cases hread : Expr.read text with
  | ok e' =>
    rw [hread] at h
    exact congrArg Except.ok (Option.some.inj h)
  | error f =>
    rw [hread] at h
    cases h

theorem read_text_of_grouped {e : Expr} (hplain : e.Everywhere Plain) (hlegible : e.Everywhere Legible)
    (hgrouped : e.Everywhere Grouped) : Expr.read e.text = .ok e := by
  have hfuel : e.text.toList.length < e.text.length + 1 := by
    rw [String.length_toList]
    omega
  obtain ⟨s, rest, hs, heq, hrun⟩ :=
    (Grammar.expr_reads hfuel hplain hlegible hgrouped).run (s := []) (by decide) Grammar.finishes_nil none
  obtain ⟨-, rfl⟩ := List.append_eq_nil_iff.mp heq.symm
  rw [List.nil_append, List.append_nil] at hrun
  rw [Expr.read, Grammar.readAll, Reader.bind_eq hrun]
  rfl

/-- An expression that was read, in whose texts every character is written as itself or with an escape that is read,
is read from its text as the text groups it. That is the expression itself unless a member is taken of a function. -/
theorem read_text_regrouped {text : String} {e : Expr} (h : Expr.read text = .ok e) (hlegible : e.Everywhere Legible) :
    Expr.read e.text = .ok e.regrouped ∧ (e.regrouped = e ↔ e.Everywhere Grouped) := by
  have hplain : e.Everywhere Plain := Grammar.readAll_gives (Grammar.expr_plain _) h
  refine ⟨?_, e.regrouped_eq_iff⟩
  rw [← e.text_regrouped]
  exact read_text_of_grouped (hplain.regrouped outer_plain) (hlegible.regrouped outer_legible) e.grouped_regrouped

namespace Sample

/-- A block with a function, a call and a member of a block in it, and parentheses that are not needed. -/
def nested : String := "do \x7b let f = fn(x: \x7ba: int\x7d, k: fn(\x27a): bool): string => (x.a).b; " ++
  "let r = f(\x7ba: -1\x7d, fn(y: string): bool => do \x7b let let_ = \"\\\"\\n\"; let_ \x7d.c); " ++
  "(do \x7b f \x7d).n \x7d"

/-- A member of a function. -/
def member : String := "(fn(x: int): int => x).a"

end Sample

theorem read_text_regrouped_nested : ∃ e, Expr.read Sample.nested = .ok e ∧ e.Everywhere Legible ∧
    Expr.read e.text = .ok e := by
  have hread : (Expr.read Sample.nested).toOption.any (fun e => within isLegible 9 e && within isGrouped 9 e) =
      true := by
    decide +kernel
  obtain ⟨e, he, htest⟩ := (Option.any_eq_true _ _).mp hread
  obtain ⟨hlegible, hgrouped⟩ := Bool.and_eq_true_iff.mp htest
  obtain ⟨hagain, hsame⟩ := read_text_regrouped (read_ok_of_toOption he) (.of_within hlegible)
  rw [hsame.mpr (.of_within hgrouped)] at hagain
  exact ⟨e, read_ok_of_toOption he, .of_within hlegible, hagain⟩

/-- A member of a function is read as a function with the member in its body. -/
theorem exists_misgrouped : ∃ e e', Expr.read Sample.member = .ok e ∧ e.Everywhere Legible ∧
    Expr.read e.text = .ok e' ∧ e' ≠ e := by
  have hread : (Expr.read Sample.member).toOption.any (fun e => within isLegible 9 e && !e.isGrouped &&
      (Expr.read e.text).toOption.any isGrouped) = true := by
    decide +kernel
  obtain ⟨e, he, htest⟩ := (Option.any_eq_true _ _).mp hread
  simp only [Bool.and_eq_true, Bool.not_eq_true'] at htest
  obtain ⟨⟨hlegible, hmember⟩, hagain⟩ := htest
  obtain ⟨e', he', hgrouped⟩ := (Option.any_eq_true _ _).mp hagain
  refine ⟨e, e', read_ok_of_toOption he, .of_within hlegible, read_ok_of_toOption he', ?_⟩
  rintro rfl
  rw [hmember] at hgrouped
  cases hgrouped

end Expr

end LiveQuery
