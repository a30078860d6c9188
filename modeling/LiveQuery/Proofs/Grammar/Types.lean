import LiveQuery.Proofs.Grammar.Tokens

/-! # Types are read as they were written

A type whose names can be read (`Ty.Readable`) is read from its text as it is, at any depth of nesting and with
empty records and parameter lists; and every type that was read is like that (`Ty.read_text_iff`). The fields of a
record are a map, which is held in key order (`Ty.Sorted`).

Every type ends where no name goes on, so whatever follows it has to satisfy `Grammar.Ends`. The fuel of the
reader is a bound for the length of the text, which is longer for a type than for its parts.
-/
namespace LiveQuery

namespace Grammar

/-! ## Names -/

/-- A name that can be read as one in an expression or a record. -/
def Name (n : String) : Prop := IsWord n.toList ∧ isName n.toList = true

/-- A name that can be read behind the mark of a type variable. -/
def VarName (n : String) : Prop := IsWord n.toList ∧ n.toList.head?.any isNameStart = true

instance (n : String) : Decidable (Name n) := inferInstanceAs (Decidable (_ ∧ _))

instance (n : String) : Decidable (VarName n) := inferInstanceAs (Decidable (_ ∧ _))

theorem name_reads {s : List Char} {n : String} (hb : Blanks s) (hn : Name n) : name.Reads (s ++ n.toList) n Ends := by
  have h : name.Reads ((s ++ n.toList) ++ []) n Ends := by
    refine (word_reads hb hn.1).bind ?_ fun _ h => h
    rw [if_pos hn.2, String.ofList_toList]
    exact .pure n _
  rwa [List.append_nil] at h

theorem name_gives : name.Gives Name :=
  word_gives.bind fun w hw => .ite (fun hname => .pure (by
    rw [Name, String.toList_ofList]
    exact ⟨hw, hname⟩)) fun _ => .failure

/-- A name starts with a character that is no mark. -/
theorem name_head {n : String} (hn : Name n) (cs : List Char) {c : Char} (hc : isNameChar c = false) :
    ∃ d cs', n.toList ++ cs = d :: cs' ∧ isBlank d = false ∧ d ≠ c := by
  obtain ⟨d, w, hd⟩ := List.exists_cons_of_ne_nil hn.1.1
  have hchar : isNameChar d = true := hn.1.2 d (hd ▸ List.mem_cons_self)
  refine ⟨d, w ++ cs, by rw [hd, List.cons_append], not_isBlank hchar, ?_⟩
  rintro rfl
  rw [hc] at hchar
  cases hchar

theorem typeVar_reads {s : List Char} {n : String} (hb : Blanks s) (hn : VarName n) :
    typeVar.Reads (s ++ '\x27' :: n.toList) (.var n) Ends := by
  intro rest fault hrest
  have hmark : symbol '\x27' ⟨(s ++ ['\x27']) ++ (n.toList ++ rest), fault⟩ = some ((), ⟨n.toList ++ rest, fault⟩) :=
    symbol_reads hb (by decide) (fun _ => True) _ fault trivial
  have htext : s ++ '\x27' :: n.toList ++ rest = (s ++ ['\x27']) ++ (n.toList ++ rest) := by simp
  rw [htext, typeVar, Reader.bind_eq hmark,
    Reader.bind_eq (takeWhile_eq hn.1.2 hrest fault), if_pos hn.2, String.ofList_toList]
  rfl

theorem typeVar_gives {P : Ty → Prop} (h : ∀ n, VarName n → P (.var n)) : typeVar.Gives P := by
  refine .after fun _ => (takeWhile_gives isNameChar).bind fun w hw =>
    .ite (fun hstart => .pure (h _ ?_)) fun _ => .failure
  have hne : w ≠ [] := by
    rintro rfl
    cases hstart
  rw [VarName, String.toList_ofList]
  exact ⟨⟨hne, hw⟩, hstart⟩

theorem named_readable {α : Type} {item : Reader α} {P : α → Prop} (h : item.Gives P) :
    (named item).Gives fun e => Name e.1 ∧ P e.2 :=
  name_gives.bind fun _ hn => .after fun _ => h.bind fun _ ha => .pure ⟨hn, ha⟩

end Grammar

/-! ## Types that can be read -/

namespace Ty

mutual

/-- The names of fields and of variables in the type can be read. -/
def Readable : Ty → Prop
  | .int | .bool | .string => True
  | .record fields => ReadableFields fields
  | .iterator t => t.Readable
  | .function params result => ReadableList params ∧ result.Readable
  | .index key row => key.Readable ∧ row.Readable
  | .var n => Grammar.VarName n

def ReadableFields : List (String × Ty) → Prop
  | [] => True
  | (n, t) :: rest => Grammar.Name n ∧ t.Readable ∧ ReadableFields rest

def ReadableList : List Ty → Prop
  | [] => True
  | t :: rest => t.Readable ∧ ReadableList rest

end

theorem readableFields_iff {fs : List (String × Ty)} :
    ReadableFields fs ↔ ∀ f ∈ fs, Grammar.Name f.1 ∧ f.2.Readable := by
  induction fs with
  | nil => simp [ReadableFields]
  | cons f fs ih => simp [ReadableFields, ih, and_assoc]

theorem readableList_iff {ts : List Ty} : ReadableList ts ↔ ∀ t ∈ ts, t.Readable := by
  induction ts with
  | nil => simp [ReadableList]
  | cons t ts ih => simp [ReadableList, ih]

/-! ## The characters of a type -/

/-- The characters of a field. -/
def fieldChars (f : String × Ty) : List Char := f.1.toList ++ ([':'] ++ ([' '] ++ f.2.text.toList))

theorem toList_fieldTexts (fs : List (String × Ty)) : (fieldTexts fs).map String.toList = fs.map fieldChars := by
  have hcolon : ": ".toList = [':', ' '] := rfl
  induction fs with
  | nil => rfl
  | cons f fs ih =>
    simp only [fieldTexts, List.map_cons, String.toList_append, hcolon, List.append_assoc] at ih ⊢
    rw [ih]
    rfl

theorem toList_paramTexts (ts : List Ty) : (paramTexts ts).map String.toList = ts.map fun t => t.text.toList := by
  induction ts with
  | nil => rfl
  | cons t ts ih =>
    rw [paramTexts, List.map_cons, ih]
    rfl

theorem toList_record (fs : List (String × Ty)) :
    (text (.record fs)).toList = ['\x7b'] ++ (Grammar.itemChars fieldChars fs ++ ['\x7d']) := by
  have hopen : "\x7b".toList = ['\x7b'] := rfl
  have hclose : "\x7d".toList = ['\x7d'] := rfl
  have hcomma : ", ".toList = [',', ' '] := rfl
  rw [text, String.toList_append, String.toList_append, String.toList_intercalate, toList_fieldTexts, hcomma, hopen,
    hclose, intercalate_comma, List.append_assoc]

theorem toList_iterator (t : Ty) :
    (text (.iterator t)).toList = "iterator".toList ++ (['<'] ++ (t.text.toList ++ ['>'])) := by
  have hopen : "iterator<".toList = "iterator".toList ++ ['<'] := rfl
  have hclose : ">".toList = ['>'] := rfl
  rw [text, String.toList_append, String.toList_append, hopen, hclose]
  simp only [List.append_assoc]

theorem toList_function (params : List Ty) (result : Ty) :
    (text (.function params result)).toList = "fn".toList ++ (['('] ++
      ((Grammar.itemChars (fun t : Ty => t.text.toList) params ++ [')']) ++
        ([':'] ++ ([' '] ++ result.text.toList)))) := by
  have hopen : "fn(".toList = "fn".toList ++ ['('] := rfl
  have hclose : "): ".toList = [')', ':', ' '] := rfl
  have hcomma : ", ".toList = [',', ' '] := rfl
  rw [text, String.toList_append, String.toList_append, String.toList_append, String.toList_intercalate,
    toList_paramTexts, hcomma, hopen, hclose, intercalate_comma]
  simp only [List.append_assoc, List.cons_append, List.nil_append]

theorem toList_index (key row : Ty) : (text (.index key row)).toList =
    "index".toList ++ (['<'] ++ (key.text.toList ++ ([','] ++ (([' '] ++ row.text.toList) ++ ['>'])))) := by
  have hopen : "index<".toList = "index".toList ++ ['<'] := rfl
  have hcomma : ", ".toList = [',', ' '] := rfl
  have hclose : ">".toList = ['>'] := rfl
  rw [text, String.toList_append, String.toList_append, String.toList_append, String.toList_append, hopen, hcomma,
    hclose]
  simp only [List.append_assoc, List.cons_append, List.nil_append]

theorem toList_var (n : String) : (text (.var n)).toList = '\x27' :: n.toList := by
  rw [text, String.toList_append]
  rfl

/-- A type starts with a character that closes nothing. -/
theorem text_head (t : Ty) : ∃ c cs, t.text.toList = c :: cs ∧ Grammar.isBlank c = false ∧ c ≠ ')' := by
  cases t with
  | int => exact ⟨'i', _, rfl, by decide, by decide⟩
  | bool => exact ⟨'b', _, rfl, by decide, by decide⟩
  | string => exact ⟨'s', _, rfl, by decide, by decide⟩
  | record fs => exact ⟨'\x7b', _, toList_record fs, by decide, by decide⟩
  | iterator t => exact ⟨'i', _, toList_iterator t, by decide, by decide⟩
  | function params result => exact ⟨'f', _, toList_function params result, by decide, by decide⟩
  | index key row => exact ⟨'i', _, toList_index key row, by decide, by decide⟩
  | var n => exact ⟨'\x27', _, toList_var n, by decide, by decide⟩

end Ty

namespace Grammar

/-! ## Reading them -/

theorem ends_of {c : Char} (hc : isNameChar c = false) (rest : List Char) : Ends (c :: rest) := by
  rintro d ⟨⟩
  exact hc

/-- The first character decides what is read. -/
theorem ty_succ (fuel : Nat) : ty (fuel + 1) = peek >>= fun c =>
    if c = some '\x27' then typeVar
    else if c = some '\x7b' then
      symbol '\x7b' >>= fun _ => itemsUntil '\x7d' (named (ty fuel)) >>= fun fields => pure (Ty.recordOf fields)
    else word >>= fun w => tyOfWord (ty fuel) (String.ofList w) := by
  rw [ty]
  congr 1
  funext c
  split
  next => rfl
  next => rfl
  next hmark hbrace => rw [if_neg hmark, if_neg hbrace]

theorem ty_of_word {w cs : List Char} {t : Ty} (hw : IsWord w) (hcs : ∀ rest, Ends rest → Ends (cs ++ rest))
    {fuel : Nat} (h : (tyOfWord (ty fuel) (String.ofList w)).Reads cs t Ends) {s : List Char} (hb : Blanks s) :
    (ty (fuel + 1)).Reads (s ++ (w ++ cs)) t Ends := by
  intro rest fault hrest
  obtain ⟨c, w', rfl⟩ := List.exists_cons_of_ne_nil hw.1
  have hc : isNameChar c = true := hw.2 c List.mem_cons_self
  have hmark : some c ≠ some '\x27' := by
    rintro ⟨⟩
    exact absurd hc (by decide)
  have hbrace : some c ≠ some '\x7b' := by
    rintro ⟨⟩
    exact absurd hc (by decide)
  have hpeek : peek ⟨s ++ c :: (w' ++ (cs ++ rest)), fault⟩ = some (some c, ⟨c :: (w' ++ (cs ++ rest)), fault⟩) :=
    peek_eq hb (not_isBlank hc) _ fault
  have hword : word ⟨c :: (w' ++ (cs ++ rest)), fault⟩ = some (c :: w', ⟨cs ++ rest, fault⟩) :=
    word_reads (s := []) (by decide) hw _ fault (hcs rest hrest)
  have htext : s ++ (c :: w' ++ cs) ++ rest = s ++ c :: (w' ++ (cs ++ rest)) := by simp
  rw [htext, ty_succ, Reader.bind_eq hpeek, if_neg hmark, if_neg hbrace, Reader.bind_eq hword]
  exact h rest fault hrest

theorem ty_of_name {w : List Char} {t : Ty} (hw : IsWord w) {fuel : Nat}
    (h : tyOfWord (ty fuel) (String.ofList w) = pure t) {s : List Char} (hb : Blanks s) :
    (ty (fuel + 1)).Reads (s ++ w) t Ends := by
  have hnone : (tyOfWord (ty fuel) (String.ofList w)).Reads [] t Ends := by
    rw [h]
    exact .pure t Ends
  have hends : ∀ rest, Ends rest → Ends ([] ++ rest) := fun _ hrest => hrest
  have hword := ty_of_word hw hends hnone hb
  rwa [List.append_nil] at hword

/-- What is read of a type, with blanks in front. -/
def TyReads (r : Reader Ty) (t : Ty) : Prop := ∀ s, Blanks s → r.Reads (s ++ t.text.toList) t Ends

theorem field_reads {r : Reader Ty} {f : String × Ty} (hn : Name f.1) (h : TyReads r f.2) {s : List Char}
    (hb : Blanks s) : (named r).Reads (s ++ Ty.fieldChars f) f Ends := by
  intro rest fault hrest
  have hname : name ⟨(s ++ f.1.toList) ++ (':' :: ([' '] ++ f.2.text.toList ++ rest)), fault⟩ =
      some (f.1, ⟨':' :: ([' '] ++ f.2.text.toList ++ rest), fault⟩) :=
    name_reads hb hn _ fault (ends_of (by decide) _)
  have hcolon : symbol ':' ⟨':' :: ([' '] ++ f.2.text.toList ++ rest), fault⟩ =
      some ((), ⟨[' '] ++ f.2.text.toList ++ rest, fault⟩) :=
    symbol_eq (by decide) _ fault
  have htext : s ++ Ty.fieldChars f ++ rest = (s ++ f.1.toList) ++ (':' :: ([' '] ++ f.2.text.toList ++ rest)) := by
    simp [Ty.fieldChars]
  rw [htext, named, Reader.bind_eq hname, Reader.bind_eq hcolon, Reader.bind_eq (h [' '] (by decide) rest fault hrest)]
  rfl

theorem record_reads {fuel : Nat} {fs : List (String × Ty)} (hs : Keyed.Ordered fs)
    (h : ∀ f ∈ fs, Name f.1 ∧ TyReads (ty fuel) f.2) : TyReads (ty (fuel + 1)) (.record fs) := by
  intro s hb rest fault hrest
  have hhead : ∀ f ∈ fs, ∃ d cs, Ty.fieldChars f = d :: cs ∧ isBlank d = false ∧ d ≠ '\x7d' :=
    fun f hf => name_head (h f hf).1 _ (by decide)
  have hfields : itemsUntil '\x7d' (named (ty fuel)) ⟨(itemChars Ty.fieldChars fs ++ ['\x7d']) ++ rest, fault⟩ =
      some (fs, ⟨rest, fault⟩) :=
    itemsUntil_reads (by decide) (by decide) (ends_of (by decide)) (ends_of (by decide))
      (fun f hf _ hb => (field_reads (h f hf).1 (h f hf).2 hb).notes.takes) hhead Ends rest fault hrest
  have hpeek : peek ⟨s ++ '\x7b' :: ((itemChars Ty.fieldChars fs ++ ['\x7d']) ++ rest), fault⟩ =
      some (some '\x7b', ⟨'\x7b' :: ((itemChars Ty.fieldChars fs ++ ['\x7d']) ++ rest), fault⟩) :=
    peek_eq hb (by decide) _ fault
  have hopen : symbol '\x7b' ⟨'\x7b' :: ((itemChars Ty.fieldChars fs ++ ['\x7d']) ++ rest), fault⟩ =
      some ((), ⟨(itemChars Ty.fieldChars fs ++ ['\x7d']) ++ rest, fault⟩) :=
    symbol_eq (by decide) _ fault
  have htext : s ++ (Ty.text (.record fs)).toList ++ rest =
      s ++ '\x7b' :: ((itemChars Ty.fieldChars fs ++ ['\x7d']) ++ rest) := by
    simp [Ty.toList_record]
  rw [htext, ty_succ, Reader.bind_eq hpeek, if_neg (by decide), if_pos rfl, Reader.bind_eq hopen,
    Reader.bind_eq hfields, Ty.recordOf, Keyed.ofList_of_ordered hs]
  rfl

theorem iterator_reads {fuel : Nat} {t : Ty} (h : TyReads (ty fuel) t) : TyReads (ty (fuel + 1)) (.iterator t) := by
  intro s hb
  rw [Ty.toList_iterator]
  refine ty_of_word (by decide) (fun rest _ => ends_of (by decide) _) ?_ hb
  intro rest fault _
  have hopen : symbol '<' ⟨'<' :: (t.text.toList ++ '>' :: rest), fault⟩ =
      some ((), ⟨t.text.toList ++ '>' :: rest, fault⟩) :=
    symbol_eq (by decide) _ fault
  have helement : ty fuel ⟨t.text.toList ++ '>' :: rest, fault⟩ = some (t, ⟨'>' :: rest, fault⟩) :=
    h [] (by decide) _ fault (ends_of (by decide) _)
  have hclose : symbol '>' ⟨'>' :: rest, fault⟩ = some ((), ⟨rest, fault⟩) :=
    symbol_eq (by decide) _ fault
  have htext : ['<'] ++ (t.text.toList ++ ['>']) ++ rest = '<' :: (t.text.toList ++ '>' :: rest) := by simp
  rw [htext, tyOfWord, if_neg (by decide), if_neg (by decide), if_neg (by decide), if_pos (by decide),
    Reader.bind_eq hopen, Reader.bind_eq helement, Reader.bind_eq hclose]
  rfl

theorem index_reads {fuel : Nat} {key row : Ty} (hkey : TyReads (ty fuel) key) (hrow : TyReads (ty fuel) row) :
    TyReads (ty (fuel + 1)) (.index key row) := by
  intro s hb
  rw [Ty.toList_index]
  refine ty_of_word (by decide) (fun rest _ => ends_of (by decide) _) ?_ hb
  intro rest fault _
  generalize hafter : [' '] ++ row.text.toList ++ '>' :: rest = after
  have hopen : symbol '<' ⟨'<' :: (key.text.toList ++ ',' :: after), fault⟩ =
      some ((), ⟨key.text.toList ++ ',' :: after, fault⟩) :=
    symbol_eq (by decide) _ fault
  have hk : ty fuel ⟨key.text.toList ++ ',' :: after, fault⟩ = some (key, ⟨',' :: after, fault⟩) :=
    hkey [] (by decide) _ fault (ends_of (by decide) _)
  have hcomma : symbol ',' ⟨',' :: after, fault⟩ = some ((), ⟨after, fault⟩) :=
    symbol_eq (by decide) _ fault
  have hr : ty fuel ⟨after, fault⟩ = some (row, ⟨'>' :: rest, fault⟩) := by
    rw [← hafter]
    exact hrow [' '] (by decide) _ fault (ends_of (by decide) _)
  have hclose : symbol '>' ⟨'>' :: rest, fault⟩ = some ((), ⟨rest, fault⟩) :=
    symbol_eq (by decide) _ fault
  have htext : ['<'] ++ (key.text.toList ++ ([','] ++ (([' '] ++ row.text.toList) ++ ['>']))) ++ rest =
      '<' :: (key.text.toList ++ ',' :: after) := by
    simp [← hafter]
  rw [htext, tyOfWord, if_neg (by decide), if_neg (by decide), if_neg (by decide), if_neg (by decide),
    if_pos (by decide), Reader.bind_eq hopen, Reader.bind_eq hk, Reader.bind_eq hcomma, Reader.bind_eq hr,
    Reader.bind_eq hclose]
  rfl

theorem function_reads {fuel : Nat} {params : List Ty} {result : Ty} (hparams : ∀ t ∈ params, TyReads (ty fuel) t)
    (hresult : TyReads (ty fuel) result) : TyReads (ty (fuel + 1)) (.function params result) := by
  intro s hb
  rw [Ty.toList_function]
  refine ty_of_word (by decide) (fun rest _ => ends_of (by decide) _) ?_ hb
  intro rest fault hrest
  generalize hafter : [' '] ++ result.text.toList ++ rest = after
  have hopen : symbol '(' ⟨'(' :: ((itemChars (fun t : Ty => t.text.toList) params ++ [')']) ++ ':' :: after), fault⟩ =
      some ((), ⟨(itemChars (fun t : Ty => t.text.toList) params ++ [')']) ++ ':' :: after, fault⟩) :=
    symbol_eq (by decide) _ fault
  have hps : itemsUntil ')' (ty fuel)
      ⟨(itemChars (fun t : Ty => t.text.toList) params ++ [')']) ++ ':' :: after, fault⟩ =
      some (params, ⟨':' :: after, fault⟩) :=
    itemsUntil_reads (by decide) (by decide) (ends_of (by decide)) (ends_of (by decide))
      (fun t ht s hb => (hparams t ht s hb).notes.takes) (fun t _ => t.text_head) (fun _ => True) _ fault trivial
  have hcolon : symbol ':' ⟨':' :: after, fault⟩ = some ((), ⟨after, fault⟩) :=
    symbol_eq (by decide) _ fault
  have hr : ty fuel ⟨after, fault⟩ = some (result, ⟨rest, fault⟩) := by
    rw [← hafter]
    exact hresult [' '] (by decide) rest fault hrest
  have htext : ['('] ++ ((itemChars (fun t : Ty => t.text.toList) params ++ [')']) ++
      ([':'] ++ ([' '] ++ result.text.toList))) ++ rest =
        '(' :: ((itemChars (fun t : Ty => t.text.toList) params ++ [')']) ++ ':' :: after) := by
    simp [← hafter]
  rw [htext, tyOfWord, if_neg (by decide), if_neg (by decide), if_neg (by decide), if_neg (by decide),
    if_neg (by decide), if_pos (by decide), Reader.bind_eq hopen, Reader.bind_eq hps, Reader.bind_eq hcolon,
    Reader.bind_eq hr]
  rfl

theorem var_reads (fuel : Nat) {n : String} (hn : VarName n) : TyReads (ty (fuel + 1)) (.var n) := by
  intro s hb rest fault hrest
  have hpeek : peek ⟨s ++ '\x27' :: (n.toList ++ rest), fault⟩ =
      some (some '\x27', ⟨'\x27' :: (n.toList ++ rest), fault⟩) := peek_eq hb (by decide) _ fault
  have htext : s ++ (Ty.text (.var n)).toList ++ rest = s ++ '\x27' :: (n.toList ++ rest) := by
    simp [Ty.toList_var]
  rw [htext, ty_succ, Reader.bind_eq hpeek, if_pos rfl]
  exact typeVar_reads (s := []) (by decide) hn rest fault hrest

theorem ty_reads {fuel : Nat} {t : Ty} (hfuel : t.text.toList.length < fuel) (hs : t.Sorted) (hr : t.Readable) :
    TyReads (ty fuel) t := by
  -- the parts of a type have shorter texts, so the fuel suffices for them too
  induction fuel generalizing t with
  | zero => exact absurd hfuel (Nat.not_lt_zero _)
  | succ fuel ih =>
    cases t with
    | int => exact fun s hb => ty_of_name (w := "int".toList) (by decide) rfl hb
    | bool => exact fun s hb => ty_of_name (w := "bool".toList) (by decide) rfl hb
    | string => exact fun s hb => ty_of_name (w := "string".toList) (by decide) rfl hb
    | record fs =>
      have hrs := Ty.readableFields_iff.mp hr
      refine record_reads hs.1 fun f hf => ⟨(hrs f hf).1, ih ?_ (Ty.sortedFields_iff.mp hs.2 f hf) (hrs f hf).2⟩
      have hlen := length_le_itemChars Ty.fieldChars hf
      simp only [Ty.toList_record, Ty.fieldChars, List.length_append, List.length_singleton] at hfuel hlen
      omega
    | iterator t =>
      refine iterator_reads (ih ?_ hs hr)
      simp only [Ty.toList_iterator, List.length_append, List.length_singleton] at hfuel
      omega
    | function params result =>
      simp only [Ty.toList_function, List.length_append, List.length_singleton] at hfuel
      refine function_reads (fun t ht => ih ?_ (Ty.sortedList_iff.mp hs.1 t ht) (Ty.readableList_iff.mp hr.1 t ht))
        (ih ?_ hs.2 hr.2)
      · have hlen := length_le_itemChars (fun t : Ty => t.text.toList) ht
        omega
      · omega
    | index key row =>
      simp only [Ty.toList_index, List.length_append, List.length_singleton] at hfuel
      exact index_reads (ih (by omega) hs.1 hr.1) (ih (by omega) hs.2 hr.2)
    | var n => exact var_reads fuel hr

end Grammar

theorem Ty.read_text {t : Ty} (hs : t.Sorted) (hr : t.Readable) : Ty.read t.text = .ok t := by
  have hread : Grammar.ty (t.text.length + 1) ⟨t.text.toList, none⟩ = some (t, ⟨[], none⟩) := by
    have hfuel : t.text.toList.length < t.text.length + 1 := by
      rw [String.length_toList]
      omega
    have h := Grammar.ty_reads hfuel hs hr [] (by decide) [] none (by rintro c ⟨⟩)
    rwa [List.nil_append, List.append_nil] at h
  rw [Ty.read, Grammar.readAll, Reader.bind_eq hread]
  rfl

/-! ## What is read is readable -/

namespace Grammar

open Reader.Gives

theorem tyOfWord_readable {r : Reader Ty} (h : r.Gives Ty.Readable) (w : String) :
    (tyOfWord r w).Gives Ty.Readable := by
  refine ite (fun _ => pure trivial) fun _ => ite (fun _ => pure trivial) fun _ =>
    ite (fun _ => pure trivial) fun _ => ite (fun _ => ?iterator) fun _ => ite (fun _ => ?index) fun _ =>
    ite (fun _ => ?function) fun _ => failure
  case iterator => exact after fun _ => h.bind fun _ ht => after fun _ => pure ht
  case index =>
    exact after fun _ => h.bind fun _ hk => after fun _ => h.bind fun _ hr => after fun _ => pure ⟨hk, hr⟩
  case function =>
    refine after fun _ => (itemsUntil_gives h ')').bind fun _ hp => after fun _ => ?_
    exact h.bind fun _ hr => pure ⟨Ty.readableList_iff.mpr hp, hr⟩

theorem ty_readable (fuel : Nat) : (ty fuel).Gives Ty.Readable := by
  induction fuel with
  | zero => exact failure
  | succ fuel ih =>
    rw [ty_succ]
    refine after fun c => ite (fun _ => typeVar_gives fun _ hn => hn) fun _ => ite (fun _ => ?record) fun _ =>
      after fun _ => tyOfWord_readable ih _
    refine after fun _ => (itemsUntil_gives (named_readable ih) '\x7d').bind fun _ hf => pure ?_
    exact Ty.readableFields_iff.mpr fun f hmem => hf f (Keyed.mem_of_mem_ofList hmem)

end Grammar

/-- The types that are read from their texts as they are: those with records in order, whose names can be read. -/
theorem Ty.read_text_iff (t : Ty) : Ty.read t.text = .ok t ↔ t.Sorted ∧ t.Readable :=
  ⟨fun h => ⟨Grammar.readAll_gives (Grammar.ty_gives _) h, Grammar.readAll_gives (Grammar.ty_readable _) h⟩,
    fun h => Ty.read_text h.1 h.2⟩

example : Ty.read "fn(): \x7bint: iterator<\x7b\x7d>, iterator: 'fn\x7d" =
    .ok (.function [] (.record [("int", .iterator (.record [])), ("iterator", .var "fn")])) := by decide +kernel

end LiveQuery
