import LiveQuery.Proofs.Grammar.Reading

/-! # Reading what was written

`Reader.Reads r cs a P` says that `r` reads exactly the characters `cs` and gives `a`, whatever follows them, as
long as it satisfies `P`. It is carried along the combinators of readers; what follows a token matters where a
longer one could be read instead (`Ends`).

`Reader.Notes` allows for a fault to be noted, and then what the reader gives does not matter. `Reader.Takes` allows
also for the blanks that follow to be passed, which the next token does not see. Lists are read item by item
(`items_take`, `itemsUntil_reads`), and their fault is the first one of an item.
-/
namespace LiveQuery

/-- The reader reads the characters and gives `a` wherever what follows satisfies `P`. -/
def Reader.Reads {α : Type} (r : Reader α) (cs : List Char) (a : α) (P : List Char → Prop) : Prop :=
  ∀ rest fault, P rest → r ⟨cs ++ rest, fault⟩ = some (a, ⟨rest, fault⟩)

/-- The reader reads the characters and gives `a`, unless it notes the fault `f`. -/
def Reader.Notes {α : Type} (r : Reader α) (cs : List Char) (a : α) (f : Option ReadFault)
    (P : List Char → Prop) : Prop :=
  ∀ rest fault, P rest → ∃ a', (f = none → a' = a) ∧ r ⟨cs ++ rest, fault⟩ = some (a', ⟨rest, fault.or f⟩)

/-- The reader reads the characters, and perhaps blanks behind them, and gives `a`, unless it notes the fault `f`. -/
def Reader.Takes {α : Type} (r : Reader α) (cs : List Char) (a : α) (f : Option ReadFault)
    (P : List Char → Prop) : Prop :=
  ∀ rest fault, P rest → ∃ s rest' a', (∀ c ∈ s, Grammar.isBlank c = true) ∧ rest = s ++ rest' ∧
    (f = none → a' = a) ∧ r ⟨cs ++ rest, fault⟩ = some (a', ⟨rest', fault.or f⟩)

theorem Reader.bind_eq {α β : Type} {r : Reader α} {i j : Input} {a : α} (h : r i = some (a, j)) (f : α → Reader β) :
    (r >>= f) i = f a j := by
  show (r i).bind _ = _
  rw [h]
  rfl

theorem Reader.bind_congr {α β : Type} {r : Reader α} {i j : Input} (h : r i = r j) (f : α → Reader β) :
    (r >>= f) i = (r >>= f) j := by
  show (r i).bind _ = (r j).bind _
  rw [h]

namespace Reader.Reads

variable {α β : Type} {r : Reader α} {cs cs' : List Char} {a : α} {b : β} {P Q : List Char → Prop}

theorem pure (a : α) (P : List Char → Prop) : Reader.Reads (Pure.pure a) [] a P := fun _ _ _ => rfl

theorem bind {f : α → Reader β} (h : r.Reads cs a P) (hf : (f a).Reads cs' b Q)
    (hP : ∀ rest, Q rest → P (cs' ++ rest)) : Reader.Reads (r >>= f) (cs ++ cs') b Q := by
  intro rest fault hrest
  rw [List.append_assoc, Reader.bind_eq (h _ fault (hP rest hrest))]
  exact hf rest fault hrest

theorem notes (h : r.Reads cs a P) : r.Notes cs a none P := fun rest fault hrest =>
  ⟨a, fun _ => rfl, by rw [Option.or_none]; exact h rest fault hrest⟩

end Reader.Reads

theorem Reader.Notes.takes {α : Type} {r : Reader α} {cs : List Char} {a : α} {f : Option ReadFault}
    {P : List Char → Prop} (h : r.Notes cs a f P) : r.Takes cs a f P := by
  intro rest fault hrest
  obtain ⟨a', ha', hr⟩ := h rest fault hrest
  exact ⟨[], rest, a', by simp, rfl, ha', hr⟩

theorem Reader.Takes.mono {α : Type} {r : Reader α} {cs : List Char} {a : α} {f : Option ReadFault}
    {P Q : List Char → Prop} (h : r.Takes cs a f P) (hPQ : ∀ rest, Q rest → P rest) : r.Takes cs a f Q :=
  fun rest fault hrest => h rest fault (hPQ rest hrest)

namespace Grammar

/-! ## Tokens -/

/-- No name goes on here. -/
def Ends (rest : List Char) : Prop := ∀ c ∈ rest.head?, isNameChar c = false

/-- All characters are blanks. -/
def Blanks (s : List Char) : Prop := ∀ c ∈ s, isBlank c = true

/-- A run of name characters. -/
def IsWord (w : List Char) : Prop := w ≠ [] ∧ ∀ c ∈ w, isNameChar c = true

instance (s : List Char) : Decidable (Blanks s) := decidable_of_iff (s.all isBlank = true) List.all_eq_true

instance (w : List Char) : Decidable (IsWord w) :=
  decidable_of_iff (w ≠ [] ∧ w.all isNameChar = true) (and_congr_right fun _ => List.all_eq_true)

theorem not_isBlank {c : Char} (h : isNameChar c = true) : isBlank c = false := by
  rw [Bool.eq_false_iff]
  intro hblank
  simp only [isBlank, Bool.or_eq_true, beq_iff_eq] at hblank
  rcases hblank with ((rfl | rfl) | rfl) | rfl <;> exact absurd h (by decide)

theorem dropWhile_blanks {s rest : List Char} (hb : Blanks s) (hrest : ∀ c ∈ rest.head?, isBlank c = false) :
    (s ++ rest).dropWhile isBlank = rest := by
  rw [List.dropWhile_append_of_pos hb]
  cases rest with
  | nil => rfl
  | cons c rest => rw [List.dropWhile_cons_of_neg (by simp [hrest c rfl])]

theorem takeWhile_eq {p : Char → Bool} {w rest : List Char} (hw : ∀ c ∈ w, p c = true)
    (hrest : ∀ c ∈ rest.head?, p c = false) (fault : Option ReadFault) :
    takeWhile p ⟨w ++ rest, fault⟩ = some (w, ⟨rest, fault⟩) := by
  show some ((w ++ rest).takeWhile p, Input.mk ((w ++ rest).dropWhile p) fault) = _
  rw [List.takeWhile_append_of_pos hw, List.dropWhile_append_of_pos hw]
  cases rest with
  | nil => simp
  | cons c rest =>
    have hc : ¬p c = true := by simp [hrest c rfl]
    rw [List.takeWhile_cons_of_neg hc, List.dropWhile_cons_of_neg hc, List.append_nil]

theorem takeWhile_gives (p : Char → Bool) : (takeWhile p).Gives fun w => ∀ c ∈ w, p c = true := by
  intro i w j h
  obtain ⟨rfl, -⟩ := Prod.mk.inj (Option.some.inj h)
  exact List.all_eq_true.mp List.all_takeWhile

theorem head_word {w rest : List Char} (hw : IsWord w) : ∀ c ∈ (w ++ rest).head?, isBlank c = false := by
  obtain ⟨hne, hall⟩ := hw
  cases w with
  | nil => exact absurd rfl hne
  | cons c w =>
    rintro d ⟨⟩
    exact not_isBlank (hall c List.mem_cons_self)

theorem skip_eq {s rest : List Char} (hb : Blanks s) (hrest : ∀ c ∈ rest.head?, isBlank c = false)
    (fault : Option ReadFault) : skip ⟨s ++ rest, fault⟩ = some ((), ⟨rest, fault⟩) := by
  rw [show skip ⟨s ++ rest, fault⟩ = some ((), ⟨(s ++ rest).dropWhile isBlank, fault⟩) from rfl,
    dropWhile_blanks hb hrest]

theorem word_reads {s w : List Char} (hb : Blanks s) (hw : IsWord w) : word.Reads (s ++ w) w Ends := by
  intro rest fault hrest
  have hempty : ¬w.isEmpty = true := by simpa using hw.1
  rw [List.append_assoc, word, Reader.bind_eq (skip_eq hb (head_word hw) fault),
    Reader.bind_eq (takeWhile_eq hw.2 hrest fault), if_neg hempty]
  rfl

theorem keyword_reads {s w : List Char} {k : String} (hb : Blanks s) (hw : IsWord w) (hk : isKeyword k w = true) :
    (keyword k).Reads (s ++ w) () Ends := by
  have h : (keyword k).Reads ((s ++ w) ++ []) () Ends :=
    (word_reads hb hw).bind (by rw [if_pos hk]; exact .pure () _) fun _ h => h
  rwa [List.append_nil] at h

/-- A name that can be read as one. -/
def Identifier (n : String) : Prop := IsWord n.toList ∧ isIdentifier n.toList = true

instance (n : String) : Decidable (Identifier n) := inferInstanceAs (Decidable (_ ∧ _))

theorem identifier_reads {s : List Char} {n : String} (hb : Blanks s) (hn : Identifier n) :
    identifier.Reads (s ++ n.toList) n Ends := by
  have h : identifier.Reads ((s ++ n.toList) ++ []) n Ends := by
    refine (word_reads hb hn.1).bind ?_ fun _ h => h
    rw [if_pos hn.2, String.ofList_toList]
    exact .pure n _
  rwa [List.append_nil] at h

theorem char_eq (c : Char) (rest : List Char) (fault : Option ReadFault) :
    char c ⟨c :: rest, fault⟩ = some ((), ⟨rest, fault⟩) := by
  show (if c = c then _ else _ : Reader Unit) ⟨c :: rest, fault⟩ = _
  rw [if_pos rfl]
  rfl

theorem symbol_reads {s : List Char} {c : Char} (hb : Blanks s) (hc : isBlank c = false) (P : List Char → Prop) :
    (symbol c).Reads (s ++ [c]) () P := by
  intro rest fault _
  have hhead : ∀ d ∈ ([c] ++ rest).head?, isBlank d = false := by
    rintro d ⟨⟩
    exact hc
  rw [List.append_assoc, symbol, Reader.bind_eq (skip_eq hb hhead fault)]
  exact char_eq c rest fault

theorem symbol_eq {c : Char} (hc : isBlank c = false) (rest : List Char) (fault : Option ReadFault) :
    symbol c ⟨c :: rest, fault⟩ = some ((), ⟨rest, fault⟩) :=
  symbol_reads (s := []) (by decide) hc (fun _ => True) rest fault trivial

theorem peekWord_eq {s w rest : List Char} (hb : Blanks s) (hw : IsWord w) (hrest : Ends rest)
    (fault : Option ReadFault) : peekWord ⟨s ++ (w ++ rest), fault⟩ = some (w, ⟨w ++ rest, fault⟩) := by
  have htake : (w ++ rest).takeWhile isNameChar = w :=
    congrArg Prod.fst (Option.some.inj (takeWhile_eq hw.2 hrest fault))
  rw [peekWord, Reader.bind_eq (skip_eq hb (head_word hw) fault)]
  exact congrArg (fun w' => some (w', (⟨w ++ rest, fault⟩ : Input))) htake

theorem peekWord_nil {rest : List Char} (hrest : Ends rest) (hblank : ∀ c ∈ rest.head?, isBlank c = false)
    (fault : Option ReadFault) : peekWord ⟨rest, fault⟩ = some ([], ⟨rest, fault⟩) := by
  have hskip : skip ⟨rest, fault⟩ = some ((), ⟨rest, fault⟩) := skip_eq (s := []) (by simp [Blanks]) hblank fault
  have htake : rest.takeWhile isNameChar = [] :=
    congrArg Prod.fst (Option.some.inj (takeWhile_eq (w := []) (by simp) hrest fault))
  rw [peekWord, Reader.bind_eq hskip]
  exact congrArg (fun w' => some (w', (⟨rest, fault⟩ : Input))) htake

theorem ends_blank (cs : List Char) : Ends (' ' :: cs) := by
  rintro c ⟨⟩
  decide

theorem peek_eq {s : List Char} {c : Char} (hb : Blanks s) (hc : isBlank c = false) (rest : List Char)
    (fault : Option ReadFault) : peek ⟨s ++ c :: rest, fault⟩ = some (some c, ⟨c :: rest, fault⟩) := by
  have hhead : ∀ d ∈ (c :: rest).head?, isBlank d = false := by
    rintro d ⟨⟩
    exact hc
  rw [peek, Reader.bind_eq (skip_eq hb hhead fault)]
  rfl

theorem accept_of_eq {s : List Char} {c : Char} (hb : Blanks s) (hc : isBlank c = false) (rest : List Char)
    (fault : Option ReadFault) : accept c ⟨s ++ c :: rest, fault⟩ = some (true, ⟨rest, fault⟩) := by
  rw [accept, Reader.bind_eq (peek_eq hb hc rest fault), if_pos rfl, Reader.bind_eq (char_eq c rest fault)]
  rfl

theorem accept_of_ne {s : List Char} {c d : Char} (hb : Blanks s) (hd : isBlank d = false) (hne : d ≠ c)
    (rest : List Char) (fault : Option ReadFault) :
    accept c ⟨s ++ d :: rest, fault⟩ = some (false, ⟨d :: rest, fault⟩) := by
  have hhead : some d ≠ some c := fun h => hne (Option.some.inj h)
  rw [accept, Reader.bind_eq (peek_eq hb hd rest fault), if_neg hhead]
  rfl

/-! ## Lists -/

/-- The characters of items after the first one. -/
def moreChars {α : Type} (chars : α → List Char) (as : List α) : List Char :=
  as.flatMap fun a => ',' :: ' ' :: chars a

/-- The characters of items with commas between them. -/
def itemChars {α : Type} (chars : α → List Char) : List α → List Char
  | [] => []
  | a :: as => chars a ++ moreChars chars as

theorem length_le_itemChars {α : Type} (chars : α → List Char) {a : α} {as : List α} (h : a ∈ as) :
    (chars a).length ≤ (itemChars chars as).length := by
  cases as with
  | nil => cases h
  | cons b as =>
    rw [itemChars, List.length_append]
    rcases List.mem_cons.mp h with rfl | h
    · exact Nat.le_add_right _ _
    · have hmem : ',' :: ' ' :: chars a ∈ as.map fun b => ',' :: ' ' :: chars b := List.mem_map.mpr ⟨a, h, rfl⟩
      have hmore := (List.sublist_flatten_of_mem hmem).length_le
      rw [← List.flatMap_def] at hmore
      change _ ≤ (moreChars chars as).length at hmore
      simp only [List.length_cons] at hmore
      omega

theorem findSome?_cons_or {α β : Type} (f : α → Option β) (a : α) (as : List α) :
    (a :: as).findSome? f = (f a).or (as.findSome? f) := by
  rw [List.findSome?_cons]
  cases f a <;> rfl

/-- A reader that passes blanks first does not see those that are gone already. -/
theorem moreItems_blanks {α : Type} (item : Reader α) (fuel : Nat) {s : List Char} (hb : Blanks s)
    (rest : List Char) (fault : Option ReadFault) :
    moreItems item (fuel + 1) ⟨s ++ rest, fault⟩ = moreItems item (fuel + 1) ⟨rest, fault⟩ := by
  have hskip : skip ⟨s ++ rest, fault⟩ = skip ⟨rest, fault⟩ := by
    show some ((), Input.mk ((s ++ rest).dropWhile isBlank) fault) = _
    rw [List.dropWhile_append_of_pos hb]
    rfl
  have hpeek : peek ⟨s ++ rest, fault⟩ = peek ⟨rest, fault⟩ := Reader.bind_congr hskip _
  have haccept : accept ',' ⟨s ++ rest, fault⟩ = accept ',' ⟨rest, fault⟩ := Reader.bind_congr hpeek _
  rw [moreItems]
  exact Reader.bind_congr haccept _

section Items

variable {α : Type} {item : Reader α} {chars : α → List Char} (note : α → Option ReadFault)
variable {P : List Char → Prop} {s : List Char} {c : Char} {tail : List Char}

theorem moreItems_take (hb : Blanks s) (hc : isBlank c = false) (hne : c ≠ ',') (htail : P (s ++ c :: tail))
    (hcomma : ∀ rest, P (',' :: rest)) {as : List α} (h : ∀ a ∈ as, item.Takes (' ' :: chars a) a (note a) P)
    {fuel : Nat} (hfuel : as.length < fuel) (fault : Option ReadFault) :
    ∃ as', (as.findSome? note = none → as' = as) ∧
      moreItems item fuel ⟨moreChars chars as ++ (s ++ c :: tail), fault⟩ =
        some (as', ⟨c :: tail, fault.or (as.findSome? note)⟩) := by
  -- induction on the items; what an item leaves may begin with blanks, which the next comma passes
  induction as generalizing fuel fault with
  | nil =>
    obtain ⟨n, rfl⟩ : ∃ n, fuel = n + 1 := ⟨fuel - 1, by simp at hfuel; omega⟩
    refine ⟨[], fun _ => rfl, ?_⟩
    rw [show moreChars chars ([] : List α) ++ (s ++ c :: tail) = s ++ c :: tail from rfl, moreItems,
      Reader.bind_eq (accept_of_ne hb hc hne tail fault), List.findSome?_nil, Option.or_none]
    rfl
  | cons a as ih =>
    obtain ⟨n, rfl⟩ : ∃ n, fuel = n + 2 := ⟨fuel - 2, by simp at hfuel; omega⟩
    have hfollow : P (moreChars chars as ++ (s ++ c :: tail)) := by
      cases as with
      | nil => exact htail
      | cons b bs => exact hcomma _
    obtain ⟨s', rest', a', hb', hrest, ha', hitem⟩ := h a List.mem_cons_self _ fault hfollow
    have hshort : as.length < n + 1 := by simp at hfuel; omega
    obtain ⟨as', has', hmore⟩ := ih (fun b hb => h b (List.mem_cons_of_mem _ hb)) hshort (fault.or (note a))
    rw [hrest, moreItems_blanks item n hb'] at hmore
    have hfirst : accept ',' ⟨',' :: ((' ' :: chars a) ++ (moreChars chars as ++ (s ++ c :: tail))), fault⟩ =
        some (true, ⟨(' ' :: chars a) ++ (moreChars chars as ++ (s ++ c :: tail)), fault⟩) :=
      accept_of_eq (s := []) (by decide) (by decide) _ fault
    have htext : moreChars chars (a :: as) ++ (s ++ c :: tail) =
        ',' :: ((' ' :: chars a) ++ (moreChars chars as ++ (s ++ c :: tail))) := by
      simp [moreChars]
    rw [findSome?_cons_or]
    refine ⟨a' :: as', fun hnone => ?_, ?_⟩
    · obtain ⟨hn, hns⟩ := Option.or_eq_none_iff.mp hnone
      rw [ha' hn, has' hns]
    · rw [htext, moreItems, Reader.bind_eq hfirst, if_pos rfl, Reader.bind_eq hitem, Reader.bind_eq hmore,
        Option.or_assoc]
      rfl

theorem items_take (hb : Blanks s) (hc : isBlank c = false) (hne : c ≠ ',') (htail : P (s ++ c :: tail))
    (hcomma : ∀ rest, P (',' :: rest)) {lead : List Char} {a : α} {as : List α}
    (hfirst : item.Takes (lead ++ chars a) a (note a) P)
    (h : ∀ b ∈ as, item.Takes (' ' :: chars b) b (note b) P) (fault : Option ReadFault) :
    ∃ as', ((a :: as).findSome? note = none → as' = a :: as) ∧
      items item ⟨lead ++ itemChars chars (a :: as) ++ (s ++ c :: tail), fault⟩ =
        some (as', ⟨c :: tail, fault.or ((a :: as).findSome? note)⟩) := by
  have hfollow : P (moreChars chars as ++ (s ++ c :: tail)) := by
    cases as with
    | nil => exact htail
    | cons b bs => exact hcomma _
  obtain ⟨s', rest', a', hb', hrest, ha', hitem⟩ := hfirst _ fault hfollow
  -- the fuel is taken from what is left, where blanks may be gone, but no comma is
  have hfuel : as.length < rest'.length + 1 := by
    have hcommas : as.length ≤ (moreChars chars as).count ',' := by
      clear hrest hitem hfollow h
      induction as with
      | nil => exact Nat.zero_le _
      | cons b bs ih =>
        simp only [moreChars, List.flatMap_cons, List.cons_append, List.count_cons_self, List.length_cons] at ih ⊢
        rw [List.count_cons_of_ne (by decide), List.count_append]
        omega
    have hnone : s'.count ',' = 0 := List.count_eq_zero.mpr fun hmem => absurd (hb' _ hmem) (by decide)
    have hsame := congrArg (List.count ',') hrest
    simp only [List.count_append, hnone] at hsame
    have hlen := List.count_le_length (a := ',') (l := rest')
    omega
  obtain ⟨as', has', hmore⟩ := moreItems_take note hb hc hne htail hcomma h hfuel (fault.or (note a))
  rw [hrest, moreItems_blanks item _ hb'] at hmore
  rw [findSome?_cons_or]
  refine ⟨a' :: as', fun hnone => ?_, ?_⟩
  · obtain ⟨hn, hns⟩ := Option.or_eq_none_iff.mp hnone
    rw [ha' hn, has' hns]
  · rw [itemChars, ← List.append_assoc lead, List.append_assoc, items, Reader.bind_eq hitem]
    show (moreItems item (rest'.length + 1) >>= fun as => Pure.pure (a' :: as)) _ = _
    rw [Reader.bind_eq hmore, Option.or_assoc]
    rfl

theorem items_read (hb : Blanks s) (hc : isBlank c = false) (hne : c ≠ ',') (htail : P (s ++ c :: tail))
    (hcomma : ∀ rest, P (',' :: rest)) {a : α} {as : List α} (hfirst : item.Takes (chars a) a none P)
    (h : ∀ b ∈ as, item.Takes (' ' :: chars b) b none P) (fault : Option ReadFault) :
    items item ⟨itemChars chars (a :: as) ++ (s ++ c :: tail), fault⟩ = some (a :: as, ⟨c :: tail, fault⟩) := by
  have hlead : item.Takes ([] ++ chars a) a none P := hfirst
  obtain ⟨as', has', hitems⟩ := items_take (fun _ => none) hb hc hne htail hcomma hlead h fault
  have hnone : (a :: as).findSome? (fun _ => (none : Option ReadFault)) = none := by simp
  rw [has' hnone, hnone, Option.or_none] at hitems
  exact hitems

/-- Items up to a closing character, which no item starts with. -/
theorem itemsUntil_reads (hc : isBlank c = false) (hne : c ≠ ',') (hclose : ∀ rest, P (c :: rest))
    (hcomma : ∀ rest, P (',' :: rest)) {as : List α}
    (h : ∀ a ∈ as, ∀ s, Blanks s → item.Takes (s ++ chars a) a none P)
    (hhead : ∀ a ∈ as, ∃ d cs, chars a = d :: cs ∧ isBlank d = false ∧ d ≠ c) (Q : List Char → Prop) :
    (itemsUntil c item).Reads (itemChars chars as ++ [c]) as Q := by
  intro rest fault _
  cases as with
  | nil =>
    rw [show itemChars chars ([] : List α) ++ [c] ++ rest = [] ++ c :: rest from rfl, itemsUntil,
      Reader.bind_eq (accept_of_eq (by decide) hc rest fault)]
    rfl
  | cons a as =>
    obtain ⟨d, cs, hd, hblank, hdc⟩ := hhead a List.mem_cons_self
    have htext : itemChars chars (a :: as) ++ [c] ++ rest = itemChars chars (a :: as) ++ ([] ++ c :: rest) := by
      simp
    have hopen : accept c ⟨itemChars chars (a :: as) ++ ([] ++ c :: rest), fault⟩ =
        some (false, ⟨itemChars chars (a :: as) ++ ([] ++ c :: rest), fault⟩) := by
      rw [itemChars, hd]
      exact accept_of_ne (s := []) (by decide) hblank hdc _ fault
    have hitems := items_read (s := []) (by decide) hc hne (hclose rest) hcomma
      (h a List.mem_cons_self [] (by decide)) (fun b hb => h b (List.mem_cons_of_mem _ hb) [' '] (by decide)) fault
    have hend : symbol c ⟨c :: rest, fault⟩ = some ((), ⟨rest, fault⟩) :=
      symbol_eq hc rest fault
    rw [htext, itemsUntil, Reader.bind_eq hopen, if_neg (by decide), Reader.bind_eq hitems, Reader.bind_eq hend]
    rfl

end Items

/-! ## What is read -/

open Reader.Gives

theorem word_gives : word.Gives IsWord := by
  refine after fun _ => (takeWhile_gives isNameChar).bind fun w hw => ite (fun _ => failure) fun hne => pure ⟨?_, hw⟩
  simpa using hne

theorem identifier_gives : identifier.Gives Identifier :=
  word_gives.bind fun w hw => ite (fun hid => pure (by
    rw [Identifier, String.toList_ofList]
    exact ⟨hw, hid⟩)) fun _ => failure

theorem items_nonempty {α : Type} (item : Reader α) : (items item).Gives (· ≠ []) :=
  after fun _ => after fun _ => after fun _ => pure (List.cons_ne_nil _ _)

end Grammar

theorem intercalate_map {α : Type} (sep : List Char) (chars : α → List Char) (a : α) (as : List α) :
    sep.intercalate ((a :: as).map chars) = chars a ++ as.flatMap fun b => sep ++ chars b := by
  induction as generalizing a with
  | nil => simp [List.intercalate]
  | cons b as ih =>
    have hcons : sep.intercalate ((a :: b :: as).map chars) =
        chars a ++ (sep ++ sep.intercalate ((b :: as).map chars)) := by
      simp [List.intercalate]
    rw [hcons, ih, List.flatMap_cons, List.append_assoc]

theorem intercalate_comma {α : Type} (chars : α → List Char) (as : List α) :
    [',', ' '].intercalate (as.map chars) = Grammar.itemChars chars as := by
  cases as with
  | nil => rfl
  | cons a as => exact intercalate_map _ chars a as

end LiveQuery
