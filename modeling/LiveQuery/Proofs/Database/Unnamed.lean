import LiveQuery.Proofs.Database.Inserting

/-! # A key that cannot be named

Where the key of a table is named by a word of expressions, no expression names it: neither in a record, nor to take it
of a record. The handle on the table is a record with a field of that name, which is passed around as a whole, so no
expression has the type of the table's rows (`Expr.infer_hides`), and no statement stores a row in it
(`Grown.exists_uninsertable`).
-/
namespace LiveQuery

theorem Grammar.ne_let {n : String} (h : Name n) : n ≠ "let" := by
  rintro rfl
  exact absurd h (by decide)

namespace Ty

/-- The type of a row whose only column is named `let`. -/
def letRow : Ty := .record [("let", .int)]

/-- The type of the handle on a table of such rows. -/
def letHandle : Ty := .record [("let", .index .int letRow)]

theorem int_of_matchFrom {c : Ty} {bs bs' : Bindings} (h : Ty.int.matchFrom c bs = (true, bs')) :
    c = .int ∧ bs' = bs := by
  cases c <;> simp_all [matchFrom]

theorem letRow_of_matchFrom {c : Ty} {bs bs' : Bindings} (h : letRow.matchFrom c bs = (true, bs')) :
    bs' = bs ∧ ∃ fields, c = .record fields ∧ Keyed.find? fields "let" = some .int := by
  cases c with
  | record fields =>
    simp only [letRow, matchFrom, matchFields] at h
    split at h
    next =>
      split at h
      next => cases h
      next c hf =>
        split at h
        next bs₁ hm =>
          obtain ⟨rfl, rfl⟩ := int_of_matchFrom hm
          cases h
          exact ⟨rfl, fields, rfl, hf⟩
        next => cases h
    next => cases h
  | _ => simp [letRow, matchFrom] at h

/-- There are no variables in the type of the handle. -/
theorem letHandle_of_matchFrom {c : Ty} {bs bs' : Bindings} (h : letHandle.matchFrom c bs = (true, bs')) :
    bs' = bs := by
  cases c with
  | record fields =>
    simp only [letHandle, matchFrom, matchFields] at h
    split at h
    next =>
      split at h
      next => cases h
      next c hf =>
        split at h
        next bs₁ hm =>
          cases h
          cases c with
          | index key row =>
            simp only [matchFrom] at hm
            split at hm
            next bs₂ hk =>
              obtain ⟨rfl, rfl⟩ := int_of_matchFrom hk
              exact (letRow_of_matchFrom hm).1
            next => cases hm
          | _ => simp [matchFrom] at hm
        next => cases h
    next => cases h
  | _ => simp [letHandle, matchFrom] at h

/-- In the type no field is named `let`, but that of the handle. -/
inductive Hides : Ty → Prop
  | int : Hides .int
  | bool : Hides .bool
  | string : Hides .string
  | var (n : String) : Hides (.var n)
  | handle : Hides letHandle
  | record {fields : List (String × Ty)} (names : ∀ f ∈ fields, f.1 ≠ "let") (types : ∀ f ∈ fields, Hides f.2) :
      Hides (.record fields)
  | iterator {t : Ty} (h : Hides t) : Hides (.iterator t)
  | function {params : List Ty} {result : Ty} (hp : ∀ t ∈ params, Hides t) (hr : Hides result) :
      Hides (.function params result)
  | index {key row : Ty} (hk : Hides key) (hr : Hides row) : Hides (.index key row)

namespace Hides

/-- A field with another name. -/
theorem field {fields : List (String × Ty)} {name : String} {t : Ty} (h : Hides (.record fields)) (hn : name ≠ "let")
    (hf : Keyed.find? fields name = some t) : t.Hides := by
  cases h with
  | handle =>
    have hnone : Keyed.find? [("let", Ty.index .int letRow)] name = none := by simp [Keyed.find?_cons, hn.symm]
    rw [hnone] at hf
    cases hf
  | record _ types => exact types _ (Keyed.mem_of_find? hf)

/-- It is not the type of a row. -/
theorem not_matches {t : Ty} (h : t.Hides) (bs bs' : Bindings) : letRow.matchFrom t bs ≠ (true, bs') := by
  intro hmatch
  obtain ⟨-, fields, rfl, hf⟩ := letRow_of_matchFrom hmatch
  cases h with
  | handle => simp [Keyed.find?_cons] at hf
  | record names _ => exact names _ (Keyed.mem_of_find? hf) rfl

end Hides

/-! ## Matching and substitution -/

/-- What variables are bound to. -/
def BindingsHide (bs : Bindings) : Prop := ∀ b ∈ bs, b.2.Hides

theorem hides_of_matchFields {ps fs : List (String × Ty)} {bs bs' : Bindings} (names : ∀ f ∈ ps, f.1 ≠ "let")
    (ih : ∀ f ∈ ps, ∀ (c : Ty) (bs bs' : Bindings), c.Hides → BindingsHide bs → f.2.matchFrom c bs = (true, bs') →
      BindingsHide bs')
    (hc : Hides (.record fs)) (hbs : BindingsHide bs) (h : matchFields ps fs bs = (true, bs')) : BindingsHide bs' := by
  induction ps generalizing bs with
  | nil =>
    rw [matchFields] at h
    cases h
    exact hbs
  | cons p ps ihs =>
    obtain ⟨hname, hnames⟩ := List.forall_mem_cons.mp names
    obtain ⟨hp, hps⟩ := List.forall_mem_cons.mp ih
    rw [matchFields] at h
    split at h
    next => cases h
    next c hf =>
      split at h
      next bs₁ hm => exact ihs hnames hps (hp c bs bs₁ (hc.field hname hf) hbs hm) h
      next => cases h

theorem hides_of_matchParams {ps cs : List Ty} {bs bs' : Bindings}
    (ih : ∀ p ∈ ps, ∀ (c : Ty) (bs bs' : Bindings), c.Hides → BindingsHide bs → p.matchFrom c bs = (true, bs') →
      BindingsHide bs')
    (hc : ∀ c ∈ cs, c.Hides) (hbs : BindingsHide bs) (h : matchParams ps cs bs = (true, bs')) : BindingsHide bs' := by
  induction ps generalizing cs bs with
  | nil =>
    rw [matchParams] at h
    cases h
    exact hbs
    all_goals simp
  | cons p ps ihs =>
    obtain ⟨hp, hps⟩ := List.forall_mem_cons.mp ih
    cases cs with
    | nil =>
      rw [matchParams] at h
      cases h
      exact hbs
      all_goals simp
    | cons c cs =>
      obtain ⟨hhere, hcs⟩ := List.forall_mem_cons.mp hc
      rw [matchParams] at h
      split at h
      next bs₁ hm => exact ihs hps hcs (hp c bs bs₁ hhere hbs hm) h
      next => cases h

theorem hides_of_matchFrom {p c : Ty} {bs bs' : Bindings} (hp : p.Hides) (hc : c.Hides) (hbs : BindingsHide bs)
    (h : p.matchFrom c bs = (true, bs')) : BindingsHide bs' := by
  induction hp generalizing c bs bs' with
  | int | bool | string => cases c <;> simp_all [matchFrom]
  | var n =>
    rw [matchFrom] at h
    unfold matchVar at h
    split at h
    next =>
      obtain ⟨-, rfl⟩ := Prod.mk.inj h
      exact hbs
    next =>
      split at h
      next =>
        obtain ⟨-, rfl⟩ := Prod.mk.inj h
        exact hbs
      next =>
        obtain ⟨-, rfl⟩ := Prod.mk.inj h
        intro b hb
        rcases Keyed.mem_of_mem_insert hb with rfl | hb
        · exact hc
        · exact hbs b hb
  | handle => exact letHandle_of_matchFrom h ▸ hbs
  | @record ps names types ih =>
    cases c with
    | record fs =>
      rw [matchFrom] at h
      split at h
      next => exact hides_of_matchFields names (fun f hf c bs bs' hc hbs hm => ih f hf hc hbs hm) hc hbs h
      next => cases h
    | _ => simp [matchFrom] at h
  | iterator _ ih =>
    cases c with
    | iterator c =>
      cases hc with
      | iterator hc =>
        rw [matchFrom] at h
        exact ih hc hbs h
    | _ => simp [matchFrom] at h
  | function _ _ ihp ihr =>
    cases c with
    | function cs r' =>
      cases hc with
      | function hcs hr =>
        rw [matchFrom] at h
        split at h
        next =>
          split at h
          next bs₁ hps =>
            exact ihr hr (hides_of_matchParams (fun p hp c bs bs' hc hbs hm => ihp p hp hc hbs hm) hcs hbs hps) h
          next => cases h
        next => cases h
    | _ => simp [matchFrom] at h
  | index _ _ ihk ihr =>
    cases c with
    | index k' r' =>
      cases hc with
      | index hk hr =>
        rw [matchFrom] at h
        split at h
        next bs₁ hm => exact ihr hr (ihk hk hbs hm) h
        next => cases h
    | _ => simp [matchFrom] at h

theorem hides_of_substituteFields {ps ts : List (String × Ty)} {bs : Bindings} (names : ∀ f ∈ ps, f.1 ≠ "let")
    (ih : ∀ f ∈ ps, ∀ t, f.2.substitute bs = .ok t → t.Hides) (h : substituteFields bs ps = .ok ts) :
    ∀ f ∈ ts, f.1 ≠ "let" ∧ f.2.Hides := by
  induction ps generalizing ts with
  | nil =>
    cases h
    simp
  | cons p ps ihs =>
    obtain ⟨u, hu, h⟩ := ok_of_bind (by rwa [substituteFields] at h)
    obtain ⟨us, hus, h⟩ := ok_of_bind h
    cases h
    obtain ⟨hname, hnames⟩ := List.forall_mem_cons.mp names
    obtain ⟨hp, hps⟩ := List.forall_mem_cons.mp ih
    exact List.forall_mem_cons.mpr ⟨⟨hname, hp u hu⟩, ihs hnames hps hus⟩

theorem hides_of_substituteParams {ps ts : List Ty} {bs : Bindings}
    (ih : ∀ p ∈ ps, ∀ t, p.substitute bs = .ok t → t.Hides) (h : substituteParams bs ps = .ok ts) :
    ∀ t ∈ ts, t.Hides := by
  induction ps generalizing ts with
  | nil =>
    cases h
    simp
  | cons p ps ihs =>
    obtain ⟨u, hu, h⟩ := ok_of_bind (by rwa [substituteParams] at h)
    obtain ⟨us, hus, h⟩ := ok_of_bind h
    cases h
    obtain ⟨hp, hps⟩ := List.forall_mem_cons.mp ih
    exact List.forall_mem_cons.mpr ⟨hp u hu, ihs hps hus⟩

theorem hides_of_substitute {p t : Ty} {bs : Bindings} (hp : p.Hides) (hbs : BindingsHide bs)
    (h : p.substitute bs = .ok t) : t.Hides := by
  induction hp generalizing t with
  | int | bool | string =>
    rw [substitute] at h
    cases h
    constructor
  | var n =>
    rw [substitute] at h
    split at h
    next bound hf =>
      cases h
      exact hbs _ (Keyed.mem_of_find? hf)
    next => cases h
  | handle =>
    cases h
    exact .handle
  | record names _ ih =>
    obtain ⟨ts, hts, h⟩ := ok_of_bind (by rwa [substitute] at h)
    cases h
    have hall := hides_of_substituteFields names (fun f hf t ht => ih f hf ht) hts
    exact .record (fun f hf => (hall f hf).1) fun f hf => (hall f hf).2
  | iterator _ ih =>
    obtain ⟨u, hu, h⟩ := ok_of_bind (by rwa [substitute] at h)
    cases h
    exact .iterator (ih hu)
  | function _ _ ihp ihr =>
    obtain ⟨ts, hts, h⟩ := ok_of_bind (by rwa [substitute] at h)
    obtain ⟨u, hu, h⟩ := ok_of_bind h
    cases h
    exact .function (hides_of_substituteParams (fun p hp t ht => ihp p hp ht) hts) (ihr hu)
  | index _ _ ihk ihr =>
    obtain ⟨k, hk, h⟩ := ok_of_bind (by rwa [substitute] at h)
    obtain ⟨r, hr, h⟩ := ok_of_bind h
    cases h
    exact .index (ihk hk) (ihr hr)

mutual

/-- No annotation that was read names a field `let`. -/
theorem hides_of_readable : (t : Ty) → t.Readable → t.Hides
  | .int, _ => .int
  | .bool, _ => .bool
  | .string, _ => .string
  | .var n, _ => .var n
  | .record fields, h => .record (fun f hf => Grammar.ne_let (readableFields_iff.mp h f hf).1)
      (hides_of_readableFields fields h)
  | .iterator t, h => .iterator (hides_of_readable t h)
  | .function params result, h => .function (hides_of_readableList params h.1) (hides_of_readable result h.2)
  | .index key row, h => .index (hides_of_readable key h.1) (hides_of_readable row h.2)

theorem hides_of_readableFields : (fields : List (String × Ty)) → ReadableFields fields → ∀ f ∈ fields, f.2.Hides
  | [], _ => by simp
  | (_, t) :: rest, h => List.forall_mem_cons.mpr ⟨hides_of_readable t h.2.1, hides_of_readableFields rest h.2.2⟩

theorem hides_of_readableList : (ts : List Ty) → ReadableList ts → ∀ t ∈ ts, t.Hides
  | [], _ => by simp
  | t :: rest, h => List.forall_mem_cons.mpr ⟨hides_of_readable t h.1, hides_of_readableList rest h.2⟩

end

end Ty

/-! ## Types of expressions -/

/-- The types of all names in scope. -/
def TypeScope.Hides (types : TypeScope) : Prop := ∀ name t, types.lookup name = .ok t → t.Hides

theorem Builtin.hides_ty (b : Builtin) : b.ty.Hides :=
  Ty.hides_of_readable _ (by
    cases b <;> simp [Builtin.ty, Builtin.params, Builtin.result, Ty.Readable, Ty.ReadableList] <;> decide)

theorem TypeScope.hides_root : TypeScope.Hides .root := by
  intro name t h
  have hroot : rootType? name = some t := by
    simp only [TypeScope.lookup, TypeScope.root, Links.find?] at h
    split at h
    next ht =>
      cases h
      exact ht
    next => cases h
  unfold rootType? at hroot
  split at hroot
  next =>
    cases hroot
    exact .bool
  next =>
    obtain ⟨b, -, rfl⟩ := Option.map_eq_some_iff.mp hroot
    exact b.hides_ty

theorem TypeScope.Hides.child {types : TypeScope} (h : types.Hides) {entries : List (String × Ty)}
    (he : ∀ e ∈ entries, e.2.Hides) : TypeScope.Hides (Links.child types entries) := by
  intro name t ht
  cases hf : Keyed.find? (Keyed.ofList entries) name with
  | some u =>
    rw [TypeScope.lookup, Links.child, Links.find?, hf] at ht
    cases ht
    exact he _ (Keyed.mem_of_mem_ofList (Keyed.mem_of_find? hf))
  | none =>
    rw [TypeScope.lookup, Links.child, Links.find?, hf] at ht
    exact h name t ht

namespace Expr

theorem hides_of_inferArgs {args : List Expr} {types : TypeScope} {params : List Ty} {bs bs' : Bindings}
    (ih : ∀ e ∈ args, ∀ t, e.infer types = .ok t → t.Hides) (hp : ∀ p ∈ params, p.Hides) (hbs : Ty.BindingsHide bs)
    (h : inferArgs types params args bs = .ok bs') : Ty.BindingsHide bs' := by
  induction args generalizing params bs with
  | nil =>
    cases params <;> cases h <;> exact hbs
  | cons e args iha =>
    cases params with
    | nil =>
      cases h
      exact hbs
    | cons p params =>
      obtain ⟨he, hargs⟩ := List.forall_mem_cons.mp ih
      obtain ⟨hhere, hps⟩ := List.forall_mem_cons.mp hp
      obtain ⟨t, ht, h⟩ := ok_of_bind h
      obtain ⟨bs₁, hmatch, h⟩ := ok_of_bind h
      have hm : p.matchFrom t bs = (true, bs₁) := by
        unfold matchArg at hmatch
        split at hmatch
        next hm =>
          cases hmatch
          exact hm
        next => cases hmatch
      exact iha hargs hps (Ty.hides_of_matchFrom hhere (he t ht) hbs hm) h

theorem hides_of_inferFields {fields : List (String × Expr)} {types : TypeScope} {ts : List (String × Ty)}
    (names : ∀ f ∈ fields, f.1 ≠ "let") (ih : ∀ e ∈ fields.map Prod.snd, ∀ t, e.infer types = .ok t → t.Hides)
    (h : inferFields types fields = .ok ts) : ∀ f ∈ ts, f.1 ≠ "let" ∧ f.2.Hides := by
  induction fields generalizing ts with
  | nil =>
    cases h
    simp
  | cons f fields ihf =>
    obtain ⟨hname, hnames⟩ := List.forall_mem_cons.mp names
    obtain ⟨hf, hfields⟩ := List.forall_mem_cons.mp ih
    obtain ⟨u, hu, h⟩ := ok_of_bind h
    obtain ⟨us, hus, h⟩ := ok_of_bind h
    cases h
    exact List.forall_mem_cons.mpr ⟨⟨hname, hf u hu⟩, ihf hnames hfields hus⟩

theorem hides_of_inferBindings {bindings : List (String × Expr)} {types types' : TypeScope}
    (ih : ∀ e ∈ bindings.map Prod.snd, ∀ types : TypeScope, types.Hides → ∀ t, e.infer types = .ok t → t.Hides)
    (hs : types.Hides) (h : inferBindings types bindings = .ok types') : types'.Hides := by
  induction bindings generalizing types with
  | nil =>
    cases h
    exact hs
  | cons b bindings ihb =>
    obtain ⟨hb, hbindings⟩ := List.forall_mem_cons.mp ih
    obtain ⟨t, ht, h⟩ := ok_of_bind h
    refine ihb hbindings (hs.child ?_) h
    simpa using hb types hs t ht

/-- No expression that was read has a type with a field named `let`, but that of the handle. -/
theorem infer_hides {e : Expr} (he : e.Everywhere Plain) {types : TypeScope} (hs : types.Hides) {t : Ty}
    (h : e.infer types = .ok t) : t.Hides := by
  induction he generalizing types t with
  | @mk e here inside ih =>
    cases e with
    | int n => cases h; exact .int
    | str s => cases h; exact .string
    | var n => exact hs n t h
    | record fields =>
      obtain ⟨ts, hts, h⟩ := ok_of_bind h
      cases h
      have hall := hides_of_inferFields (fun f hf => Grammar.ne_let (here.2 f hf)) (fun e he t ht => ih e he hs ht) hts
      exact .record (fun f hf => (hall f hf).1) fun f hf => (hall f hf).2
    | lambda params result body =>
      obtain ⟨u, -, h⟩ := ok_of_bind h
      obtain ⟨bs, -, h⟩ := ok_of_bind h
      cases h
      refine .function (List.forall_mem_map.mpr fun p hp => ?_) (Ty.hides_of_readable _ here.2.2)
      exact Ty.hides_of_readable _ (here.1 p hp).2.2
    | call n args site =>
      obtain ⟨⟨params, result⟩, hsig, h⟩ := ok_of_bind h
      dsimp only at h
      have hf : (Ty.function params result).Hides := by
        obtain ⟨u, hu, hsig⟩ := ok_of_bind hsig
        split at hsig
        next =>
          cases hsig
          exact hs n _ hu
        next => cases hsig
      split at h
      next => cases h
      next =>
        obtain ⟨bs, hbs, h⟩ := ok_of_bind h
        cases hf with
        | function hp hr =>
          have hbindings : Ty.BindingsHide bs :=
            hides_of_inferArgs (fun e he t ht => ih e he hs ht) hp (fun b hb => absurd hb List.not_mem_nil) hbs
          exact Ty.hides_of_substitute hr hbindings h
    | member e n =>
      obtain ⟨u, hu, h⟩ := ok_of_bind h
      have hhides := ih e (List.mem_singleton_self e) hs hu
      obtain ⟨fields, rfl, hfield⟩ := memberType_eq_ok_iff.mp h
      exact hhides.field (Grammar.ne_let here) hfield
    | block bindings result =>
      obtain ⟨hbindings, hresult⟩ := List.forall_mem_append.mp ih
      obtain ⟨types', htypes, h⟩ := ok_of_bind h
      exact hresult result (List.mem_singleton_self result)
        (hides_of_inferBindings (fun e he types hs t ht => hbindings e he hs ht) hs htypes) h
    | index i => exact here.elim
    | value v => exact here.elim

end Expr

/-! ## A table that stays empty -/

/-- A table with one column, the key, named `let`. -/
def letTable : Table where
  name := "t"
  columns := [⟨"let", .int, none⟩]
  primaryKey := ⟨"let", .int, none⟩
  declaration := ⟨"t", [{ name := "let", type := .int, primaryKey := true }]⟩

/-- A write that inserts nothing leaves an empty table empty. -/
theorem Write.entries_nil_of_commit {store : Store} {w : Write} {c : Committed} {name : String}
    (hw : ∀ table key row, w ≠ .insert table key row) (hempty : store.entries name = []) (h : w.commit store = .ok c) :
    c.store.entries name = [] := by
  by_cases hname : w.table = name
  · have hnone : ∀ key, store.get? name key = none := fun key => by rw [Store.get?, hempty]; rfl
    cases w with
    | insert table key row => exact absurd rfl (hw table key row)
    | update table key assignments =>
      obtain rfl : table = name := hname
      simp only [Write.commit, hnone] at h
      cases h
      exact hempty
    | delete table key =>
      obtain rfl : table = name := hname
      simp only [Write.commit, hnone] at h
      cases h
      rw [Store.entries_delete, if_pos rfl, hempty]
      rfl
  · rw [entries_of_commit h hname, hempty]

section LetTable

variable {s : Database} (hschema : s.schema = [("t", letTable)])
include hschema

theorem TypeScope.hides_letTable : TypeScope.Hides (Catalog.types s.schema) := by
  have hhandles : handlesType [("t", letTable)] = .record [("t", Ty.letHandle)] := by decide +kernel
  refine hides_root.child fun e he => ?_
  rw [List.mem_singleton.mp he, hschema, hhandles]
  exact .record (List.forall_mem_singleton.mpr (by decide)) (List.forall_mem_singleton.mpr .handle)

/-- No expression makes a row of the table. -/
theorem Database.not_commands_insert {text table : String} {row : Expr} {cmd : Command}
    (read : Statement.read text = .ok (.insert table row)) : ¬s.Commands (.insert table row) cmd := by
  intro commands
  have hplain : row.Everywhere Expr.Plain := Statement.each_of_read Grammar.expr_plain read
  cases commands with
  | @insert t _ _ ty bindings fields key found typed expected =>
    have ht : t = letTable := by
      rw [hschema] at found
      exact congrArg Prod.snd (List.mem_singleton.mp (Keyed.mem_of_find? found))
    have hrow : letTable.rowType = Ty.letRow := by decide +kernel
    have hhides := Expr.infer_hides hplain (TypeScope.hides_letTable hschema) typed
    rw [ht, hrow, Ty.expect, Ty.matching?] at expected
    cases hmatch : Ty.letRow.matchFrom ty [] with
    | mk matched bs =>
      cases matched with
      | true => exact hhides.not_matches [] bs hmatch
      | false =>
        rw [hmatch] at expected
        cases expected

/-- Whatever statement is served, the table stays empty. -/
theorem Database.Serves.entries_letTable (hvalid : s.schema.Valid) (hempty : s.store.entries "t" = []) {o : Origin}
    {text : String} {x : Service} (h : s.Serves o text x) : x.store.entries "t" = [] := by
  cases h with
  | unread | unmade | unprepared | refused | evaluated | unanchored | selected => exact hempty
  | @created d table read admitted =>
    rw [Catalog.persist, Store.entries_touch, Store.entries_put_of_ne _ _ _ (by decide), Store.entries_touch, hempty]
  | @committed st w c read prepares made =>
    refine Write.entries_nil_of_commit ?_ hempty made
    rintro table key row rfl
    obtain ⟨cmd, commands, makes⟩ := prepares.commands hvalid read
    cases commands with
    | insert found typed expected evaluates keyed data =>
      exact not_commands_insert hschema read (.insert found typed expected evaluates keyed data)
    | update => cases makes
    | delete => cases makes

end LetTable

namespace Grown

open Grown.Sample in
/-- There is a table that no statement stores a row in, though there are rows of its type. -/
theorem exists_uninsertable : ∃ s t, Grown s ∧ Keyed.find? s.schema t.name = some t ∧
    (∃ r, t.Fits r ∧ s.store.get? t.name (r.key t).keyBytes = none) ∧
      ∀ o text x, s.Serves o text x → x.store.entries t.name = [] := by
  have hplay : (Database.follow (fun _ => true) 30 [.call letTable.declaration.text, .task 0, .task 0] {}).any (fun s =>
      decide (s.schema = [("t", letTable)]) && decide (s.store.entries "t" = [])) = true := by
    decide +kernel
  obtain ⟨s, hs, htest⟩ := (Option.any_eq_true _ _).mp hplay
  obtain ⟨hschema, hempty⟩ := Bool.and_eq_true_iff.mp htest
  have hgrown : Grown s := Grown.start.onward (.of_follow (.start rfl) hs)
  refine ⟨s, letTable, hgrown, ?_, ⟨[("let", .int 1)], ?_, ?_⟩, fun o text x hserves =>
    hserves.entries_letTable (of_decide_eq_true hschema) hgrown.keepsCatalog.catalog.valid (of_decide_eq_true hempty)⟩
  · rw [of_decide_eq_true hschema]
    rfl
  · rw [Table.Fits]
    decide +kernel
  · rw [Store.get?, show letTable.name = "t" from rfl, of_decide_eq_true hempty]
    rfl

end Grown

end LiveQuery
