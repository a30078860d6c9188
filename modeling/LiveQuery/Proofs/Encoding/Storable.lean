import LiveQuery.Proofs.Encoding.Record

/-! # Storable values

Which values have bytes. A value is refused because of a part of it, itself or a value in one of its
records, that is a sequence, a function or an index (`Value.IsOpaque`); every other value is written, and
read back as it was (`Value.encode_storable`).
-/
namespace LiveQuery.Value

/-- The parts of a value: itself, and the parts of the fields of a record. -/
inductive Part (u : Value) : Value → Prop
  | self : Part u u
  | field {fields : List (String × Value)} {name : String} {v : Value} (mem : (name, v) ∈ fields)
      (part : Part u v) : Part u (.record fields)

/-- Whether a value is a sequence, a function or an index. -/
def IsOpaque : Value → Prop
  | .array .. | .iterator .. | .function _ | .index _ => True
  | .int _ | .bool _ | .str _ | .record _ => False

/-- Data is what has no opaque part and whose records have their fields in key order. -/
theorem isData_iff_parts : (v : Value) →
    (v.IsData ↔ (∀ u, Part u v → ¬u.IsOpaque) ∧ ∀ fields, Part (.record fields) v → Keyed.Ordered fields)
  | .record fields => by
    have hfields := fields_isData_iff fields
    rw [IsData, hfields]
    constructor
    · rintro ⟨hordered, hsealed, hkeys⟩
      refine ⟨fun u hu => ?_, fun gs hg => ?_⟩
      · cases hu with
        | self => exact id
        | field mem part => exact hsealed _ mem u part
      · cases hg with
        | self => exact hordered
        | field mem part => exact hkeys _ mem gs part
    · rintro ⟨hsealed, hkeys⟩
      exact ⟨hkeys fields .self, fun f hf u hu => hsealed u (.field hf hu),
        fun f hf gs hg => hkeys gs (.field hf hg)⟩
  | .int n | .bool b | .str s => by
    refine ⟨fun _ => ⟨fun u hu => ?_, fun gs hg => ?_⟩, fun _ => trivial⟩
    · cases hu with | self => exact id
    · cases hg
  | .array .. | .iterator .. | .function _ | .index _ =>
    ⟨False.elim, fun h => h.1 _ .self trivial⟩
where
  fields_isData_iff : (fields : List (String × Value)) →
      (FieldsAreData fields ↔ (∀ f ∈ fields, ∀ u, Part u f.2 → ¬u.IsOpaque) ∧
        ∀ f ∈ fields, ∀ gs, Part (.record gs) f.2 → Keyed.Ordered gs)
    | [] => by simp [FieldsAreData]
    | (name, v) :: rest => by
      rw [FieldsAreData, isData_iff_parts v, fields_isData_iff rest, List.forall_mem_cons,
        List.forall_mem_cons, and_and_and_comm]

end LiveQuery.Value

namespace LiveQuery.Record

open Value

mutual

/-- A value without opaque parts has an entry; another one is refused for an opaque part. -/
theorem entry_cases : (v : Value) →
    ((∃ e, entry v = .ok e) ∧ ∀ u, Part u v → ¬u.IsOpaque) ∨
      ∃ u, Part u v ∧ u.IsOpaque ∧ entry v = .error (.unsupported u.ty)
  | .int n | .bool b | .str s => by
    refine .inl ⟨⟨_, rfl⟩, fun u hu => ?_⟩
    cases hu with | self => exact id
  | .record fields => by
    rcases fieldEntries_cases fields with ⟨⟨es, hes⟩, hsealed⟩ | ⟨f, hf, u, hu, hsealed, hes⟩
    · refine .inl ⟨⟨recordEntry es, by rw [entry, hes]; rfl⟩, fun u hu => ?_⟩
      cases hu with
      | self => exact id
      | field mem part => exact hsealed _ mem u part
    · exact .inr ⟨u, .field hf hu, hsealed, by rw [entry, hes]; rfl⟩
  | .array es t => .inr ⟨_, .self, trivial, rfl⟩
  | .iterator h t => .inr ⟨_, .self, trivial, rfl⟩
  | .function f => .inr ⟨_, .self, trivial, rfl⟩
  | .index i => .inr ⟨_, .self, trivial, rfl⟩

theorem fieldEntries_cases : (fields : List (String × Value)) →
    ((∃ es, fieldEntries fields = .ok es) ∧ ∀ f ∈ fields, ∀ u, Part u f.2 → ¬u.IsOpaque) ∨
      ∃ f ∈ fields, ∃ u, Part u f.2 ∧ u.IsOpaque ∧ fieldEntries fields = .error (.unsupported u.ty)
  | [] => .inl ⟨⟨[], rfl⟩, by simp⟩
  | (name, v) :: rest => by
    rcases entry_cases v with ⟨⟨e, he⟩, hsealed⟩ | ⟨u, hu, hsealed, he⟩
    · rcases fieldEntries_cases rest with ⟨⟨es, hes⟩, hrest⟩ | ⟨f, hf, u, hu, hsealed, hes⟩
      · exact .inl ⟨⟨textEntry name :: e :: es, by rw [fieldEntries, he]; simp only [hes]; rfl⟩,
          List.forall_mem_cons.mpr ⟨hsealed, hrest⟩⟩
      · exact .inr ⟨f, List.mem_cons_of_mem _ hf, u, hu, hsealed,
          by rw [fieldEntries, he]; simp only [hes]; rfl⟩
    · exact .inr ⟨(name, v), List.mem_cons_self, u, hu, hsealed, by rw [fieldEntries, he]; rfl⟩

end

end LiveQuery.Record

namespace LiveQuery.Value

/-- Data can be stored. -/
theorem exists_encode {v : Value} (h : v.IsData) : ∃ b, v.encode = .ok b := by
  obtain ⟨hopen, -⟩ := (isData_iff_parts v).mp h
  rcases Record.entry_cases v with ⟨⟨e, he⟩, -⟩ | ⟨u, hpart, hopaque, -⟩
  · exact ⟨_, by rw [encode, he]; rfl⟩
  · exact absurd hopaque (hopen u hpart)

/-- A value has bytes unless it has an opaque part, and what is written is read back as it was. The maps
of its records are in key order, and its serial type is a signed number of 64 bits. -/
theorem encode_storable {v : Value} (hkeys : ∀ fields, Part (.record fields) v → Keyed.Ordered fields)
    (hcode : ∀ e, Record.entry v = .ok e → e.code < 2 ^ 63) :
    ((∃ t, v.encode = .error (.unsupported t)) ↔ ∃ u, Part u v ∧ u.IsOpaque) ∧
      ((∀ u, Part u v → ¬u.IsOpaque) → ∃ b, v.encode = .ok b ∧ Value.decode b = .ok v) := by
  rcases Record.entry_cases v with ⟨⟨e, he⟩, hstorable⟩ | ⟨u, hu, hsealed, he⟩
  · have hencode : v.encode = .ok (Record.assemble [e]) := by rw [encode, he]; rfl
    have hsmall : 2 * e.code < Varint.wordRange := by
      have := hcode e he
      rw [Varint.wordRange]
      omega
    refine ⟨⟨?_, ?_⟩, fun _ => ?_⟩
    · rintro ⟨t, ht⟩
      rw [hencode] at ht
      cases ht
    · rintro ⟨u, hu, hsealed⟩
      exact (hstorable u hu hsealed).elim
    · exact ⟨_, hencode, decode_assemble ((isData_iff_parts v).mpr ⟨hstorable, hkeys⟩) he hsmall⟩
  · have hencode : v.encode = .error (.unsupported u.ty) := by rw [encode, he]; rfl
    exact ⟨⟨fun _ => ⟨u, hu, hsealed⟩, fun _ => ⟨_, hencode⟩⟩, fun h => (h u hu hsealed).elim⟩

/-- The cubes of seventy numbers, named by characters. The serial types of the names and numbers take more
bytes than a header length of one byte can count. -/
def cubeFields : List (String × Value) :=
  (List.range 70).map fun i => (String.singleton (Char.ofNat (48 + i)), .int (Int64.ofNat (i * i * i)))

/-- The cubes are written behind a header of 142 bytes, whose length takes two of them, and read back. -/
theorem encode_storable_cubes :
    (∀ fields, Part (.record fields) (.record cubeFields) → Keyed.Ordered fields) ∧
      (∀ e, Record.entry (.record cubeFields) = .ok e → e.code < 2 ^ 63) ∧
      (∀ u, Part u (.record cubeFields) → ¬u.IsOpaque) ∧
      ∃ b, (Value.record cubeFields).encode = .ok b ∧ Varint.read (b.drop 3) = .ok (142, 2) ∧
        Value.decode b = .ok (.record cubeFields) := by
  have hints : ∀ f ∈ cubeFields, ∃ n, f.2 = .int n := by
    intro f hf
    obtain ⟨i, -, rfl⟩ := List.mem_map.mp hf
    exact ⟨_, rfl⟩
  have hordered : Keyed.Ordered cubeFields := by
    rw [Keyed.Ordered]
    decide +kernel
  have hparts : ∀ u, Part u (.record cubeFields) → u = .record cubeFields ∨ ∃ n, u = .int n := by
    intro u hu
    cases hu with
    | self => exact .inl rfl
    | field mem part =>
      obtain ⟨n, hn⟩ := hints _ mem
      dsimp only at hn
      subst hn
      cases part with | self => exact .inr ⟨n, rfl⟩
  have hkeys : ∀ fields, Part (.record fields) (.record cubeFields) → Keyed.Ordered fields := by
    intro fields hpart
    rcases hparts _ hpart with heq | ⟨n, hn⟩
    · cases heq
      exact hordered
    · cases hn
  have hcode : ∀ e, Record.entry (.record cubeFields) = .ok e → e.code < 2 ^ 63 := by
    have hall : ((Record.entry (.record cubeFields)).toOption.all fun e => decide (e.code < 2 ^ 63)) = true := by
      decide +kernel
    intro e he
    rw [he] at hall
    exact of_decide_eq_true hall
  have hsealed : ∀ u, Part u (.record cubeFields) → ¬u.IsOpaque := by
    intro u hu
    rcases hparts u hu with rfl | ⟨n, rfl⟩ <;> exact id
  obtain ⟨b, hb, hdecode⟩ := (encode_storable hkeys hcode).2 hsealed
  refine ⟨hkeys, hcode, hsealed, b, hb, ?_, hdecode⟩
  have hheader : ((Value.record cubeFields).encode.toOption.all fun b =>
      decide (Varint.read (b.drop 3) = .ok (142, 2))) = true := by
    decide +kernel
  rw [hb] at hheader
  exact of_decide_eq_true hheader

end LiveQuery.Value
