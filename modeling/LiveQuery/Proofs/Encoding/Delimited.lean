import LiveQuery.Proofs.Encoding.Storable

/-! # Bytes that say where they end

The bytes of a value say how many they are: the value is read back from the front of any bytes that begin with them, and
nothing is read from less than all of them (`Value.decode_delimited`). Wherever they are cut, in the length of the
header, in the serial type or in the body, the record is truncated; a record inside of the body does not matter, since a
body that is not there in full is not looked into.
-/
namespace LiveQuery

namespace Varint

/-- What a number is read from cannot be cut short. -/
theorem readFrom_take {left taken n j k : Nat} {b : Bytes} {v : Int} (h : readFrom left taken n b = .ok (v, k))
    (hj : taken + j < k) : readFrom left taken n (b.take j) = .error .truncated := by
  induction b generalizing left taken n j with
  | nil => cases left <;> cases h
  | cons x rest ih =>
    cases j with
    | zero => cases left <;> rfl
    | succ j =>
      rw [List.take_succ_cons]
      cases left with
      | zero =>
        rw [readFrom] at h
        cases h
        omega
      | succ left =>
        rw [readFrom] at h ⊢
        split at h
        next =>
          cases h
          omega
        next hmarked =>
          rw [if_neg hmarked]
          exact ih h (by omega)

theorem read_take_write {n j : Nat} (hn : n < wordRange) (hj : j < (write n).length) :
    read ((write n).take j) = .error .truncated := by
  have hread := read_write hn []
  rw [List.append_nil] at hread
  exact readFrom_take hread (by omega)

end Varint

namespace Record

variable {e : Entry} {n : Nat}

/-- The header length is there in full. -/
theorem read_take_assemble {es : List Entry} (hb : 2 * (assemble es).length < Varint.wordRange)
    (hn : (Varint.write (headerLength (typeBytes es).length)).length ≤ n) :
    Varint.read ((assemble es).take n) = .ok (headerLength (typeBytes es).length,
      (Varint.write (headerLength (typeBytes es).length)).length) := by
  have hlen := length_assemble es
  rw [assemble, List.append_assoc, List.take_append, List.take_of_length_le hn, Varint.read_write (by omega),
    Varint.signed_of_lt (by omega)]

/-- Entries that are cut inside of their header are truncated. -/
theorem entriesWithin_take_header {es : List Entry} (depth : Nat) (hb : 2 * (assemble es).length < Varint.wordRange)
    (hn : n < headerLength (typeBytes es).length) :
    entriesWithin (depth + 1) ((assemble es).take n) = .error .truncated := by
  have hlen := length_assemble es
  by_cases hcut : n < (Varint.write (headerLength (typeBytes es).length)).length
  · have hread : Varint.read ((assemble es).take n) = .error .truncated := by
      rw [assemble, List.append_assoc, List.take_append_of_le_length (Nat.le_of_lt hcut)]
      exact Varint.read_take_write (by omega) hcut
    rw [entriesWithin, hread]
    rfl
  · have hshort : ((assemble es).take n).length = n := by
      rw [List.length_take]
      omega
    rw [entriesWithin, read_take_assemble hb (by omega)]
    simp only [bind, Except.bind]
    rw [if_pos (.inr (by omega))]
    rfl

/-- An entry that is cut inside of its body is truncated. -/
theorem entriesWithin_take_body (depth : Nat) (hb : 2 * (assemble [e]).length < Varint.wordRange)
    (hsmall : 2 * e.code < Varint.wordRange) (hsize : bodySize e.code = .ok e.body.length)
    (hheader : headerLength (typeBytes [e]).length ≤ n) (hn : n < (assemble [e]).length) :
    entriesWithin (depth + 1) ((assemble [e]).take n) = .error .truncated := by
  have htypes : typeBytes [e] = Varint.write e.code := List.flatMap_singleton ..
  have hbodies : [e].flatMap Entry.body = e.body := List.flatMap_singleton ..
  have hlen := length_assemble [e]
  have hspec := headerLength_spec (typeBytes [e]).length
  have hread := read_take_assemble hb (n := n) (by omega)
  rw [htypes] at hheader hspec hread
  rw [htypes, hbodies] at hlen
  have hpos := Varint.length_write_pos e.code
  have hshort : ((assemble [e]).take n).length = n := by
    rw [List.length_take]
    omega
  have hsplit : (assemble [e]).take n = Varint.write (headerLength (Varint.write e.code).length) ++
      (Varint.write e.code ++ e.body.take (n - headerLength (Varint.write e.code).length)) := by
    rw [assemble, htypes, hbodies, List.take_append,
      List.take_of_length_le (by rw [List.length_append]; omega), List.length_append, hspec, List.append_assoc]
  have hcode : Varint.read (((assemble [e]).take n).drop
      (Varint.write (headerLength (Varint.write e.code).length)).length) =
        .ok (e.code, (Varint.write e.code).length) := by
    rw [hsplit, List.drop_left, Varint.read_write (by omega), Varint.signed_of_lt hsmall]
  have hslice : slice ((assemble [e]).take n) (headerLength (Varint.write e.code).length) e.body.length =
      .error .truncated := by
    rw [slice, if_neg (by omega)]
  obtain ⟨steps, hsteps⟩ : ∃ steps, headerLength (Varint.write e.code).length = steps + 1 :=
    ⟨headerLength (Varint.write e.code).length - 1, by omega⟩
  rw [entriesWithin, hread]
  simp only [bind, Except.bind]
  rw [if_neg (by omega), Int.toNat_natCast]
  nth_rewrite 2 [hsteps]
  rw [readEntries, if_pos (by omega), hcode]
  simp only [bind, Except.bind, hsize, hslice]

end Record

namespace Value

/-- The bytes of data are read back as the data whatever bytes follow, and without the last of them they are truncated.
The serial type is a signed number of 64 bits. -/
theorem decode_delimited {v : Value} (data : v.IsData) (hcode : ∀ e, Record.entry v = .ok e → e.code < 2 ^ 63) :
    ∃ b, v.encode = .ok b ∧ (∀ s, Value.decode (b ++ s) = .ok v) ∧
      ∀ p, p <+: b → p ≠ b → Value.decode p = .error .truncated := by
  obtain ⟨b, hencode⟩ := exists_encode data
  obtain ⟨e, he, h⟩ := ok_of_bind hencode
  cases h
  have hsmall : 2 * e.code < Varint.wordRange := by
    have := hcode e he
    rw [Varint.wordRange]
    omega
  have hb := length_assemble_lt he hsmall
  refine ⟨_, hencode, decode_assemble_append data he hsmall, fun p hp hne => ?_⟩
  have htake : (Record.assemble [e]).take p.length = p := (List.prefix_iff_eq_take.mp hp).symm
  have hlt : p.length < (Record.assemble [e]).length :=
    Nat.lt_of_le_of_ne hp.length_le fun heq => hne (hp.eq_of_length heq)
  have hsize := (Record.entry_reads v data e he hsmall (e.body.length + 1) (Nat.lt_succ_self _)).size
  have hentries : Record.entriesWithin (p.length + 1) ((Record.assemble [e]).take p.length) = .error .truncated := by
    rcases Nat.lt_or_ge p.length (Record.headerLength (Record.typeBytes [e]).length) with hheader | hbody
    · exact Record.entriesWithin_take_header _ hb hheader
    · exact Record.entriesWithin_take_body _ hb hsmall hsize hbody hlt
  rw [htake] at hentries
  rw [decode, Record.entries, hentries]
  rfl

/-- A record with a number of two bytes and a record inside. -/
def nestedFields : List (String × Value) := [("a", .int 300), ("b", .record [("c", .str "x")])]

/-- The nested record is read in front of another byte and not without its last one. -/
theorem decode_delimited_nested : (Value.record nestedFields).IsData ∧
    (∀ e, Record.entry (.record nestedFields) = .ok e → e.code < 2 ^ 63) ∧
      ∃ b, (Value.record nestedFields).encode = .ok b ∧ Value.decode (b ++ [7]) = .ok (.record nestedFields) ∧
        b.dropLast ≠ b ∧ Value.decode b.dropLast = .error .truncated := by
  have hdata : (Value.record nestedFields).IsData := by
    refine ⟨?_, trivial, ⟨?_, trivial, trivial⟩, trivial⟩ <;> rw [Keyed.Ordered] <;> decide
  have hcode : ∀ e, Record.entry (.record nestedFields) = .ok e → e.code < 2 ^ 63 := by
    have hall : ((Record.entry (.record nestedFields)).toOption.all fun e => decide (e.code < 2 ^ 63)) = true := by
      decide +kernel
    intro e he
    rw [he] at hall
    exact of_decide_eq_true hall
  obtain ⟨b, hb, happend, hprefix⟩ := decode_delimited hdata hcode
  have hne : b.dropLast ≠ b := by
    intro heq
    have hnil : b = [] := by
      have := congrArg List.length heq
      rw [List.length_dropLast] at this
      exact List.eq_nil_of_length_eq_zero (by omega)
    have hread := happend []
    rw [hnil] at hread
    cases hread
  exact ⟨hdata, hcode, b, hb, happend [7], hne, hprefix _ (List.dropLast_prefix b) hne⟩

end Value

end LiveQuery
