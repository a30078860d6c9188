import LiveQuery.Proofs.Encoding.Record
import Mathlib.Order.Bounds.Defs

/-! # Where the bodies of entries start

The length of a header counts its own bytes, and a larger length may take more of them, so the length that is searched
moves away while it is approached. It is searched by counting up (`Record.CountsTo`), without a limit on the count.

The main result, `Record.headerLength_least`, says that the count comes to its end for every list of entries, that it
ends at the least length that fits, and that this is where the reader finds the bodies.
-/
namespace LiveQuery.Record

/-- The length is the size of its own bytes and of `types` bytes of serial types. -/
def Fits (types length : Nat) : Prop := (Varint.write length).length + types = length

instance (types length : Nat) : Decidable (Fits types length) :=
  inferInstanceAs (Decidable ((Varint.write length).length + types = length))

/-- Counting up from `length`, for as long as the count does not fit, ends at `last`. -/
inductive CountsTo (types : Nat) : (length last : Nat) → Prop
  | stop {length : Nat} (fits : Fits types length) : CountsTo types length length
  | next {length last : Nat} (unfit : ¬Fits types length) (rest : CountsTo types (length + 1) last) :
      CountsTo types length last

variable {types length last : Nat}

theorem Fits.lt (h : Fits types length) : types < length := by
  have hpos := Varint.length_write_pos length
  rw [Fits] at h
  omega

theorem Fits.le (h : Fits types length) : length ≤ types + 9 := by
  have hnine := Varint.length_write_le length
  rw [Fits] at h
  omega

/-! ## Counting -/

namespace CountsTo

theorem fits (h : CountsTo types length last) : Fits types last := by
  induction h with
  | stop fits => exact fits
  | next _ _ ih => exact ih

/-- The count does not pass a length that fits. -/
theorem le_of_fits (h : CountsTo types length last) {n : Nat} (hn : Fits types n) (hle : length ≤ n) : last ≤ n := by
  induction h with
  | stop => exact hle
  | @next length _ unfit _ ih =>
    have hne : length ≠ n := by
      rintro rfl
      exact unfit hn
    exact ih (by omega)

/-- What is counted within a limit is counted without one, if it ended because of a fit. -/
theorem of_steps {steps : Nat} (h : Fits types (headerLengthFrom steps types length)) :
    CountsTo types length (headerLengthFrom steps types length) := by
  induction steps generalizing length with
  | zero => exact .stop h
  | succ steps ih =>
    rw [headerLengthFrom] at h ⊢
    by_cases hfit : (Varint.write length).length + types = length
    · rw [if_pos hfit]
      exact .stop hfit
    · rw [if_neg hfit] at h ⊢
      exact .next hfit (ih h)

end CountsTo

theorem fits_headerLength (types : Nat) : Fits types (headerLength types) := headerLength_spec types

theorem countsTo_headerLength (types : Nat) : CountsTo types (types + 1) (headerLength types) :=
  .of_steps (fits_headerLength types)

/-- A length that fits is larger than the serial types, so that nothing below the start of the count is missed. -/
theorem isLeast_headerLength (types : Nat) : IsLeast {n | Fits types n} (headerLength types) :=
  ⟨fits_headerLength types, fun _ hn => (countsTo_headerLength types).le_of_fits hn hn.lt⟩

/-! ## Reading -/

section

variable (es : List Entry) (rest : Bytes)

/-- The header length and the serial types end where the bodies begin. -/
theorem drop_assemble :
    (assemble es ++ rest).drop (headerLength (typeBytes es).length) = es.flatMap Entry.body ++ rest := by
  have hfits := headerLength_spec (typeBytes es).length
  rw [assemble, List.append_assoc, List.drop_left' (by rw [List.length_append, hfits])]

theorem take_assemble : (assemble es ++ rest).take (headerLength (typeBytes es).length) =
    Varint.write (headerLength (typeBytes es).length) ++ typeBytes es := by
  have hfits := headerLength_spec (typeBytes es).length
  rw [assemble, List.append_assoc, List.take_left' (by rw [List.length_append, hfits])]

/-- The reader takes what stands in front for the header length, if that is a signed number of 64 bits. -/
theorem entriesWithin_eq_readEntries (depth : Nat) (h : headerLength (typeBytes es).length < 2 ^ 63) :
    entriesWithin (depth + 1) (assemble es ++ rest) =
      readEntries (bodyValue (entriesWithin depth)) (assemble es ++ rest) (headerLength (typeBytes es).length)
        (headerLength (typeBytes es).length) (Varint.write (headerLength (typeBytes es).length)).length
        (headerLength (typeBytes es).length) := by
  have hword : Varint.wordRange = 18446744073709551616 := rfl
  have hread : Varint.read (assemble es ++ rest) = .ok ((headerLength (typeBytes es).length : Int),
      (Varint.write (headerLength (typeBytes es).length)).length) := by
    rw [assemble, List.append_assoc, List.append_assoc, Varint.read_write (by omega), Varint.signed_of_lt (by omega)]
  have hlength : headerLength (typeBytes es).length ≤ (assemble es ++ rest).length := by
    have hassemble := length_assemble es
    rw [List.length_append]
    omega
  rw [entriesWithin, hread]
  simp only [bind, Except.bind]
  rw [if_neg (by omega)]
  rfl

/-- For every list of entries the count of the header length comes to its end, at most nine above the size of the
serial types, and no smaller length fits. The bytes before the length are the header and those behind it the bodies; and
the reader, if the length is a signed number of 64 bits, reads serial types up to it and bodies from it on. -/
theorem headerLength_least (depth : Nat) :
    let types := typeBytes es
    let bodies := headerLength types.length
    CountsTo types.length (types.length + 1) bodies ∧
      IsLeast {n | (Varint.write n).length + types.length = n} bodies ∧ bodies ≤ types.length + 9 ∧
      (assemble es ++ rest).take bodies = Varint.write bodies ++ types ∧
      (assemble es ++ rest).drop bodies = es.flatMap Entry.body ++ rest ∧
      (bodies < 2 ^ 63 → entriesWithin (depth + 1) (assemble es ++ rest) =
        readEntries (bodyValue (entriesWithin depth)) (assemble es ++ rest) bodies bodies
          (Varint.write bodies).length bodies) :=
  ⟨countsTo_headerLength _, isLeast_headerLength _, (fits_headerLength _).le, take_assemble es rest,
    drop_assemble es rest, entriesWithin_eq_readEntries es rest depth⟩

/-- The serial types of 127 small numbers take 127 bytes. A header of 128 bytes would be one byte short of the
length that it then has, so the header takes 129. -/
theorem headerLength_least_skips :
    let zeros : List Entry := List.replicate 127 ⟨8, []⟩
    (typeBytes zeros).length = 127 ∧ ¬Fits 127 128 ∧ headerLength 127 = 129 ∧ 129 < 2 ^ 63 ∧
      entriesWithin 1 (assemble zeros ++ [7]) =
        readEntries (bodyValue (entriesWithin 0)) (assemble zeros ++ [7]) 129 129 2 129 := by
  intro zeros
  have htypes : (typeBytes zeros).length = 127 := by decide +kernel
  have hlength : headerLength 127 = 129 := by decide +kernel
  obtain ⟨-, -, -, -, -, hread⟩ := headerLength_least zeros [7] 0
  rw [htypes, hlength] at hread
  exact ⟨htypes, by decide, hlength, by decide, hread (by decide)⟩

end

end LiveQuery.Record
