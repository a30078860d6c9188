import LiveQuery.Proofs.Encoding.Words
import Mathlib.Tactic.Tauto

/-! # The order of keys

Bytes are compared one by one from the front, and a start comes before what goes on. Numbers of one width are in this
order as their bytes are (`BigEndian.write_lt_iff`), and so are texts (`Text.utf8_lt_iff`): the first byte of a
character grows with the number of bytes that follow, and those are digits of its code point, the most significant one
first. So a table whose entries lie in the order of their bytes has its rows in the order of their keys
(`Literal.toKey_ordered`).
-/
namespace LiveQuery

/-! ## Comparing bytes -/

namespace Bytes

variable {a b l r : Bytes}

theorem append_lt_append_iff (h : a.length = b.length) : a ++ l < b ++ r ↔ a < b ∨ a = b ∧ l < r := by
  induction a generalizing b with
  | nil =>
    obtain rfl : b = [] := List.eq_nil_of_length_eq_zero h.symm
    simp
  | cons x a ih =>
    cases b with
    | nil => cases h
    | cons y b =>
      rw [List.cons_append, List.cons_append, List.cons_lt_cons_iff, List.cons_lt_cons_iff, ih (Nat.succ.inj h),
        List.cons.injEq]
      tauto

theorem ofNat_cons_lt {m n : Nat} (hm : m < 256) (hn : n < 256) (h : m < n) :
    UInt8.ofNat m :: l < UInt8.ofNat n :: r :=
  List.cons_lt_cons_iff.mpr (.inl ((UInt8.ofNat_lt_iff_lt hm hn).mpr h))

end Bytes

/-! ## Numbers of one width -/

namespace BigEndian

theorem write_injective {w m n : Nat} (hm : m < range w) (hn : n < range w) (h : write w m = write w n) : m = n := by
  have hread := congrArg read h
  rwa [read_write, read_write, Nat.mod_eq_of_lt hm, Nat.mod_eq_of_lt hn] at hread

theorem write_lt_iff {w m n : Nat} (hm : m < range w) (hn : n < range w) : write w m < write w n ↔ m < n := by
  induction w generalizing m n with
  | zero =>
    rw [range] at hm hn
    obtain rfl : m = 0 := by omega
    obtain rfl : n = 0 := by omega
    simp
  | succ w ih =>
    have hm' : m / 256 < range w := by
      rw [range] at hm
      omega
    have hn' : n / 256 < range w := by
      rw [range] at hn
      omega
    have hbyte : UInt8.ofNat m < UInt8.ofNat n ↔ m % 256 < n % 256 := by
      rw [UInt8.lt_iff_toNat_lt, UInt8.toNat_ofNat', UInt8.toNat_ofNat']
    have hhigh : write w (m / 256) = write w (n / 256) ↔ m / 256 = n / 256 :=
      ⟨write_injective hm' hn', fun h => by rw [h]⟩
    rw [write, write, Bytes.append_lt_append_iff (by rw [length_write, length_write]), ih hm' hn', hhigh,
      List.cons_lt_cons_iff, hbyte]
    simp only [List.lt_irrefl, and_false, or_false]
    omega

end BigEndian

/-! ## Texts -/

namespace Text

/-- The last `count` base-64 digits of a code point, as the bytes that follow the first one. -/
def trail : (count : Nat) → (n : Nat) → Bytes
  | 0, _ => []
  | count + 1, n => UInt8.ofNat (128 + n / 64 ^ count % 64) :: trail count n

/-- How many bytes follow the first byte of a code point. -/
def followers (n : Nat) : Nat := if n < 0x80 then 0 else if n < 0x800 then 1 else if n < 0x10000 then 2 else 3

/-- What the first byte has in front of the most significant digits, if `count` bytes follow. -/
def mark : (count : Nat) → Nat
  | 0 => 0
  | 1 => 192
  | 2 => 224
  | _ => 240

theorem followers_cases (n : Nat) : n < 0x80 ∧ followers n = 0 ∨ 0x80 ≤ n ∧ n < 0x800 ∧ followers n = 1 ∨
    0x800 ≤ n ∧ n < 0x10000 ∧ followers n = 2 ∨ 0x10000 ≤ n ∧ followers n = 3 := by
  unfold followers
  repeat' split
  all_goals omega

theorem toNat_lt (c : Char) : c.toNat < 0x110000 := by
  have hvalid : c.toNat < 0xD800 ∨ 0xDFFF < c.toNat ∧ c.toNat < 0x110000 := c.valid
  omega

theorem utf8EncodeChar_eq (c : Char) : String.utf8EncodeChar c =
    UInt8.ofNat (mark (followers c.toNat) + c.toNat / 64 ^ followers c.toNat) ::
      trail (followers c.toNat) c.toNat := by
  have hmax := toNat_lt c
  rw [String.utf8EncodeChar, Char.toNat_val]
  generalize c.toNat = n at hmax
  rcases followers_cases n with ⟨h, hf⟩ | ⟨hl, h, hf⟩ | ⟨hl, h, hf⟩ | ⟨hl, hf⟩
  · rw [if_pos (by omega), hf]
    simp [mark, trail]
  · have hlead : n / 64 % 32 + 192 = 192 + n / 64 := by omega
    rw [if_neg (by omega), if_pos (by omega), hf, hlead]
    simp [mark, trail, Nat.add_comm]
  · have hlead : n / 4096 % 16 + 224 = 224 + n / 4096 := by omega
    rw [if_neg (by omega), if_neg (by omega), if_pos (by omega), hf, hlead]
    simp [mark, trail, Nat.add_comm]
  · have hlead : n / 262144 % 8 + 240 = 240 + n / 262144 := by omega
    rw [if_neg (by omega), if_neg (by omega), if_neg (by omega), hf, hlead]
    simp [mark, trail, Nat.add_comm]

theorem trail_lt (count : Nat) {m n : Nat} (h : m % 64 ^ count < n % 64 ^ count) (l r : Bytes) :
    trail count m ++ l < trail count n ++ r := by
  induction count with
  | zero => omega
  | succ count ih =>
    rw [Nat.pow_succ, Nat.mod_mul, Nat.mod_mul] at h
    rw [trail, trail, List.cons_append, List.cons_append]
    have hm : m % 64 ^ count < 64 ^ count := Nat.mod_lt m (Nat.pow_pos (by decide))
    have hn : n % 64 ^ count < 64 ^ count := Nat.mod_lt n (Nat.pow_pos (by decide))
    rcases Nat.lt_trichotomy (m / 64 ^ count % 64) (n / 64 ^ count % 64) with hlt | heq | hgt
    · exact Bytes.ofNat_cons_lt (by omega) (by omega) (by omega)
    · rw [heq] at h ⊢
      exact List.cons_lt_cons_iff.mpr (.inr ⟨rfl, ih (by omega)⟩)
    · -- a smaller digit in front is not made up for by those behind it
      have hmul := Nat.mul_le_mul_left (64 ^ count) hgt
      rw [Nat.mul_succ] at hmul
      omega

/-- The first byte of a character. -/
def lead (n : Nat) : Nat := mark (followers n) + n / 64 ^ followers n

theorem lead_lt_of_followers {m n : Nat} (h : followers m < followers n) : lead m < lead n := by
  unfold lead
  rcases followers_cases m with ⟨hm, hf⟩ | ⟨-, hm, hf⟩ | ⟨-, hm, hf⟩ | ⟨hm, hf⟩ <;>
    rcases followers_cases n with ⟨hn, hg⟩ | ⟨hn, -, hg⟩ | ⟨hn, -, hg⟩ | ⟨hn, hg⟩ <;>
    rw [hf, hg] at h ⊢ <;> simp only [mark] <;> omega

theorem lead_lt {n : Nat} (h : n < 0x110000) : lead n < 256 := by
  unfold lead
  rcases followers_cases n with ⟨hn, hf⟩ | ⟨-, hn, hf⟩ | ⟨-, hn, hf⟩ | ⟨-, hf⟩ <;>
    rw [hf] <;> simp only [mark] <;> omega

/-- A character before another one has its bytes before those of the other, whatever follows them. -/
theorem utf8EncodeChar_lt {c d : Char} (h : c < d) (l r : Bytes) :
    String.utf8EncodeChar c ++ l < String.utf8EncodeChar d ++ r := by
  have hlt : c.toNat < d.toNat := UInt32.lt_iff_toNat_lt.mp h
  have hc := lead_lt (toNat_lt c)
  have hd := lead_lt (toNat_lt d)
  rw [utf8EncodeChar_eq, utf8EncodeChar_eq, List.cons_append, List.cons_append]
  generalize c.toNat = m at hlt hc
  generalize d.toNat = n at hlt hd
  have hle : followers m ≤ followers n := by
    have := followers_cases m
    have := followers_cases n
    omega
  rcases Nat.lt_or_eq_of_le hle with hfewer | hsame
  · exact Bytes.ofNat_cons_lt hc hd (lead_lt_of_followers hfewer)
  · rw [lead, hsame] at hc
    rw [lead] at hd
    rw [hsame]
    rcases Nat.lt_or_eq_of_le (Nat.div_le_div_right (c := 64 ^ followers n) (Nat.le_of_lt hlt)) with hfirst | hfirst
    · exact Bytes.ofNat_cons_lt hc hd (by omega)
    · have hm := Nat.div_add_mod m (64 ^ followers n)
      have hn := Nat.div_add_mod n (64 ^ followers n)
      rw [hfirst] at hm ⊢
      exact List.cons_lt_cons_iff.mpr (.inr ⟨rfl, trail_lt _ (by omega) l r⟩)

theorem utf8_eq (s : String) : utf8 s = s.toList.flatMap String.utf8EncodeChar := by
  have hbytes : (String.ofList s.toList).toUTF8 = (s.toList.flatMap String.utf8EncodeChar).toByteArray := rfl
  rw [String.ofList_toList] at hbytes
  rw [utf8, hbytes, ByteArray.toList, toList_loop, List.data_toByteArray]
  rfl

theorem flatMap_utf8EncodeChar_lt {cs ds : List Char} (h : cs < ds) :
    cs.flatMap String.utf8EncodeChar < ds.flatMap String.utf8EncodeChar := by
  induction cs generalizing ds with
  | nil =>
    cases ds with
    | nil => exact absurd h (List.lt_irrefl [])
    | cons d ds =>
      rw [List.flatMap_nil, List.flatMap_cons, utf8EncodeChar_eq, List.cons_append]
      exact List.nil_lt_cons _ _
  | cons c cs ih =>
    cases ds with
    | nil => exact absurd h (List.not_lt_nil _)
    | cons d ds =>
      rw [List.flatMap_cons, List.flatMap_cons]
      rcases List.cons_lt_cons_iff.mp h with hlt | ⟨rfl, hlt⟩
      · exact utf8EncodeChar_lt hlt _ _
      · exact List.append_left_lt (ih hlt)

/-- The bytes of texts are in the order of the code points of their characters. -/
theorem utf8_lt_iff {s t : String} : utf8 s < utf8 t ↔ s.toList < t.toList := by
  have hmono : ∀ {s t : String}, s.toList < t.toList → utf8 s < utf8 t := by
    intro s t h
    rw [utf8_eq, utf8_eq]
    exact flatMap_utf8EncodeChar_lt h
  refine ⟨fun h => Decidable.byContradiction fun hnot => ?_, hmono⟩
  by_cases hback : t.toList < s.toList
  · exact List.lt_asymm h (hmono hback)
  · have heq : s.toList = t.toList := Std.Trichotomous.trichotomous s.toList t.toList hnot hback
    rw [String.toList_inj.mp heq] at h
    exact List.lt_irrefl _ h

end Text

/-! ## Keys -/

/-- A value comes before another one of its type: numbers by their sign and size, false before true, texts by the code
points of their characters. -/
def Literal.Precedes : Literal → Literal → Prop
  | .int m, .int n => m.toInt < n.toInt
  | .bool x, .bool y => x = false ∧ y = true
  | .str s, .str t => s.toList < t.toList
  | _, _ => False

namespace Literal

/-- The keys of values of one type are in the order of the values. -/
theorem keyBytes_lt_iff {a b : Literal} (same : a.ty = b.ty) : a.keyBytes < b.keyBytes ↔ a.Precedes b := by
  cases a with
  | int m =>
    cases b with
    | int n =>
      have hm := m.le_toInt
      have hm' := m.toInt_lt
      have hn := n.le_toInt
      have hn' := n.toInt_lt
      have hrange : BigEndian.range 8 = 18446744073709551616 := rfl
      have hoffset : keyOffset = 9223372036854775808 := rfl
      rw [keyBytes, keyBytes, BigEndian.write_lt_iff (by omega) (by omega), Precedes]
      omega
    | str | bool => cases same
  | str s =>
    cases b with
    | str t => exact Text.utf8_lt_iff
    | int | bool => cases same
  | bool x =>
    cases b with
    | bool y =>
      rw [keyBytes, keyBytes, Precedes]
      revert x y
      decide
    | int | str => cases same

/-- A key is read back at its type. -/
theorem ofKey_keyBytes (a : Literal) : Value.ofKey a.keyBytes a.ty = .ok a.value := by
  cases a with
  | int n =>
    have hn := n.le_toInt
    have hn' := n.toInt_lt
    have hlen : (BigEndian.write 8 (n.toInt + keyOffset).toNat).length = 8 := BigEndian.length_write 8 _
    have hrange : BigEndian.range 8 = 18446744073709551616 := rfl
    have hoffset : keyOffset = 9223372036854775808 := rfl
    have hback : (((n.toInt + keyOffset).toNat % BigEndian.range 8 : Nat) : Int) - keyOffset = n.toInt := by
      rw [hrange, hoffset]
      omega
    rw [keyBytes, ty, Value.ofKey, if_neg (by omega), List.take_of_length_le (by omega), BigEndian.read_write, hback,
      Int64.ofInt_toInt, value]
  | str s => rw [keyBytes, ty, Value.ofKey, Text.ofUtf8?_utf8, value]
  | bool x => cases x <;> rfl

/-- Values of one type have keys whose bytes are in the order of the values; the same bytes are the key of one value,
and reading a key at its type gives the value. -/
theorem toKey_ordered {a b : Literal} (same : a.ty = b.ty) : ∃ k l, a.value.toKey = .ok k ∧ b.value.toKey = .ok l ∧
    (k < l ↔ a.Precedes b) ∧ (k = l ↔ a = b) ∧ Value.ofKey k a.ty = .ok a.value :=
  ⟨a.keyBytes, b.keyBytes, toKey_value a, toKey_value b, keyBytes_lt_iff same,
    ⟨eq_of_keyBytes same, congrArg keyBytes⟩, ofKey_keyBytes a⟩

/-- The last character of three bytes comes before the first one of four, also where text goes on. -/
theorem toKey_ordered_texts :
    let a : Literal := .str (String.ofList [Char.ofNat 0xFFFF, 'a'])
    let b : Literal := .str (String.ofList [Char.ofNat 0x10000])
    a.ty = b.ty ∧ a.Precedes b ∧ ∃ k l, a.value.toKey = .ok k ∧ b.value.toKey = .ok l ∧ k < l ∧ k ≠ l ∧
      Value.ofKey k .string = .ok a.value := by
  intro a b
  obtain ⟨k, l, hk, hl, hlt, heq, hread⟩ := toKey_ordered (a := a) (b := b) rfl
  have hprecedes : a.Precedes b := by
    show (String.ofList [Char.ofNat 0xFFFF, 'a']).toList < (String.ofList [Char.ofNat 0x10000]).toList
    rw [String.toList_ofList, String.toList_ofList]
    decide
  have hne : a ≠ b := by
    intro h
    rw [h] at hprecedes
    exact List.lt_irrefl _ hprecedes
  exact ⟨rfl, hprecedes, k, l, hk, hl, hlt.mpr hprecedes, fun h => hne (heq.mp h), hread⟩

end Literal

end LiveQuery
