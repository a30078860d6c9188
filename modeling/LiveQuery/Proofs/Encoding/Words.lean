import LiveQuery.Encoding.Key
import LiveQuery.Encoding.Varint
import Mathlib.Algebra.Group.Nat.Defs

/-! # Texts and numbers as bytes

What is written is read back: texts (`Text.ofUtf8?_utf8`), whole numbers of a fixed width
(`BigEndian.readInt_writeInt`) and numbers of variable width, whatever bytes follow them
(`Varint.read_write`). A larger number does not take fewer bytes (`Varint.length_write_mono`), and two keys of one type
do not have the same bytes (`Literal.eq_of_keyBytes`).
-/
namespace LiveQuery

/-! ## Texts -/

namespace Text

theorem toList_loop (b : ByteArray) (i : Nat) (r : List UInt8) :
    ByteArray.toList.loop b i r = r.reverse ++ b.data.toList.drop i := by
  induction hn : b.size - i generalizing i r with
  | zero =>
    rw [ByteArray.toList.loop, if_neg (by omega)]
    have hlen : b.data.toList.length ≤ i := by
      rw [Array.length_toList, ByteArray.size_data]
      omega
    rw [List.drop_eq_nil_of_le hlen, List.append_nil]
  | succ n ih =>
    have hi : i < b.size := by omega
    have hlen : i < b.data.toList.length := by
      rw [Array.length_toList]
      exact hi
    rw [ByteArray.toList.loop, if_pos hi, ih (i + 1) _ (by omega), List.reverse_cons,
      List.append_assoc, List.singleton_append, List.drop_eq_getElem_cons hlen, Array.getElem_toList,
      ByteArray.get!, getElem!_pos b.data i hi]

/-- The text that was written is read back. -/
theorem ofUtf8?_utf8 (s : String) : ofUtf8? (utf8 s) = some s := by
  have hbytes : (⟨(utf8 s).toArray⟩ : ByteArray) = s.toUTF8 := by
    rw [utf8, ByteArray.toList, toList_loop]
    rfl
  rw [ofUtf8?, hbytes]
  show (if h : s.toByteArray.IsValidUTF8 then _ else _) = some s
  rw [dif_pos s.isValidUTF8]
  rfl

theorem utf8_injective {a b : String} (h : utf8 a = utf8 b) : a = b := by
  have hread := ofUtf8?_utf8 a
  rw [h, ofUtf8?_utf8] at hread
  exact (Option.some.inj hread).symm

end Text

/-! ## Fixed width -/

namespace BigEndian

theorem range_pos (w : Nat) : 0 < range w := by
  induction w with
  | zero => exact Nat.one_pos
  | succ w ih => simp only [range]; omega

theorem read_concat (b : Bytes) (x : UInt8) : read (b ++ [x]) = read b * 256 + x.toNat := by
  simp only [read, List.foldl_append, List.foldl_cons, List.foldl_nil]

theorem read_write (w n : Nat) : read (write w n) = n % range w := by
  induction w generalizing n with
  | zero => simp only [write, read, List.foldl_nil, range, Nat.mod_one]
  | succ w ih =>
    have hx : (UInt8.ofNat n).toNat = n % 256 := UInt8.toNat_ofNat'
    rw [write, read_concat, ih, hx, range, Nat.mod_mul]
    omega

/-- A whole number in the range of its width is read back. -/
theorem readInt_writeInt {w : Nat} {n : Int} (hlow : -(range w : Int) ≤ 2 * n)
    (hhigh : 2 * n < range w) : readInt (writeInt w n) = n := by
  have hpos : (0 : Int) < range w := by exact_mod_cast range_pos w
  have hmod : 0 ≤ n % (range w : Int) := Int.emod_nonneg n (by omega)
  have hlt : n % (range w : Int) < range w := Int.emod_lt_of_pos n hpos
  have hread : read (writeInt w n) = (n % (range w : Int)).toNat := by
    rw [writeInt, read_write, Nat.mod_eq_of_lt (by omega)]
  have hlen : (writeInt w n).length = w := length_write w _
  simp only [readInt, hread, hlen]
  by_cases hn : 0 ≤ n
  · have hself : n % (range w : Int) = n := Int.emod_eq_of_lt hn (by omega)
    rw [hself, if_pos (by omega)]
    omega
  · have hself : n % (range w : Int) = n + range w := by
      rw [← Int.add_emod_right n (range w : Int)]
      exact Int.emod_eq_of_lt (by omega) (by omega)
    rw [hself, if_neg (by omega)]
    omega

end BigEndian

/-! ## Variable width -/

namespace Varint

theorem toNat_marked (n : Nat) : (UInt8.ofNat (128 + n % 128)).toNat = 128 + n % 128 := by
  rw [UInt8.toNat_ofNat']
  omega

theorem not_marked_lt (n : Nat) : ¬ UInt8.ofNat (128 + n % 128) < 128 := by
  rw [UInt8.lt_iff_toNat_lt, toNat_marked]
  show ¬ 128 + n % 128 < 128
  omega

/-- Reading on over a byte that is marked as followed by another one. -/
theorem readFrom_marked (left taken acc n : Nat) (tail : Bytes) :
    readFrom (left + 1) taken acc (UInt8.ofNat (128 + n % 128) :: tail) =
      readFrom left (taken + 1) (acc * 128 + n % 128) tail := by
  rw [readFrom, if_neg (not_marked_lt n), toNat_marked, Nat.add_sub_cancel_left]

/-- A number of at most `digits` digits takes at most as many bytes, and reading them gives the
number. -/
theorem writeHigh_spec (fuel digits n : Nat) (hd : digits ≤ fuel) (hn : n < 128 ^ digits) :
    ∃ k ≤ digits, ∀ tail, (writeHigh fuel n tail).length = k + tail.length ∧ ∀ left taken acc,
      readFrom (left + k) taken acc (writeHigh fuel n tail) =
        readFrom left (taken + k) (acc * 128 ^ k + n) tail := by
  induction fuel generalizing digits n with
  | zero =>
    obtain rfl : digits = 0 := by omega
    obtain rfl : n = 0 := by omega
    exact ⟨0, Nat.le_refl 0, by simp [writeHigh]⟩
  | succ fuel ih =>
    simp only [writeHigh]
    split
    next h0 =>
      subst h0
      exact ⟨0, Nat.zero_le _, by simp⟩
    next h0 =>
      obtain ⟨d, rfl⟩ : ∃ d, digits = d + 1 := by
        cases digits with
        | zero => exact absurd (by omega) h0
        | succ d => exact ⟨d, rfl⟩
      have hdiv : n / 128 < 128 ^ d := by
        rw [Nat.div_lt_iff_lt_mul (by decide), ← Nat.pow_succ]
        exact hn
      obtain ⟨k, hk, htail⟩ := ih d (n / 128) (by omega) hdiv
      refine ⟨k + 1, by omega, fun tail => ?_⟩
      obtain ⟨hlen, hread⟩ := htail (UInt8.ofNat (128 + n % 128) :: tail)
      refine ⟨by rw [hlen, List.length_cons]; omega, fun left taken acc => ?_⟩
      have hleft : left + (k + 1) = (left + 1) + k := by omega
      have hacc : (acc * 128 ^ k + n / 128) * 128 + n % 128 = acc * 128 ^ (k + 1) + n := by
        rw [Nat.add_mul, Nat.pow_succ, Nat.mul_assoc]
        omega
      rw [hleft, hread, readFrom_marked, hacc, Nat.add_assoc]

theorem readFrom_writeGroups (count left taken acc n : Nat) (tail : Bytes) :
    readFrom (left + count) taken acc (writeGroups count n tail) =
      readFrom left (taken + count) (acc * 128 ^ count + n % 128 ^ count) tail := by
  induction count generalizing left n tail with
  | zero => simp [writeGroups, Nat.mod_one]
  | succ count ih =>
    have hleft : left + (count + 1) = (left + 1) + count := by omega
    have hacc : (acc * 128 ^ count + n / 128 % 128 ^ count) * 128 + n % 128 =
        acc * 128 ^ (count + 1) + n % 128 ^ (count + 1) := by
      rw [Nat.pow_succ', Nat.mod_mul, Nat.add_mul, Nat.mul_assoc, Nat.mul_comm (128 ^ count) 128]
      omega
    rw [writeGroups, hleft, ih, readFrom_marked, hacc, Nat.add_assoc]

theorem length_writeGroups (count n : Nat) (tail : Bytes) :
    (writeGroups count n tail).length = count + tail.length := by
  induction count generalizing n tail with
  | zero => simp [writeGroups]
  | succ count ih => rw [writeGroups, ih, List.length_cons]; omega

theorem writeHigh_append (fuel n : Nat) (tail rest : Bytes) :
    writeHigh fuel n tail ++ rest = writeHigh fuel n (tail ++ rest) := by
  induction fuel generalizing n tail with
  | zero => rfl
  | succ fuel ih =>
    simp only [writeHigh]
    split
    next => rfl
    next => rw [ih, List.cons_append]

theorem writeGroups_append (count n : Nat) (tail rest : Bytes) :
    writeGroups count n tail ++ rest = writeGroups count n (tail ++ rest) := by
  induction count generalizing n tail with
  | zero => rfl
  | succ count ih => simp only [writeGroups]; rw [ih, List.cons_append]

/-- A number of 64 bits is read back as what its bits mean, whatever follows. -/
theorem read_write {n : Nat} (hn : n < wordRange) (rest : Bytes) :
    read (write n ++ rest) = .ok (signed n, (write n).length) := by
  unfold write
  split
  next hlt =>
    have hdiv : n / 128 < 128 ^ 7 := by
      rw [groupsRange] at hlt
      omega
    obtain ⟨k, hk, htail⟩ := writeHigh_spec 8 7 (n / 128) (by omega) hdiv
    obtain ⟨hlen, -⟩ := htail [UInt8.ofNat (n % 128)]
    obtain ⟨-, hread⟩ := htail (UInt8.ofNat (n % 128) :: rest)
    obtain ⟨left, hleft⟩ : ∃ left, 8 = left + 1 + k := ⟨7 - k, by omega⟩
    have hx : (UInt8.ofNat (n % 128)).toNat = n % 128 := by
      rw [UInt8.toNat_ofNat']
      omega
    have hsmall : UInt8.ofNat (n % 128) < 128 := by
      rw [UInt8.lt_iff_toNat_lt, hx]
      exact Nat.mod_lt n (by decide)
    have hacc : n / 128 * 128 + n % 128 = n := by omega
    rw [hlen, writeHigh_append, List.singleton_append, read]
    generalize writeHigh 8 (n / 128) (UInt8.ofNat (n % 128) :: rest) = b at hread
    rw [hleft, hread, readFrom, if_pos hsmall, hx, Nat.zero_mul, Nat.zero_add, Nat.zero_add, hacc]
    rfl
  next hge =>
    have hx : (UInt8.ofNat (n % 256)).toNat = n % 256 := by
      rw [UInt8.toNat_ofNat']
      omega
    have hdiv : n / 256 < 128 ^ 8 := by
      rw [wordRange] at hn
      omega
    have hacc : n / 256 * 256 + n % 256 = n := by omega
    have hread := readFrom_writeGroups 8 0 0 0 (n / 256) (UInt8.ofNat (n % 256) :: rest)
    rw [writeGroups_append, List.singleton_append, read, hread, Nat.mod_eq_of_lt hdiv, readFrom,
      length_writeGroups, hx, Nat.zero_mul, Nat.zero_add, hacc]
    rfl

/-- The numbers that are read back as themselves. -/
theorem signed_of_lt {n : Nat} (hn : 2 * n < wordRange) : signed n = n := if_pos hn

/-! ## How many bytes a number takes -/

theorem length_writeHigh_mono (fuel : Nat) {m n : Nat} (h : m ≤ n) (tail tail' : Bytes) :
    (writeHigh fuel m tail).length + tail'.length ≤ (writeHigh fuel n tail').length + tail.length := by
  induction fuel generalizing m n tail tail' with
  | zero => simp only [writeHigh]; omega
  | succ fuel ih =>
    have hdiv : m / 128 ≤ n / 128 := Nat.div_le_div_right h
    simp only [writeHigh]
    split
    next h0 =>
      subst h0
      split
      next => omega
      next =>
        have hgrow := ih (Nat.zero_le (n / 128)) [] (UInt8.ofNat (128 + n % 128) :: tail')
        simp only [List.length_cons, List.length_nil] at hgrow
        omega
    next h0 =>
      rw [if_neg (by omega)]
      have hstep := ih hdiv (UInt8.ofNat (128 + m % 128) :: tail) (UInt8.ofNat (128 + n % 128) :: tail')
      simp only [List.length_cons] at hstep
      omega

theorem length_write_pos (n : Nat) : 0 < (write n).length := by
  unfold write
  split
  next =>
    have hmono := length_writeHigh_mono 8 (Nat.zero_le (n / 128)) [] [UInt8.ofNat (n % 128)]
    rw [List.length_singleton, List.length_nil] at hmono
    omega
  next =>
    rw [length_writeGroups]
    exact Nat.succ_pos _

/-- No number takes more than nine bytes. -/
theorem length_write_le (n : Nat) : (write n).length ≤ 9 := by
  unfold write
  split
  next hlt =>
    have hdiv : n / 128 < 128 ^ 7 := by
      rw [groupsRange] at hlt
      omega
    obtain ⟨k, hk, htail⟩ := writeHigh_spec 8 7 (n / 128) (by omega) hdiv
    rw [(htail _).1, List.length_singleton]
    omega
  next =>
    have hnine : (writeGroups 8 (n / 256) [UInt8.ofNat (n % 256)]).length = 9 := by
      rw [length_writeGroups, List.length_singleton]
    omega

theorem length_write_mono {m n : Nat} (h : m ≤ n) : (write m).length ≤ (write n).length := by
  by_cases hn : n < groupsRange
  · have hdiv : m / 128 ≤ n / 128 := Nat.div_le_div_right h
    have hmono := length_writeHigh_mono 8 hdiv [UInt8.ofNat (m % 128)] [UInt8.ofNat (n % 128)]
    rw [write, write, if_pos (by omega), if_pos hn]
    simpa using hmono
  · have hnine : (write n).length = 9 := by
      rw [write, if_neg hn, length_writeGroups, List.length_singleton]
    rw [hnine]
    exact length_write_le m

end Varint

/-! ## Keys -/

/-- A key is known by its type and its bytes. -/
theorem Literal.eq_of_keyBytes {a b : Literal} (hty : a.ty = b.ty) (h : a.keyBytes = b.keyBytes) : a = b := by
  cases a with
  | int m =>
    cases b with
    | int n =>
      have hread := congrArg BigEndian.read h
      rw [keyBytes, keyBytes, BigEndian.read_write, BigEndian.read_write,
        show BigEndian.range 8 = 18446744073709551616 from rfl, keyOffset] at hread
      have hm := m.le_toInt
      have hm' := m.toInt_lt
      have hn := n.le_toInt
      have hn' := n.toInt_lt
      exact congrArg int (Int64.toInt_inj.mp (by omega))
    | str | bool => cases hty
  | str s =>
    cases b with
    | str s' => exact congrArg str (Text.utf8_injective h)
    | int | bool => cases hty
  | bool x =>
    cases b with
    | bool y => cases x <;> cases y <;> first | rfl | cases h
    | int | str => cases hty

end LiveQuery
