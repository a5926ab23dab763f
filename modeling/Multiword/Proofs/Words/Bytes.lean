import Multiword.Proofs.Words.Bits

/-!
# Bytes of numbers and of words

Bytes are digits as words are: a list of them of a given length is determined by its number, and zero
bytes at the high end do not count. Four bytes stand for each word, and each of them can be read off
its word alone.
-/

set_option autoImplicit false

namespace Multiword

namespace Bytes

theorem toNat_append (low high : List UInt8) :
    toNat (low ++ high) = toNat low + 256 ^ low.length * toNat high := by
  induction low with
  | nil => simp [toNat]
  | cons b bs ih =>
    simp only [List.cons_append, toNat, ih, List.length_cons, pow_succ]
    ring

theorem toNat_lt (bytes : List UInt8) : toNat bytes < 256 ^ bytes.length := by
  induction bytes with
  | nil => simp [toNat]
  | cons b bs ih =>
    have hb := b.toNat_lt
    rw [toNat, List.length_cons, pow_succ]
    omega

/-- A list of bytes is made of the digits of its number. -/
theorem ofNat_toNat (bytes : List UInt8) : ofNat bytes.length (toNat bytes) = bytes := by
  induction bytes with
  | nil => rfl
  | cons b bs ih =>
    have hb := b.toNat_lt
    have hlow : UInt8.ofNat (b.toNat + 256 * toNat bs) = b := by
      rw [← UInt8.toNat_inj, UInt8.toNat_ofNat']
      omega
    have hhigh : (b.toNat + 256 * toNat bs) / 256 = toNat bs := by omega
    rw [toNat, List.length_cons, ofNat, hlow, hhigh, ih]

/-- Two lists of one length that stand for one number are the same. -/
theorem toNat_inj {a b : List UInt8} (hlength : a.length = b.length) (h : toNat a = toNat b) :
    a = b := by
  rw [← ofNat_toNat a, hlength, h, ofNat_toNat]

/-- The digit in place `i` weighs `256 ^ i`. -/
theorem ofNat_eq_map (count n : Nat) :
    ofNat count n = (List.range count).map fun i => UInt8.ofNat (n / 256 ^ i) := by
  induction count generalizing n with
  | zero => rfl
  | succ count ih =>
    rw [ofNat, ih, List.range_succ_eq_map, List.map_cons, List.map_map, pow_zero, Nat.div_one]
    congr 2
    funext i
    rw [Function.comp_apply, Nat.div_div_eq_div_mul, Nat.succ_eq_add_one, pow_succ']

theorem length_toWords (bytes : List UInt8) : (toWords bytes).length = (bytes.length + 3) / 4 := by
  fun_induction toWords bytes with
  | case1 a b c d rest ih =>
    simp only [List.length_cons, ih]
    omega
  | case2 => rfl
  | case3 short hshort hempty =>
    have hlength : short.length ≠ 0 ∧ short.length < 4 := by
      rcases short with _ | ⟨a, _ | ⟨b, _ | ⟨c, _ | ⟨d, rest⟩⟩⟩⟩
      · exact absurd rfl hempty
      · simp
      · simp
      · simp
      · exact absurd rfl (hshort a b c d rest)
    rw [List.length_singleton]
    omega

/-! ## Zero bytes in front -/

/-- Zero bytes at the high end do not count. -/
theorem toNat_dropWhile (bytes : List UInt8) :
    toNat (bytes.dropWhile (· == 0)).reverse = toNat bytes.reverse := by
  induction bytes with
  | nil => rfl
  | cons b bs ih =>
    rw [List.dropWhile_cons]
    split
    · next hzero =>
      have hb : b = 0 := by simpa using hzero
      rw [ih, List.reverse_cons, toNat_append, hb]
      simp [toNat]
    · rfl

/-- What is left of the bytes without the zeros in front starts with a byte that is not zero. -/
theorem ne_zero_of_dropWhile {bytes rest : List UInt8} {top : UInt8}
    (h : bytes.dropWhile (· == 0) = top :: rest) : top ≠ 0 := by
  have hhead := List.head_dropWhile_not (fun b : UInt8 => b == 0) (l := bytes) (by simp [h])
  simpa [h] using hhead

/-- The bytes are zeros and then what counts of them. -/
theorem replicate_append_dropWhile (bytes : List UInt8) :
    List.replicate (bytes.length - (bytes.dropWhile (· == 0)).length) 0 ++
      bytes.dropWhile (· == 0) = bytes := by
  have hsplit := List.takeWhile_append_dropWhile (p := fun b : UInt8 => b == 0) (l := bytes)
  have hlength := congrArg List.length hsplit
  rw [List.length_append] at hlength
  have hzeros : bytes.takeWhile (· == 0) =
      List.replicate (bytes.length - (bytes.dropWhile (· == 0)).length) 0 := by
    rw [List.eq_replicate_iff]
    have hall := List.all_takeWhile (p := fun b : UInt8 => b == 0) (l := bytes)
    exact ⟨by omega, fun b hb => by simpa using List.all_eq_true.1 hall b hb⟩
  rw [← hzeros, hsplit]

theorem bitLength_byte_pos {top : UInt8} (h : top ≠ 0) : 0 < bitLength top.toNat := by
  rw [Nat.pos_iff_ne_zero, ne_eq, bitLength_eq_zero, ← UInt8.toNat_zero, UInt8.toNat_inj]
  exact h

theorem bitLength_byte_le (top : UInt8) : bitLength top.toNat ≤ 8 :=
  bitLength_le.2 top.toNat_lt

/-- The highest byte gives the bit count, if it is not zero. -/
theorem bitLength_toNat {top : UInt8} {rest : List UInt8} (h : top ≠ 0) :
    bitLength (toNat (top :: rest).reverse) = rest.length * 8 + bitLength top.toNat := by
  have hvalue : toNat (top :: rest).reverse =
      toNat rest.reverse + 2 ^ (rest.length * 8) * top.toNat := by
    rw [List.reverse_cons, toNat_append, List.length_reverse, Nat.mul_comm _ 8, pow_mul]
    simp [toNat]
  have hlow : toNat rest.reverse < 2 ^ (rest.length * 8) := by
    have := toNat_lt rest.reverse
    rwa [List.length_reverse, show 256 = 2 ^ 8 by rfl, ← pow_mul, Nat.mul_comm 8] at this
  have htop := bitLength_byte_pos h
  have hdiv := bitLength_div_two_pow (toNat (top :: rest).reverse) (rest.length * 8)
  rw [hvalue, Nat.add_mul_div_left _ _ (by positivity), Nat.div_eq_of_lt hlow, zero_add, ← hvalue]
    at hdiv
  omega

/-- A number takes as many bytes as there are without the zeros in front. -/
theorem bytesFor_toNat (bytes : List UInt8) :
    (bitLength (toNat bytes.reverse) + 7) / 8 = (bytes.dropWhile (· == 0)).length := by
  rw [← toNat_dropWhile]
  rcases hdigits : bytes.dropWhile (· == 0) with _ | ⟨top, rest⟩
  · rfl
  · have htop := ne_zero_of_dropWhile hdigits
    have hpos := bitLength_byte_pos htop
    have hle := bitLength_byte_le top
    rw [bitLength_toNat htop, List.length_cons]
    omega

end Bytes

namespace Words

/-- The bytes of the words, four for each of them, the lowest first. -/
def toBytes (ws : List Word) : List UInt8 := ws.flatMap fun w => Bytes.ofNat 4 w.toNat

theorem toBytes_cons (w : Word) (ws : List Word) :
    toBytes (w :: ws) = Bytes.ofNat 4 w.toNat ++ toBytes ws := rfl

@[simp] theorem length_toBytes (ws : List Word) : (toBytes ws).length = 4 * ws.length := by
  induction ws with
  | nil => rfl
  | cons w ws ih =>
    rw [toBytes_cons, List.length_append, Bytes.length_ofNat, ih, List.length_cons]
    omega

/-- Taking words apart into bytes keeps the number. -/
@[simp] theorem toNat_toBytes (ws : List Word) : Bytes.toNat (toBytes ws) = toNat ws := by
  induction ws with
  | nil => rfl
  | cons w ws ih =>
    have hw : w.toNat < 256 ^ 4 := w.toNat_lt
    rw [toBytes_cons, Bytes.toNat_append, Bytes.toNat_ofNat, Bytes.length_ofNat, ih,
      Nat.mod_eq_of_lt hw]
    rfl

theorem toBytes_inj {a b : List Word} : toBytes a = toBytes b ↔ a = b := by
  refine ⟨fun h => ?_, fun h => by rw [h]⟩
  have hlength := congrArg List.length h
  have hvalue := congrArg Bytes.toNat h
  rw [toNat_toBytes, toNat_toBytes] at hvalue
  exact toNat_inj (by simpa using hlength) hvalue

/-- The words above weigh more than any byte of a word. -/
theorem byte_add_radix_mul (low high : Nat) {i : Nat} (h : i < 4) :
    UInt8.ofNat ((low + radix * high) / 256 ^ i) = UInt8.ofNat (low / 256 ^ i) := by
  have hradix : radix * high = 256 ^ i * (256 * (256 ^ (3 - i) * high)) := by
    rw [show radix = 256 ^ (i + 1 + (3 - i)) by rw [show i + 1 + (3 - i) = 4 by omega]; rfl]
    ring
  rw [hradix, Nat.add_mul_div_left _ _ (by positivity), ← UInt8.toNat_inj, UInt8.toNat_ofNat',
    UInt8.toNat_ofNat', Nat.add_mul_mod_self_left]

/-- The byte in place `i` of the number lies in the word in place `i / 4`. -/
theorem byte_of_word {ws : List Word} {i : Nat} {w : Word} (h : ws[i / 4]? = some w) :
    UInt8.ofNat (w.toNat >>> (8 * (i % 4))) = UInt8.ofNat (toNat ws / 256 ^ i) := by
  obtain ⟨hlt, hw⟩ := List.getElem?_eq_some_iff.1 h
  have hplace : 256 ^ i = radix ^ (i / 4) * 256 ^ (i % 4) := by
    rw [show radix = 256 ^ 4 by rfl, ← pow_mul, ← pow_add, Nat.div_add_mod]
  have hword : toNat ws / radix ^ (i / 4) = w.toNat + radix * toNat (ws.drop (i / 4 + 1)) := by
    rw [← toNat_drop ws hlt.le, List.drop_eq_getElem_cons hlt, toNat_cons, hw]
  rw [hplace, ← Nat.div_div_eq_div_mul, hword, byte_add_radix_mul _ _ (Nat.mod_lt _ (by decide)),
    Nat.shiftRight_eq_div_pow, pow_mul]
  rfl

end Words

end Multiword
