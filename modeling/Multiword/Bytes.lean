import Multiword.Words.Basic

/-!
# Bytes

A list of bytes stands for a number in base 256. Here the lowest byte comes first; a text with the
highest byte first is read through its reverse. Four bytes make a word, so the same bytes are also
the words of that number.
-/

set_option autoImplicit false

namespace Multiword

namespace Bytes

/-- The number that a list of bytes stands for, the lowest byte first. -/
def toNat : List UInt8 → Nat
  | [] => 0
  | b :: bs => b.toNat + 256 * toNat bs

/-- The lowest `count` bytes of `n`, the lowest first. -/
def ofNat : Nat → Nat → List UInt8
  | 0, _ => []
  | count + 1, n => UInt8.ofNat n :: ofNat count (n / 256)

/-- The words of the number that a list of bytes stands for, the lowest byte first; the last word
takes what is left over. -/
def toWords : List UInt8 → List Word
  | a :: b :: c :: d :: rest => UInt32.ofNat (toNat [a, b, c, d]) :: toWords rest
  | [] => []
  | short => [UInt32.ofNat (toNat short)]

@[simp] theorem length_ofNat (count n : Nat) : (ofNat count n).length = count := by
  induction count generalizing n with
  | zero => rfl
  | succ count ih => simp [ofNat, ih]

/-- Grouping bytes into words keeps the number. -/
theorem toNat_toWords (bytes : List UInt8) : Words.toNat (toWords bytes) = toNat bytes := by
  fun_induction toWords bytes with
  | case1 a b c d rest ih =>
    have ha := a.toNat_lt
    have hb := b.toNat_lt
    have hc := c.toNat_lt
    have hd := d.toNat_lt
    rw [Words.toNat_cons, ih]
    simp only [toNat, UInt32.toNat_ofNat', radix_eq]
    omega
  | case2 => rfl
  | case3 short hshort _ =>
    have bound : toNat short < 4294967296 := by
      match short with
      | [] => simp [toNat]
      | [a] =>
        have := a.toNat_lt
        simp only [toNat]
        omega
      | [a, b] =>
        have := a.toNat_lt
        have := b.toNat_lt
        simp only [toNat]
        omega
      | [a, b, c] =>
        have := a.toNat_lt
        have := b.toNat_lt
        have := c.toNat_lt
        simp only [toNat]
        omega
      | a :: b :: c :: d :: rest => exact absurd rfl (hshort a b c d rest)
    simp only [Words.toNat_cons, Words.toNat_nil, UInt32.toNat_ofNat']
    rw [Nat.mod_eq_of_lt bound]
    omega

end Bytes

end Multiword
