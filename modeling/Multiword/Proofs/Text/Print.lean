import Mathlib.Data.List.TakeWhile
import Multiword.Proofs.Integer.Invariant
import Multiword.Proofs.Text.Numeral
import Multiword.Proofs.Words.Quotient
import Multiword.Text.Print

/-!
# What is written

Groups of digits are joined to the digits of the whole number: every group but the highest keeps its
zeros, and the highest is not zero. Each division takes a group of nine decimal digits away, and the
limit on the divisions is enough for all groups that so many words can have.
-/

set_option autoImplicit false

namespace Multiword

/-! ## Groups of digits -/

section

variable {radix width : Nat}

theorem length_zeroPadded {digits : List Char} (h : digits.length ≤ width) :
    (zeroPadded width digits).length = width := by
  rw [zeroPadded, List.length_append, List.length_replicate]
  omega

theorem joinGroups_cons {low : Word} {high : List Word} (h : high ≠ []) :
    joinGroups radix width (low :: high) =
      joinGroups radix width high ++ zeroPadded width (Nat.toDigits radix low.toNat) := by
  unfold joinGroups
  rw [List.reverse_cons]
  rcases hreverse : high.reverse with _ | ⟨top, rest⟩
  · exact absurd (List.reverse_eq_nil_iff.1 hreverse) h
  · simp

/-- Groups of which the highest is not zero stand for a positive number. -/
theorem ofDigits_groups_pos {base : Nat} (hbase : 0 < base) {groups : List Word}
    (hne : groups ≠ []) (htop : groups.getLast? ≠ some 0) :
    0 < Nat.ofDigits base (groups.map UInt32.toNat) := by
  induction groups with
  | nil => exact absurd rfl hne
  | cons low high ih =>
    rw [List.map_cons, Nat.ofDigits_cons]
    by_cases hempty : high = []
    · subst hempty
      have hlow : low ≠ 0 := fun h => htop (by simp [h])
      exact Nat.add_pos_left (Word.toNat_pos hlow) _
    · rw [List.getLast?_cons_of_ne_nil hempty] at htop
      exact Nat.add_pos_right _ (Nat.mul_pos hbase (ih hempty htop))

/-- Groups that are joined are the digits of their number. -/
theorem joinGroups_eq (hlow : 1 < radix) (hhigh : radix ≤ 16) (hwidth : 0 < width)
    {groups : List Word} (hgroups : ∀ group ∈ groups, group.toNat < radix ^ width)
    (htop : groups.getLast? ≠ some 0) :
    joinGroups radix width groups =
      Nat.toDigits radix (Nat.ofDigits (radix ^ width) (groups.map UInt32.toNat)) := by
  induction groups with
  | nil => exact (Nat.toDigits_zero radix).symm
  | cons low high ih =>
    by_cases hempty : high = []
    · subst hempty
      simp [joinGroups]
    rw [List.getLast?_cons_of_ne_nil hempty] at htop
    obtain ⟨hbound, hgroups⟩ := List.forall_mem_cons.1 hgroups
    have hpos := ofDigits_groups_pos (Nat.pow_pos (n := width) (Nat.zero_lt_of_lt hlow)) hempty htop
    -- the lowest group as a numeral of `width` digits, which are in lower case already
    have hpadded : Numeral radix (zeroPadded width (Nat.toDigits radix low.toNat)) low.toNat :=
      (numeral_toDigits hlow hhigh _).replicate_append (Nat.zero_lt_of_lt hlow) _
    have hlength := length_zeroPadded ((Nat.length_toDigits_le_iff hlow hwidth).2 hbound)
    have hcase : (zeroPadded width (Nat.toDigits radix low.toNat)).map Char.toLower =
        zeroPadded width (Nat.toDigits radix low.toNat) := by
      rw [zeroPadded, List.map_append, List.map_replicate, map_toLower_toDigits hlow hhigh]
      rfl
    rw [joinGroups_cons hempty, ih hgroups htop, ← hcase, hpadded.toDigits_append hlow hpos, hlength,
      List.map_cons, Nat.ofDigits_cons, Nat.add_comm, Nat.mul_comm]

end

/-! ## Decimal groups -/

namespace Words

/-- Words are digits in base `radix`. -/
theorem toNat_eq_ofDigits (ws : List Word) :
    toNat ws = Nat.ofDigits radix (ws.map UInt32.toNat) := by
  induction ws with
  | nil => rfl
  | cons w ws ih => rw [toNat_cons, ih, List.map_cons, Nat.ofDigits_cons]

theorem eq_nil_of_toNat_eq_zero {ws : List Word} (htop : ws.getLast? ≠ some 0)
    (h : toNat ws = 0) : ws = [] := by
  by_contra hne
  have hpos := ofDigits_groups_pos radix_pos hne htop
  rw [← toNat_eq_ofDigits] at hpos
  omega

/-- Zero words at the top do not count. -/
theorem toNat_trimmed (ws : List Word) : toNat (trimmed ws) = toNat ws := by
  unfold trimmed
  induction ws using List.reverseRecOn with
  | nil => rfl
  | append_singleton ws w ih =>
    rw [List.reverse_append, List.reverse_singleton, List.singleton_append, List.dropWhile_cons]
    split
    · next hzero =>
      have hw : w = 0 := by simpa using hzero
      rw [ih, toNat_append, hw]
      simp
    · rw [List.reverse_cons, List.reverse_reverse]

theorem getLast?_trimmed (ws : List Word) : (trimmed ws).getLast? ≠ some 0 := by
  rw [trimmed, List.getLast?_reverse]
  intro h
  have hhead := List.head?_dropWhile_not (· == (0 : Word)) ws.reverse
  rw [h] at hhead
  simp at hhead

/-- The groups are the digits of the number in base `10 ^ 9`. The induction is on the limit; a number
that is not zero is not out of divisions. -/
theorem exists_decimalGroups {limit : Nat} {ws : List Word} (htop : ws.getLast? ≠ some 0)
    (hlt : toNat ws < 1000000000 ^ limit) :
    ∃ groups, decimalGroups limit ws = .ok groups ∧
      (∀ group ∈ groups, group.toNat < 1000000000) ∧ groups.getLast? ≠ some 0 ∧
      Nat.ofDigits 1000000000 (groups.map UInt32.toNat) = toNat ws := by
  induction limit generalizing ws with
  | zero =>
    obtain rfl := eq_nil_of_toNat_eq_zero htop (Nat.lt_one_iff.1 hlt)
    exact ⟨[], rfl, by simp, by simp, rfl⟩
  | succ limit ih =>
    obtain _ | ⟨w, ws⟩ := ws
    · exact ⟨[], rfl, by simp, by simp, rfl⟩
    obtain ⟨quotients, remainder, hdivided, -, hquotient, hremainder⟩ :=
      divideWord_eq (w :: ws) (show (1000000000 : Word) ≠ 0 by decide)
    rw [show (1000000000 : Word).toNat = 1000000000 from rfl] at hquotient hremainder
    have hless : toNat (trimmed quotients) < 1000000000 ^ limit := by
      rw [toNat_trimmed, hquotient, Nat.div_lt_iff_lt_mul (by decide)]
      rwa [pow_succ] at hlt
    obtain ⟨groups, hgroups, hbound, hlast, hvalue⟩ := ih (getLast?_trimmed quotients) hless
    rw [toNat_trimmed, hquotient] at hvalue
    refine ⟨remainder :: groups, by simp [decimalGroups, hdivided, hgroups], ?_, ?_, ?_⟩
    · refine List.forall_mem_cons.2 ⟨?_, hbound⟩
      rw [hremainder]
      exact Nat.mod_lt _ (by decide)
    · by_cases hempty : groups = []
      · -- a group that is alone is the number itself, and that is not zero
        subst hempty
        intro hzero
        have hne : toNat (w :: ws) ≠ 0 := fun h =>
          List.cons_ne_nil w ws (eq_nil_of_toNat_eq_zero htop h)
        obtain rfl : remainder = 0 := by simpa using hzero
        rw [List.map_nil, Nat.ofDigits_nil] at hvalue
        rw [UInt32.toNat_zero] at hremainder
        omega
      · rwa [List.getLast?_cons_of_ne_nil hempty]
    · rw [List.map_cons, Nat.ofDigits_cons, hvalue, hremainder]
      exact Nat.mod_add_div _ _

end Words

/-! ## Texts -/

namespace Digits

/-- The digits of a number. -/
def numeral : Digits → Nat → List Char
  | .decimal, n => Nat.toDigits 10 n
  | .lowerHex, n => Nat.toDigits 16 n
  | .upperHex, n => (Nat.toDigits 16 n).map Char.toUpper

/-- Two groups of nine digits hold more than a word, and a word has eight hexadecimal digits. -/
theorem write_eq (digits : Digits) {ws : List Word} (htop : ws.getLast? ≠ some 0) :
    digits.write ws = .ok (digits.numeral (Words.toNat ws)) := by
  have hhex : joinGroups 16 8 ws = Nat.toDigits 16 (Words.toNat ws) := by
    rw [Words.toNat_eq_ofDigits]
    exact joinGroups_eq (by decide) le_rfl (by decide) (fun w _ => w.toNat_lt) htop
  cases digits with
  | decimal =>
    have hlt : Words.toNat ws < 1000000000 ^ (2 * ws.length) := by
      rw [pow_mul]
      exact lt_of_lt_of_le (Words.toNat_lt ws) (Nat.pow_le_pow_left (by decide) _)
    obtain ⟨groups, hgroups, hbound, hlast, hvalue⟩ := Words.exists_decimalGroups htop hlt
    have hjoined := @joinGroups_eq 10 9 (by decide) (by decide) (by decide) groups hbound hlast
    rw [write, hgroups, numeral, ← hvalue]
    exact congrArg Except.ok hjoined
  | lowerHex => exact congrArg Except.ok hhex
  | upperHex => exact congrArg (fun digits => Except.ok (digits.map Char.toUpper)) hhex

end Digits

namespace Integer

/-- Every integer has a text, in every layout: its sign and the digits of its magnitude. -/
theorem WellFormed.toText_eq {x : Integer} (hx : x.WellFormed) (layout : Layout)
    (digits : Digits) :
    x.toText layout digits =
      .ok (layout.place x.negative digits.marker (digits.numeral x.magnitude)) := by
  rw [toText, hx.words_eq, Checked.ok_bind, digits.write_eq hx.getLast?_words_ne_zero, hx.toNat_words,
    hx.isNegative_eq]
  rfl

theorem WellFormed.exists_toText {x : Integer} (hx : x.WellFormed) (layout : Layout)
    (digits : Digits) : ∃ text, x.toText layout digits = .ok text :=
  ⟨_, hx.toText_eq layout digits⟩

end Integer

end Multiword
