import Mathlib.Data.List.Forall2
import Mathlib.Data.Nat.Digits.Defs
import Mathlib.Tactic.IntervalCases
import Mathlib.Tactic.Positivity
import Mathlib.Tactic.Ring
import Multiword.Text.Parse

/-!
# Numerals

A numeral is a list of digits, the highest first, and stands for the number that they have as their
positional value. Each number has one numeral without zeros in front, up to the case of letters: it
is the one that is written for it, and writing the number of any other numeral leads to it.
-/

set_option autoImplicit false

namespace Multiword

/-! ## Digits -/

/-- `c` is the digit of this value; letters are digits of either case. -/
def DigitOf (radix : Nat) (c : Char) (value : Nat) : Prop :=
  value < radix ∧ c.toLower = Nat.digitChar value

instance (radix : Nat) (c : Char) (value : Nat) : Decidable (DigitOf radix c value) :=
  inferInstanceAs (Decidable (_ ∧ _))

theorem toNat_digitChar {value : Nat} (h : value < 16) :
    (Nat.digitChar value).toNat = if value < 10 then 48 + value else 87 + value := by
  interval_cases value <;> rfl

theorem toNat_toLower (c : Char) :
    c.toLower.toNat = if 65 ≤ c.toNat ∧ c.toNat ≤ 90 then c.toNat + 32 else c.toNat := by
  have hrange : ('A'.val ≤ c.val ∧ c.val ≤ 'Z'.val) ↔ 65 ≤ c.toNat ∧ c.toNat ≤ 90 := Iff.rfl
  have hcode : c.val.toNat = c.toNat := rfl
  unfold Char.toLower
  split
  · next h =>
    have hbound := hrange.1 h
    rw [if_pos hbound]
    show (c.val + 32).toNat = c.val.toNat + 32
    rw [UInt32.toNat_add, Nat.mod_eq_of_lt]
    · rfl
    · show c.val.toNat + 32 < 4294967296
      omega
  · next h => rw [if_neg (mt hrange.2 h)]

theorem toNat_toUpper (c : Char) :
    c.toUpper.toNat = if 97 ≤ c.toNat ∧ c.toNat ≤ 122 then c.toNat - 32 else c.toNat := by
  have hrange : ('a'.val ≤ c.val ∧ c.val ≤ 'z'.val) ↔ 97 ≤ c.toNat ∧ c.toNat ≤ 122 := Iff.rfl
  have hcode : c.val.toNat = c.toNat := rfl
  unfold Char.toUpper
  split
  · next h =>
    have hbound := hrange.1 h
    rw [if_pos hbound]
    -- the distance of the cases is added as a word that wraps around
    show (c.val + ('A'.val - 'a'.val)).toNat = c.val.toNat - 32
    rw [UInt32.toNat_add, show ('A'.val - 'a'.val).toNat = 4294967264 from rfl]
    omega
  · next h => rw [if_neg (mt hrange.2 h)]

/-- The digits of a radix up to sixteen, by their character codes. -/
theorem digitOf_iff {radix value : Nat} {c : Char} (hradix : radix ≤ 16) :
    DigitOf radix c value ↔ value < radix ∧
      (48 ≤ c.toNat ∧ c.toNat ≤ 57 ∧ value = c.toNat - 48 ∨
        97 ≤ c.toNat ∧ c.toNat ≤ 102 ∧ value = c.toNat - 87 ∨
        65 ≤ c.toNat ∧ c.toNat ≤ 70 ∧ value = c.toNat - 55) := by
  refine and_congr_right fun hvalue => ?_
  rw [← Char.toNat_inj, toNat_toLower, toNat_digitChar (hvalue.trans_le hradix)]
  split <;> split <;> omega

/-- What is read as a digit is one, and every digit is read. -/
theorem digitValue?_eq_some {radix value : Nat} {c : Char} (hradix : radix ≤ 16) :
    digitValue? radix c = some value ↔ DigitOf radix c value := by
  have hle : ∀ a b : Char, a ≤ b ↔ a.toNat ≤ b.toNat := fun _ _ => Iff.rfl
  rw [digitOf_iff hradix]
  unfold digitValue?
  simp only [hle, Option.filter_eq_some_iff, decide_eq_true_eq, Char.reduceToNat]
  split
  · simp
    omega
  · split
    · simp
      omega
    · split <;> simp <;> omega

theorem DigitOf.unique {radix value value' : Nat} {c : Char} (hradix : radix ≤ 16)
    (h : DigitOf radix c value) (h' : DigitOf radix c value') : value = value' := by
  rw [digitOf_iff hradix] at h h'
  omega

theorem DigitOf.toUpper {radix value : Nat} {c : Char} (hradix : radix ≤ 16)
    (h : DigitOf radix c value) : DigitOf radix c.toUpper value := by
  rw [digitOf_iff hradix] at h ⊢
  rw [toNat_toUpper]
  split <;> omega

/-- Decimal digits have no case. -/
theorem DigitOf.toLower_eq {value : Nat} {c : Char} (h : DigitOf 10 c value) : c.toLower = c := by
  rw [digitOf_iff (by decide)] at h
  rw [← Char.toNat_inj, toNat_toLower]
  split <;> omega

theorem DigitOf.isDigit {value : Nat} {c : Char} (h : DigitOf 10 c value) : c.isDigit = true := by
  rw [digitOf_iff (by decide)] at h
  refine Char.isDigit_iff_toNat.2 ⟨?_, ?_⟩
  · show 48 ≤ c.toNat
    omega
  · show c.toNat ≤ 57
    omega

theorem digitOf_digitChar {radix value : Nat} (hradix : radix ≤ 16) (h : value < radix) :
    DigitOf radix (Nat.digitChar value) value := by
  rw [digitOf_iff hradix, toNat_digitChar (h.trans_le hradix)]
  split <;> omega

/-! ## Numerals and their numbers -/

/-- The digits, the highest first, have this positional value. -/
def Numeral (radix : Nat) (digits : List Char) (n : Nat) : Prop :=
  ∃ values, List.Forall₂ (DigitOf radix) digits values ∧ n = Nat.ofDigits radix values.reverse

theorem numeral_nil {radix n : Nat} : Numeral radix [] n ↔ n = 0 := by
  constructor
  · rintro ⟨_, _ | _, rfl⟩
    rfl
  · rintro rfl
    exact ⟨[], .nil, rfl⟩

/-- A digit in front weighs the radix to the number of digits behind it. -/
theorem numeral_cons {radix n : Nat} {c : Char} {digits : List Char} :
    Numeral radix (c :: digits) n ↔
      ∃ value low, DigitOf radix c value ∧ Numeral radix digits low ∧
        n = value * radix ^ digits.length + low := by
  have hweight : ∀ {value : Nat} {values : List Nat}, List.Forall₂ (DigitOf radix) digits values →
      Nat.ofDigits radix (value :: values).reverse =
        value * radix ^ digits.length + Nat.ofDigits radix values.reverse := by
    intro value values hdigits
    rw [List.reverse_cons, Nat.ofDigits_append, Nat.ofDigits_singleton, List.length_reverse,
      List.Forall₂.length_eq hdigits]
    ring
  constructor
  · rintro ⟨_, _ | ⟨hc, hdigits⟩, rfl⟩
    exact ⟨_, _, hc, ⟨_, hdigits, rfl⟩, hweight hdigits⟩
  · rintro ⟨value, low, hc, ⟨values, hdigits, rfl⟩, rfl⟩
    exact ⟨value :: values, .cons hc hdigits, (hweight hdigits).symm⟩

theorem numeral_singleton {radix value : Nat} {c : Char} (h : DigitOf radix c value) :
    Numeral radix [c] value :=
  numeral_cons.2 ⟨value, 0, h, numeral_nil.2 rfl, by simp⟩

theorem Numeral.append {radix high low : Nat} {front digits : List Char}
    (hfront : Numeral radix front high) (h : Numeral radix digits low) :
    Numeral radix (front ++ digits) (high * radix ^ digits.length + low) := by
  induction front generalizing high with
  | nil =>
    obtain rfl := numeral_nil.1 hfront
    simpa using h
  | cons c cs ih =>
    obtain ⟨value, rest, hc, hrest, rfl⟩ := numeral_cons.1 hfront
    refine numeral_cons.2 ⟨value, _, hc, ih hrest, ?_⟩
    rw [List.append_eq, List.length_append, pow_add]
    ring

/-- There is a number exactly if every character is a digit. -/
theorem exists_numeral {radix : Nat} {digits : List Char} :
    (∃ n, Numeral radix digits n) ↔ ∀ c ∈ digits, ∃ value, DigitOf radix c value := by
  induction digits with
  | nil => simp [numeral_nil]
  | cons c cs ih =>
    rw [List.forall_mem_cons, ← ih]
    constructor
    · rintro ⟨n, h⟩
      obtain ⟨value, low, hc, hlow, -⟩ := numeral_cons.1 h
      exact ⟨⟨value, hc⟩, low, hlow⟩
    · rintro ⟨⟨value, hc⟩, low, hlow⟩
      exact ⟨_, numeral_cons.2 ⟨value, low, hc, hlow, rfl⟩⟩

theorem Numeral.unique {radix m n : Nat} {digits : List Char} (hradix : radix ≤ 16)
    (h : Numeral radix digits m) (h' : Numeral radix digits n) : m = n := by
  induction digits generalizing m n with
  | nil => rw [numeral_nil.1 h, numeral_nil.1 h']
  | cons c cs ih =>
    obtain ⟨value, low, hc, hlow, rfl⟩ := numeral_cons.1 h
    obtain ⟨value', low', hc', hlow', rfl⟩ := numeral_cons.1 h'
    rw [hc.unique hradix hc', ih hlow hlow']

theorem Numeral.exists_digitOf {radix n : Nat} {digits : List Char} (h : Numeral radix digits n)
    {c : Char} (hc : c ∈ digits) : ∃ value, DigitOf radix c value :=
  exists_numeral.1 ⟨n, h⟩ c hc

theorem Numeral.toUpper {radix n : Nat} {digits : List Char} (hradix : radix ≤ 16)
    (h : Numeral radix digits n) : Numeral radix (digits.map Char.toUpper) n := by
  obtain ⟨values, hvalues, rfl⟩ := h
  exact ⟨values, List.forall₂_map_left_iff.2 (hvalues.imp fun _ _ hc => hc.toUpper hradix), rfl⟩

/-- Zeros in front change the length of a numeral, and nothing else. -/
theorem Numeral.replicate_append {radix n : Nat} {digits : List Char} (hradix : 0 < radix)
    (h : Numeral radix digits n) (count : Nat) :
    Numeral radix (List.replicate count '0' ++ digits) n := by
  induction count with
  | zero => exact h
  | succ count ih => exact numeral_cons.2 ⟨0, n, ⟨hradix, rfl⟩, ih, by simp⟩

/-! ## Numerals that are written -/

section

variable {radix n : Nat}

theorem mem_toDigits {c : Char} (hradix : 1 < radix) (h : c ∈ Nat.toDigits radix n) :
    ∃ value < radix, c = Nat.digitChar value := by
  induction n using Nat.strong_induction_on with
  | _ n ih =>
    by_cases hn : n < radix
    · rw [Nat.toDigits_of_lt_base hn, List.mem_singleton] at h
      exact ⟨n, hn, h⟩
    · rw [Nat.toDigits_of_base_le hradix (Nat.le_of_not_lt hn), List.mem_append,
        List.mem_singleton] at h
      rcases h with h | h
      · exact ih (n / radix) (Nat.div_lt_self (by omega) hradix) h
      · exact ⟨n % radix, Nat.mod_lt n (by omega), h⟩

/-- The digits that are written for a number are in lower case. -/
theorem map_toLower_toDigits (hlow : 1 < radix) (hhigh : radix ≤ 16) (n : Nat) :
    (Nat.toDigits radix n).map Char.toLower = Nat.toDigits radix n := by
  refine (List.map_congr_left fun c hc => ?_).trans (List.map_id _)
  obtain ⟨value, hvalue, rfl⟩ := mem_toDigits hlow hc
  exact (digitOf_digitChar hhigh hvalue).2

/-- They stand for it. -/
theorem numeral_toDigits (hlow : 1 < radix) (hhigh : radix ≤ 16) (n : Nat) :
    Numeral radix (Nat.toDigits radix n) n := by
  induction n using Nat.strong_induction_on with
  | _ n ih =>
    by_cases hn : n < radix
    · rw [Nat.toDigits_of_lt_base hn]
      exact numeral_singleton (digitOf_digitChar hhigh hn)
    · rw [Nat.toDigits_of_base_le hlow (Nat.le_of_not_lt hn)]
      have hlast := digitOf_digitChar hhigh (Nat.mod_lt n (Nat.zero_lt_of_lt hlow))
      have h := (ih (n / radix) (Nat.div_lt_self (by omega) hlow)).append (numeral_singleton hlast)
      rwa [List.length_singleton, pow_one, Nat.div_add_mod'] at h

/-- A numeral behind the digits of a number that is not zero makes the digits of a longer number. -/
theorem Numeral.toDigits_append {low : Nat} {digits : List Char} (hradix : 1 < radix) (hn : 0 < n)
    (h : Numeral radix digits low) :
    Nat.toDigits radix n ++ digits.map Char.toLower =
      Nat.toDigits radix (n * radix ^ digits.length + low) := by
  induction digits generalizing n low with
  | nil =>
    obtain rfl := numeral_nil.1 h
    simp
  | cons c cs ih =>
    obtain ⟨value, rest, ⟨hvalue, hc⟩, hrest, rfl⟩ := numeral_cons.1 h
    have hpos : 0 < radix * n + value := by positivity
    calc Nat.toDigits radix n ++ (c :: cs).map Char.toLower
        = Nat.toDigits radix n ++ Nat.toDigits radix value ++ cs.map Char.toLower := by
          rw [Nat.toDigits_of_lt_base hvalue, List.map_cons, hc]
          simp
      _ = Nat.toDigits radix (radix * n + value) ++ cs.map Char.toLower := by
          rw [Nat.toDigits_append_toDigits hradix hn hvalue]
      _ = Nat.toDigits radix ((radix * n + value) * radix ^ cs.length + rest) := ih hpos hrest
      _ = Nat.toDigits radix (n * radix ^ (c :: cs).length + (value * radix ^ cs.length + rest)) := by
          rw [List.length_cons]
          ring_nf

end

/-- The digits without zeros in front; of zeros alone one is left. -/
def significantDigits (digits : List Char) : List Char :=
  match digits.dropWhile (· == '0') with
  | [] => ['0']
  | significant => significant

theorem mem_of_mem_significantDigits {digits : List Char} {c : Char}
    (h : c ∈ significantDigits digits) : c = '0' ∨ c ∈ digits := by
  unfold significantDigits at h
  split at h
  · exact .inl (List.mem_singleton.1 h)
  · exact .inr ((List.dropWhile_sublist _).mem h)

/-- Writing the number of a numeral drops its zeros in front and the case of its letters. -/
theorem Numeral.toDigits_eq {radix n : Nat} {digits : List Char} (hlow : 1 < radix)
    (hhigh : radix ≤ 16) (h : Numeral radix digits n) :
    Nat.toDigits radix n = (significantDigits digits).map Char.toLower := by
  induction digits generalizing n with
  | nil =>
    obtain rfl := numeral_nil.1 h
    exact Nat.toDigits_zero radix
  | cons c cs ih =>
    obtain ⟨value, low, hdigit, hrest, rfl⟩ := numeral_cons.1 h
    have hzero : value = 0 ↔ c = '0' := by
      have hcodes := (digitOf_iff hhigh).1 hdigit
      rw [← Char.toNat_inj, show '0'.toNat = 48 from rfl]
      omega
    by_cases hc : c = '0'
    · rw [hzero.2 hc, Nat.zero_mul, Nat.zero_add, ih hrest, hc]
      rfl
    · have hvalue : 0 < value := Nat.pos_of_ne_zero (mt hzero.1 hc)
      rw [← hrest.toDigits_append hlow hvalue, Nat.toDigits_of_lt_base hdigit.1, ← hdigit.2]
      simp [significantDigits, hc]

/-- Decimal digits that count are written as they are. -/
theorem Numeral.toDigits_ten {n : Nat} {digits : List Char} (h : Numeral 10 digits n) :
    Nat.toDigits 10 n = significantDigits digits := by
  rw [h.toDigits_eq (by decide) (by decide)]
  refine (List.map_congr_left fun c hc => ?_).trans (List.map_id _)
  rcases mem_of_mem_significantDigits hc with rfl | hc
  · rfl
  · obtain ⟨value, hdigit⟩ := h.exists_digitOf hc
    exact hdigit.toLower_eq

end Multiword
