import Mathlib.Tactic.LinearCombination
import Multiword.Proofs.Words.Bits
import Multiword.Words.Shift

/-!
# Exact shifts of words

A shift to the left multiplies by a power of two as long as nothing leaves the buffer; a shift to
the right divides by one and drops the remainder. What a word hands to its neighbour is its high
bits in the one direction and its low bits in the other.
-/

set_option autoImplicit false

namespace Multiword

/-! ## One word and its neighbour -/

namespace Word

section Shift

variable {bits : Nat} (hpos : 0 < bits) (hlt : bits < 32)

include hlt

theorem toNat_shift_amount : (UInt32.ofNat bits).toNat % 32 = bits := by
  rw [UInt32.toNat_ofNat']
  omega

theorem toNat_shiftDown_top (w : Word) : (w >>> UInt32.ofNat bits).toNat = w.toNat / 2 ^ bits := by
  rw [UInt32.toNat_shiftRight, toNat_shift_amount hlt, Nat.shiftRight_eq_div_pow]

include hpos

theorem toNat_shift_rest : (32 - UInt32.ofNat bits).toNat % 32 = 32 - bits := by
  rw [UInt32.toNat_sub, UInt32.toNat_ofNat']
  show (2 ^ 32 - bits % 2 ^ 32 + 32) % 2 ^ 32 % 32 = 32 - bits
  omega

/-- The word keeps its low bits, and the high bits of the word below enter. -/
theorem toNat_shiftUp (below w : Word) :
    (w <<< UInt32.ofNat bits ||| below >>> (32 - UInt32.ofNat bits)).toNat =
      w.toNat * 2 ^ bits % radix + below.toNat / 2 ^ (32 - bits) := by
  have hlow : below.toNat / 2 ^ (32 - bits) < 2 ^ bits := by
    rw [Nat.div_lt_iff_lt_mul (by positivity), ← pow_add, show bits + (32 - bits) = 32 by omega]
    exact below.toNat_lt
  have hsplit : w.toNat * 2 ^ bits % 2 ^ 32 = 2 ^ bits * (w.toNat % 2 ^ (32 - bits)) := by
    rw [← Nat.mul_mod_mul_left, ← pow_add, show bits + (32 - bits) = 32 by omega, Nat.mul_comm]
  rw [UInt32.toNat_or, UInt32.toNat_shiftLeft, UInt32.toNat_shiftRight, toNat_shift_amount hlt,
    toNat_shift_rest hpos hlt, Nat.shiftLeft_eq, Nat.shiftRight_eq_div_pow,
    show radix = 2 ^ 32 from rfl, hsplit, Nat.two_pow_add_eq_or_of_lt hlow]

/-- The word keeps its high bits, and the low bits of the word above enter. -/
theorem toNat_shiftDown (w above : Word) :
    (w >>> UInt32.ofNat bits ||| above <<< (32 - UInt32.ofNat bits)).toNat =
      w.toNat / 2 ^ bits + 2 ^ (32 - bits) * (above.toNat % 2 ^ bits) := by
  have hlow : w.toNat / 2 ^ bits < 2 ^ (32 - bits) := by
    rw [Nat.div_lt_iff_lt_mul (by positivity), ← pow_add, show 32 - bits + bits = 32 by omega]
    exact w.toNat_lt
  have hsplit : above.toNat * 2 ^ (32 - bits) % 2 ^ 32 =
      2 ^ (32 - bits) * (above.toNat % 2 ^ bits) := by
    rw [← Nat.mul_mod_mul_left, ← pow_add, show 32 - bits + bits = 32 by omega, Nat.mul_comm]
  rw [UInt32.toNat_or, UInt32.toNat_shiftLeft, toNat_shiftDown_top hlt, toNat_shift_rest hpos hlt,
    Nat.shiftLeft_eq, hsplit, Nat.or_comm, ← Nat.two_pow_add_eq_or_of_lt hlow, Nat.add_comm]

end Shift

end Word

namespace Words

/-! ## To the left -/

@[simp] theorem length_shiftUp (bits : UInt32) (below : Word) (ws : List Word) :
    (shiftUp bits below ws).length = ws.length := by
  induction ws generalizing below with
  | nil => rfl
  | cons w ws ih => simp [shiftUp, ih]

/-- The high bits of the word below enter, and those of the top word are lost. -/
theorem toNat_shiftUp {bits : Nat} (hpos : 0 < bits) (hlt : bits < 32) (below : Word)
    (ws : List Word) :
    toNat (shiftUp (UInt32.ofNat bits) below ws) + radix ^ ws.length *
        ((ws.getLast?.getD below).toNat / 2 ^ (32 - bits)) =
      toNat ws * 2 ^ bits + below.toNat / 2 ^ (32 - bits) := by
  induction ws generalizing below with
  | nil => simp [shiftUp]
  | cons w ws ih =>
    have hradix : radix = 2 ^ bits * 2 ^ (32 - bits) := by
      rw [← pow_add, show bits + (32 - bits) = 32 by omega]
      rfl
    have hdiv : w.toNat * 2 ^ bits / radix = w.toNat / 2 ^ (32 - bits) := by
      rw [hradix, Nat.mul_comm w.toNat, Nat.mul_div_mul_left _ _ (by positivity)]
    have hword := Nat.div_add_mod (w.toNat * 2 ^ bits) radix
    rw [hdiv] at hword
    rw [shiftUp, toNat_cons, toNat_cons, Word.toNat_shiftUp hpos hlt, List.getLast?_cons,
      Option.getD_some, List.length_cons, pow_succ']
    linear_combination radix * ih w + hword

theorem toNat_shiftUp_of_lt {bits : Nat} (hpos : 0 < bits) (hlt : bits < 32) {ws : List Word}
    (hfits : toNat ws * 2 ^ bits < radix ^ ws.length) :
    toNat (shiftUp (UInt32.ofNat bits) 0 ws) = toNat ws * 2 ^ bits := by
  have hvalue := toNat_shiftUp hpos hlt 0 ws
  have hbound := toNat_lt (shiftUp (UInt32.ofNat bits) 0 ws)
  rw [length_shiftUp] at hbound
  rw [UInt32.toNat_zero, Nat.zero_div, add_zero] at hvalue
  rw [← Nat.mod_eq_of_lt hbound, ← Nat.mod_eq_of_lt hfits, ← hvalue, Nat.add_mul_mod_self_left]

/-- Words shifted within a window that holds all of them that are not zero, and has room for what
they become. -/
theorem toNat_shiftUp_window {ws : List Word} {places top value bits : Nat} (hpos : 0 < bits)
    (hlt : bits < 32) (hplaces : places ≤ top) (htop : top ≤ ws.length)
    (hvalue : toNat ws = radix ^ places * value) (hbound : toNat ws < radix ^ top)
    (hfits : value * 2 ^ bits < radix ^ (top - places)) :
    toNat (ws.take places ++ shiftUp (UInt32.ofNat bits) 0 ((ws.take top).drop places) ++
      ws.drop top) = toNat ws * 2 ^ bits := by
  have htopLength : (ws.take top).length = top := by
    rw [List.length_take]
    exact min_eq_left htop
  have hbelow : toNat (ws.take places) = 0 := by
    rw [toNat_take _ (hplaces.trans htop), hvalue, Nat.mul_mod_right]
  have habove : toNat (ws.drop top) = 0 := by
    rw [toNat_drop _ htop, Nat.div_eq_of_lt hbound]
  have hwindow : toNat ((ws.take top).drop places) = value := by
    rw [toNat_drop _ (by rwa [htopLength]), toNat_take _ htop, Nat.mod_eq_of_lt hbound, hvalue,
      Nat.mul_div_cancel_left _ (radix_pow_pos places)]
  have hshifted : toNat (shiftUp (UInt32.ofNat bits) 0 ((ws.take top).drop places)) =
      value * 2 ^ bits := by
    rw [toNat_shiftUp_of_lt hpos hlt, hwindow]
    rwa [hwindow, List.length_drop, htopLength]
  rw [toNat_append, toNat_append, hbelow, habove, hshifted, List.length_take,
    min_eq_left (hplaces.trans htop), hvalue]
  ring

/-- Whole words that move up leave the buffer at its length. -/
theorem length_moved {ws : List Word} {len places : Nat} (h : len + places ≤ ws.length) :
    (List.replicate places 0 ++ ws.take len ++ ws.drop (places + len)).length = ws.length := by
  simp only [List.length_append, List.length_replicate, List.length_take, List.length_drop]
  omega

/-- A shift to the left multiplies, if there is nothing above the words to be shifted and the
product fits. -/
theorem shiftLeft_eq {ws : List Word} {len n : Nat} (hzero : ∀ w ∈ ws.drop len, w = 0)
    (hlength : len + n / 32 ≤ ws.length) (hfits : toNat ws * 2 ^ n < radix ^ ws.length) :
    ∃ shifted, shiftLeft ws len n = .ok shifted ∧ shifted.length = ws.length ∧
      toNat shifted = toNat ws * 2 ^ n := by
  have hlow : toNat (ws.take len) = toNat ws := by
    rw [← toNat_take_drop ws (n := len) (by omega), toNat_eq_zero.2 hzero, Nat.mul_zero, add_zero]
  have hbound : toNat ws < radix ^ len := by
    have := toNat_lt (ws.take len)
    rwa [hlow, List.length_take, min_eq_left (by omega)] at this
  have hpow : 2 ^ n = radix ^ (n / 32) * 2 ^ (n % 32) := by
    rw [radix_pow, ← pow_add, Nat.div_add_mod]
  set places := n / 32
  -- whole words move first
  set moved := List.replicate places 0 ++ ws.take len ++ ws.drop (places + len) with hmoved
  have hmovedLength : moved.length = ws.length := length_moved hlength
  have hmovedValue : toNat moved = radix ^ places * toNat ws := by
    have hhigh : toNat (ws.drop (places + len)) = 0 := by
      rw [toNat_drop _ (by omega), Nat.div_eq_of_lt]
      exact lt_of_lt_of_le hbound (Nat.pow_le_pow_right radix_pos (by omega))
    simp [hmoved, toNat_append, hlow, hhigh]
  have hstop : position ws (len + n / 32) = .ok (len + n / 32) :=
    position_of_le (Nat.le_succ_of_le hlength)
  have hnext : position ws (len + n / 32 + 1) = .ok (len + n / 32 + 1) :=
    position_of_le (Nat.succ_le_succ hlength)
  unfold shiftLeft
  simp only [hstop, hnext, require_of .brokenPromise (show len + n / 32 ≤ ws.length from hlength),
    Checked.ok_bind]
  split
  · next hbits => exact ⟨moved, rfl, hmovedLength, by rw [hmovedValue, hpow, hbits]; ring⟩
  · next hbits =>
    set top := min (len + places + 1) ws.length
    have hmovedBound : toNat moved < radix ^ top := by
      calc toNat moved = radix ^ places * toNat ws := hmovedValue
        _ < radix ^ places * radix ^ len := Nat.mul_lt_mul_of_pos_left hbound (radix_pow_pos places)
        _ = radix ^ (places + len) := (pow_add ..).symm
        _ ≤ radix ^ top := Nat.pow_le_pow_right radix_pos (by omega)
    -- the window has a word more than those in use, or it ends with the buffer
    have hwindowFits : toNat ws * 2 ^ (n % 32) < radix ^ (top - places) := by
      obtain htop | htop : top = len + 1 + places ∨ top = ws.length := by omega
      · rw [htop, Nat.add_sub_cancel, pow_succ]
        have hsmall : 2 ^ (n % 32) < radix :=
          Nat.pow_lt_pow_right (by decide) (Nat.mod_lt n (by decide))
        exact Nat.mul_lt_mul'' hbound hsmall
      · rw [htop]
        refine Nat.lt_of_mul_lt_mul_left (a := radix ^ places) ?_
        rw [← pow_add, Nat.add_sub_cancel' (by omega)]
        calc radix ^ places * (toNat ws * 2 ^ (n % 32)) = toNat ws * 2 ^ n := by rw [hpow]; ring
          _ < radix ^ ws.length := hfits
    refine ⟨moved.take places ++ shiftUp (UInt32.ofNat (n % 32)) 0 ((moved.take top).drop places) ++
      moved.drop top, rfl, ?_, ?_⟩
    · simp only [List.length_append, List.length_take, length_shiftUp, List.length_drop]
      omega
    · rw [toNat_shiftUp_window (by omega) (Nat.mod_lt n (by decide)) (by omega) (by omega)
        hmovedValue hmovedBound hwindowFits, hmovedValue, hpow]
      ring

/-! ## To the right -/

@[simp] theorem length_shiftDown (bits : UInt32) (ws : List Word) :
    (shiftDown bits ws).length = ws.length := by
  fun_induction shiftDown bits ws with
  | case1 => rfl
  | case2 => rfl
  | case3 w above ws ih => simpa using ih

theorem toNat_shiftDown {bits : Nat} (hpos : 0 < bits) (hlt : bits < 32) (ws : List Word) :
    toNat (shiftDown (UInt32.ofNat bits) ws) = toNat ws / 2 ^ bits := by
  have hradix : radix = 2 ^ bits * 2 ^ (32 - bits) := by
    rw [← pow_add, show bits + (32 - bits) = 32 by omega]
    rfl
  fun_induction shiftDown (UInt32.ofNat bits) ws with
  | case1 => simp
  | case2 w => simp [Word.toNat_shiftDown_top hlt]
  | case3 w above ws ih =>
    -- what the words above lose is what their lowest word hands down
    have hlost : toNat (above :: ws) % 2 ^ bits = above.toNat % 2 ^ bits := by
      rw [toNat_cons, hradix, Nat.mul_assoc, Nat.add_mul_mod_self_left]
    have hsplit := Nat.div_add_mod (toNat (above :: ws)) (2 ^ bits)
    rw [hlost] at hsplit
    have hdiv : toNat (w :: above :: ws) / 2 ^ bits =
        w.toNat / 2 ^ bits + 2 ^ (32 - bits) * toNat (above :: ws) := by
      rw [toNat_cons w, hradix, Nat.mul_assoc, Nat.add_mul_div_left _ _ (by positivity)]
    rw [toNat_cons, Word.toNat_shiftDown hpos hlt, ih, hdiv]
    calc w.toNat / 2 ^ bits + 2 ^ (32 - bits) * (above.toNat % 2 ^ bits) +
          radix * (toNat (above :: ws) / 2 ^ bits)
        = w.toNat / 2 ^ bits + 2 ^ (32 - bits) *
            (2 ^ bits * (toNat (above :: ws) / 2 ^ bits) + above.toNat % 2 ^ bits) := by
          rw [hradix]; ring
      _ = w.toNat / 2 ^ bits + 2 ^ (32 - bits) * toNat (above :: ws) := by rw [hsplit]

/-- A shift to the right divides the number of the low words and leaves the others alone. -/
theorem shiftRight_eq {ws : List Word} {len : Nat} (n : Nat) (hlength : len ≤ ws.length) :
    ∃ shifted, shiftRight ws len n = .ok (shifted ++ ws.drop len) ∧ shifted.length = len ∧
      toNat shifted = toNat (ws.take len) / 2 ^ n := by
  have hpow : 2 ^ n = radix ^ (n / 32) * 2 ^ (n % 32) := by
    rw [radix_pow, ← pow_add, Nat.div_add_mod]
  have htakeLength : (ws.take len).length = len := by
    rw [List.length_take]
    omega
  unfold shiftRight
  simp only [require_of .outOfRange (Or.inr hlength : n = 0 ∨ _), Checked.ok_bind]
  split
  · next hplaces =>
    refine ⟨List.replicate len 0, rfl, List.length_replicate, ?_⟩
    have hbound := toNat_lt (ws.take len)
    rw [htakeLength] at hbound
    rw [toNat_replicate_zero, Nat.div_eq_of_lt]
    calc toNat (ws.take len) < radix ^ len := hbound
      _ ≤ radix ^ (n / 32) := Nat.pow_le_pow_right radix_pos hplaces
      _ ≤ 2 ^ n := by rw [hpow]; exact Nat.le_mul_of_pos_right _ (by positivity)
  · next hplaces =>
    have hkept : toNat ((ws.take len).drop (n / 32)) = toNat (ws.take len) / radix ^ (n / 32) :=
      toNat_drop _ (by omega)
    rw [hpow, ← Nat.div_div_eq_div_mul, ← hkept]
    by_cases hbits : n % 32 = 0
    · refine ⟨(ws.take len).drop (n / 32) ++ List.replicate (n / 32) 0, ?_, ?_, ?_⟩
      · simp [hbits]
      · rw [List.length_append, List.length_drop, List.length_replicate]
        omega
      · simp [toNat_append, hbits]
    · refine ⟨shiftDown (UInt32.ofNat (n % 32)) ((ws.take len).drop (n / 32)) ++
        List.replicate (n / 32) 0, ?_, ?_, ?_⟩
      · simp [hbits]
      · rw [List.length_append, length_shiftDown, List.length_drop, List.length_replicate]
        omega
      · rw [toNat_append, toNat_replicate_zero, Nat.mul_zero, add_zero,
          toNat_shiftDown (by omega) (Nat.mod_lt n (by decide))]

end Words

end Multiword
