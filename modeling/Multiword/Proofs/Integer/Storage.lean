import Multiword.Integer.Native
import Multiword.Integer.Storage
import Multiword.Proofs.Integer.Invariant
import Multiword.Proofs.Run.Success

/-!
# Storage keeps the invariant

What growing, copying and clearing make of capacity, magnitude and sign. A copy asks for room once,
before it writes, and not at all if there is room already.
-/

set_option autoImplicit false

namespace Multiword

/-- The capacity that a buffer has after room for `bits` bits was asked for. -/
def roomFor (capacity bits : Nat) : Nat :=
  if capacity < wordsFor bits then roundedUp (wordsFor bits) else capacity

theorem le_roomFor (capacity bits : Nat) : capacity ≤ roomFor capacity bits := by
  unfold roomFor roundedUp
  split <;> omega

theorem wordsFor_le_roomFor (capacity bits : Nat) : wordsFor bits ≤ roomFor capacity bits := by
  unfold roomFor roundedUp
  split <;> omega

theorem roomFor_of_le {capacity bits : Nat} (h : wordsFor bits ≤ capacity) :
    roomFor capacity bits = capacity :=
  if_neg (by omega)

/-- Failures of an operation whose result would have `bits` bits: only more of them than a machine
counts are refused without a request, or overflow. -/
def TooManyBits (bits : Nat) (failure : Failure) : Prop :=
  (failure = .error .growthRefused ∨ failure = .fault .overflow) ∧ UInt64.size ≤ bits

namespace Integer

open ActionOn (current replace)

/-- What was asked for is there. -/
theorem Holds.room {x : Integer} {old bits magnitude : Nat} {negative : Bool}
    (h : x.Holds (roomFor old bits) magnitude negative) : wordsFor bits ≤ x.capacity := by
  rw [h.capacity_eq]
  exact wordsFor_le_roomFor old bits

/-! ## Sign and zero -/

namespace WellFormed

variable {x : Integer} (hx : x.WellFormed)

include hx

theorem withSign (negative : Bool) :
    (x.withSign negative).Holds x.capacity x.magnitude (negative && decide (x.magnitude ≠ 0)) := by
  have hsign : (negative && x.bits != 0) = (negative && decide (x.magnitude ≠ 0)) := by
    congr 1
    rw [Bool.eq_iff_iff, bne_iff_ne, decide_eq_true_iff, ne_eq, hx.bits_eq_zero]
  refine ⟨wellFormed_of_bits hx.buffer_pos hx.four_dvd hx.bits_eq hx.bits_lt fun h => ?_, rfl, rfl,
    hsign⟩
  have hbits : x.bits = 0 := h
  simp [Integer.withSign, hbits]

theorem unsigned : x.unsigned.Holds x.capacity x.magnitude false :=
  ⟨wellFormed_of_bits hx.buffer_pos hx.four_dvd hx.bits_eq hx.bits_lt fun _ => rfl, rfl, rfl, rfl⟩

theorem negate :
    x.negate.Holds x.capacity x.magnitude (!x.negative && decide (x.magnitude ≠ 0)) := by
  unfold Integer.negate
  split
  · next h =>
    have hzero := hx.bits_eq_zero.1 h
    exact ⟨hx, rfl, rfl, by simp [hzero, hx.sign h]⟩
  · next h =>
    have hzero : x.magnitude ≠ 0 := fun hzero => h (hx.bits_eq_zero.2 hzero)
    refine ⟨wellFormed_of_bits hx.buffer_pos hx.four_dvd hx.bits_eq hx.bits_lt fun h' => ?_, rfl,
      rfl, by simp [hzero]⟩
    exact absurd h' h

theorem cleared : ∃ y, x.cleared = .ok y ∧ y.Holds x.capacity 0 false := by
  have hsize : x.size ≤ x.buffer.length := hx.size_le
  refine ⟨{ buffer := List.replicate x.size 0 ++ x.buffer.drop x.size, bits := 0, negative := false },
    ?_, hx.holds_of_bits ?_ ?_ rfl (by decide) fun _ => rfl⟩
  · simp [Integer.cleared, Words.clear, hsize]
  · rw [List.length_append, List.length_replicate, List.length_drop, capacity]
    omega
  · rw [Words.toNat_append, Words.toNat_replicate_zero, hx.toNat_drop_eq_zero le_rfl, Nat.mul_zero]

end WellFormed

/-- A sign on a magnitude makes an integer; the sign of zero is dropped, and changes nothing. -/
theorem Reaches.withSign {x : Integer} {least magnitude : Nat} {old : Bool}
    (hx : x.Reaches least magnitude old) (negative : Bool) :
    (x.withSign negative).Denotes least (if negative then -magnitude else magnitude) := by
  have h := hx.wellFormed.withSign negative
  refine ⟨h.wellFormed, by rw [h.capacity_eq]; exact hx.le_capacity, ?_⟩
  rw [toInt, h.magnitude_eq, h.negative_eq, hx.magnitude_eq]
  by_cases hzero : magnitude = 0
  · simp [hzero]
  · simp [hzero]

/-! ## Counting the bits again -/

/-- A recount finds the bits of what was written into the buffer, if it starts above all words that
are not zero. -/
theorem WellFormed.normalized {x : Integer} (hx : x.WellFormed) {buffer : List Word}
    {magnitude : Nat} (top : Nat) (hlength : buffer.length = x.capacity)
    (hvalue : Words.toNat buffer = magnitude) (hzero : Words.toNat (buffer.drop top) = 0)
    (hlt : bitLength magnitude < UInt64.size) :
    ∃ y, Integer.normalized { x with buffer } top = .ok y ∧
      y.Holds x.capacity magnitude (x.negative && decide (magnitude ≠ 0)) := by
  have hdrop : Words.toNat (buffer.drop (min top buffer.length)) = 0 := by
    rcases Nat.le_total top buffer.length with h | h
    · rwa [min_eq_left h]
    · rw [min_eq_right h, List.drop_length, Words.toNat_nil]
  have hall : (buffer.drop (min top buffer.length)).all (· == 0) := by
    rw [List.all_eq_true]
    intro w hw
    rw [Words.toNat_eq_zero.1 hdrop w hw]
    rfl
  have hbits : Words.bitLength (buffer.take (min top buffer.length)) = bitLength magnitude := by
    rw [Words.bitLength_eq, ← hvalue,
      ← Words.toNat_take_drop buffer (min_le_right top buffer.length), hdrop, Nat.mul_zero, add_zero]
  have hsign : (x.negative && bitLength magnitude != 0) =
      (x.negative && decide (magnitude ≠ 0)) := by
    congr 1
    rw [Bool.eq_iff_iff, bne_iff_ne, decide_eq_true_iff, ne_eq, bitLength_eq_zero]
  refine ⟨{
      buffer
      bits := bitLength magnitude
      negative := x.negative && decide (magnitude ≠ 0) }, ?_,
    hx.holds_of_bits hlength hvalue rfl hlt fun h => ?_⟩
  · unfold Integer.normalized
    show (require ((buffer.drop (min top buffer.length)).all (· == 0)) _ >>= fun _ => _) = _
    rw [require_of _ hall, Checked.ok_bind, ← hsign, ← hbits]
    rfl
  · rw [bitLength_eq_zero] at h
    simp [h]

/-- The same for words that were written below `top`. -/
theorem WellFormed.normalized_front {x : Integer} (hx : x.WellFormed) {front : List Word}
    {top magnitude : Nat} (hsize : x.size ≤ top) (htop : top ≤ x.capacity)
    (hlength : front.length = top) (hvalue : Words.toNat front = magnitude)
    (hlt : bitLength magnitude < UInt64.size) :
    ∃ y, Integer.normalized { x with buffer := front ++ x.buffer.drop top } top = .ok y ∧
      y.Holds x.capacity magnitude (x.negative && decide (magnitude ≠ 0)) := by
  have hzero := hx.toNat_drop_eq_zero hsize
  refine hx.normalized top ?_ ?_ ?_ hlt
  · rw [List.length_append, hlength, List.length_drop]
    unfold capacity at htop ⊢
    omega
  · rw [Words.toNat_append, hvalue, hzero, Nat.mul_zero, add_zero]
  · rw [← hlength, List.drop_left, hlength, hzero]

/-! ## Growth -/

theorem WellFormed.grownTo {x : Integer} (hx : x.WellFormed) {capacity : Nat} (h : 4 ∣ capacity) :
    (x.grownTo capacity).Holds (max x.capacity capacity) x.magnitude x.negative := by
  refine ⟨wellFormed_of_bits ?_ ?_ ?_ hx.bits_lt hx.sign, capacity_grownTo x capacity,
    magnitude_grownTo x capacity, rfl⟩
  · rw [capacity_grownTo]
    exact lt_max_of_lt_left hx.buffer_pos
  · rw [capacity_grownTo]
    rcases max_choice x.capacity capacity with hmax | hmax <;> rw [hmax]
    · exact hx.four_dvd
    · exact h
  · rw [magnitude_grownTo]
    exact hx.bits_eq

theorem four_dvd_roundedUp (words : Nat) : 4 ∣ roundedUp words :=
  Nat.dvd_mul_left 4 _

/-- Room that is there is not asked for. -/
theorem exec_ensureCapacity_of_le {bits : Nat} {x : Integer} (h : wordsFor bits ≤ x.capacity)
    (memory : Memory) : (ensureCapacity bits).exec x memory = (.ok (), x, memory) := by
  rw [exec_ensureCapacity, if_neg (by omega)]

/-- What comes after a request for room that is there does not notice it. -/
theorem settles_room {α : Type} {bits : Nat} {x : Integer} (h : wordsFor bits ≤ x.capacity)
    {next : Unit → Update α} {post : α → Integer → Prop} :
    (ensureCapacity bits >>= next).Settles x post ↔ (next ()).Settles x post := by
  simp only [ActionOn.Settles, ActionOn.exec_bind, exec_ensureCapacity_of_le h]

theorem WellFormed.ensureCapacity {x : Integer} (hx : x.WellFormed) (bits : Nat)
    {fails : Failure → Prop} :
    (Integer.ensureCapacity bits).Attempts x 1 bits fails fun _ y =>
      y.Holds (roomFor x.capacity bits) x.magnitude x.negative := by
  intro memory
  by_cases h : x.capacity < wordsFor bits
  · rw [exec_ensureCapacity, if_pos h, Action.exec_request]
    by_cases hrefuses : memory.Refuses 0 (roundedUp (wordsFor bits))
    · have hcond : (memory.refuses memory.requests ||
          decide (Memory.wordLimit ≤ roundedUp (wordsFor bits))) = true := by
        simpa [Memory.Refuses] using hrefuses
      rw [if_pos (by simpa using hcond)]
      exact .inr (.inl ⟨0, Nat.zero_lt_one, [], _, _, le_rfl, hrefuses, rfl⟩)
    · have hcond : ¬(memory.refuses memory.requests ||
          decide (Memory.wordLimit ≤ roundedUp (wordsFor bits))) = true := by
        simpa [Memory.Refuses] using hrefuses
      rw [if_neg (by simpa using hcond)]
      have hgrown := hx.grownTo (four_dvd_roundedUp (wordsFor bits))
      refine .inl ⟨(), x.grownTo (roundedUp (wordsFor bits)), 1, le_rfl, [], ?_, ?_⟩
      · simp [Memory.after]
      · rw [roomFor, if_pos h]
        rwa [max_eq_right] at hgrown
        unfold roundedUp
        omega
  · refine .inl ⟨(), x, 0, Nat.zero_le _, [], ?_, ?_⟩
    · rw [exec_ensureCapacity_of_le (by omega), Memory.after_zero]
    · rw [roomFor, if_neg h]
      exact hx.holds

theorem WellFormed.makes_ensureCapacity {x : Integer} (hx : x.WellFormed) (bits : Nat) :
    (Integer.ensureCapacity bits).Makes x fun _ y =>
      y.Holds (roomFor x.capacity bits) x.magnitude x.negative :=
  (@WellFormed.ensureCapacity x hx bits fun _ => False).makes

/-- What settles where there is room is an attempt that asks for it once. -/
theorem WellFormed.attempts_of_settles {α : Type} {x : Integer} (hx : x.WellFormed) {bits : Nat}
    {next : Unit → Update α} {fails : Failure → Prop} {post : α → Integer → Prop}
    (h : ∀ y : Integer, y.Holds (roomFor x.capacity bits) x.magnitude x.negative →
      (Integer.ensureCapacity bits >>= next).Settles y post) :
    (Integer.ensureCapacity bits >>= next).Attempts x 1 bits fails post := by
  exact (hx.ensureCapacity bits).bind_settles fun _ y hy => (settles_room hy.room).1 (h y hy)

/-! ## Copies -/

/-- A copy writes over the words of the source and clears what was in use above them. -/
theorem WellFormed.settles_copyFrom {x source : Integer} (hx : x.WellFormed)
    (hsource : source.WellFormed) (hroom : source.size ≤ x.capacity) :
    (copyFrom source).Settles x fun _ y =>
      y.Holds x.capacity source.magnitude source.negative := by
  have hxsize := hx.size_le
  have hlength := hsource.length_words
  set words := source.buffer.take source.size with hwords
  have hoverwrite : Words.overwrite x.buffer words = .ok (words ++ x.buffer.drop source.size) := by
    rw [Words.overwrite, if_pos (by rw [hlength]; exact hroom), hlength]
  unfold Integer.copyFrom
  apply (settles_room hroom).2
  apply ActionOn.settles_current
  apply ActionOn.settles_checked hsource.words_eq
  apply ActionOn.settles_checked hoverwrite
  split
  · next h =>
    rw [← hwords, hlength] at h ⊢
    -- what the destination had in use above the source has to go
    have hclear : Words.clear (words ++ x.buffer.drop source.size) source.size x.size =
        .ok (words ++ List.replicate (x.size - source.size) 0 ++ x.buffer.drop x.size) := by
      rw [Words.clear, if_pos]
      · rw [← hlength, List.take_left, List.drop_append, hlength, List.drop_drop,
          List.drop_eq_nil_of_le (by omega), List.nil_append,
          show source.size + (x.size - source.size) = x.size by omega]
      · rw [List.length_append, hlength, List.length_drop]
        exact ⟨by omega, by unfold capacity at hxsize; omega⟩
    apply ActionOn.settles_checked hclear
    refine ActionOn.settles_replace
      (hx.holds_of_bits ?_ ?_ hsource.bits_eq hsource.bits_lt hsource.sign)
    · simp only [List.length_append, List.length_replicate, List.length_drop, hlength]
      unfold capacity at hxsize ⊢
      omega
    · rw [Words.toNat_append, Words.toNat_append, hx.toNat_drop_eq_zero le_rfl,
        Words.toNat_replicate_zero, hsource.toNat_words]
      simp
  · next h =>
    rw [← hwords, hlength] at h
    refine ActionOn.settles_replace
      (hx.holds_of_bits ?_ ?_ hsource.bits_eq hsource.bits_lt hsource.sign)
    · rw [List.length_append, hlength, List.length_drop]
      unfold capacity at hroom ⊢
      omega
    · rw [Words.toNat_append, hx.toNat_drop_eq_zero (by omega), hsource.toNat_words]
      simp

theorem WellFormed.copyFrom {x source : Integer} (hx : x.WellFormed) (hsource : source.WellFormed)
    {fails : Failure → Prop} :
    (Integer.copyFrom source).Attempts x 1 source.bits fails fun _ y =>
      y.Holds (roomFor x.capacity source.bits) source.magnitude source.negative := by
  unfold Integer.copyFrom
  apply hx.attempts_of_settles
  intro y hy
  have h := hy.wellFormed.settles_copyFrom hsource hy.room
  rwa [hy.capacity_eq] at h

/-- An update that ends without the sign: the magnitude is what counts. -/
theorem WellFormed.makes_copyFrom {x source : Integer} (hx : x.WellFormed)
    (hsource : source.WellFormed) : (Integer.copyFrom source).Makes x fun _ y =>
      y.Holds (roomFor x.capacity source.bits) source.magnitude source.negative :=
  (@WellFormed.copyFrom x source hx hsource fun _ => False).makes

theorem settles_unsigned {x : Integer} {capacity magnitude : Nat} {negative : Bool}
    (hx : x.Holds capacity magnitude negative) :
    (current >>= fun x => replace x.unsigned : Update Unit).Settles x fun _ y =>
      y.Holds capacity magnitude false := by
  have h := hx.wellFormed.unsigned
  rw [hx.capacity_eq, hx.magnitude_eq] at h
  exact ActionOn.settles_current (ActionOn.settles_replace h)

theorem WellFormed.copyMagnitude {x source : Integer} (hx : x.WellFormed)
    (hsource : source.WellFormed) {fails : Failure → Prop} :
    (Integer.copyMagnitude source).Attempts x 1 source.bits fails fun _ y =>
      y.Holds (roomFor x.capacity source.bits) source.magnitude false :=
  (hx.copyFrom hsource).bind_settles fun _ _ hy => settles_unsigned hy

theorem WellFormed.settles_copyMagnitude {x source : Integer} (hx : x.WellFormed)
    (hsource : source.WellFormed) (hroom : source.size ≤ x.capacity) :
    (Integer.copyMagnitude source).Settles x fun _ y =>
      y.Holds x.capacity source.magnitude false :=
  (hx.settles_copyFrom hsource hroom).bind fun _ _ hy => settles_unsigned hy

theorem WellFormed.copy {x : Integer} (hx : x.WellFormed) {fails : Failure → Prop} :
    x.copy.Attempts 1 x.bits fails fun y => y.Holds (roomFor 4 x.bits) x.magnitude x.negative :=
  (wellFormed_zero.copyFrom hx).applyTo

theorem WellFormed.makes_copy {x : Integer} (hx : x.WellFormed) :
    x.copy.Makes fun y => y.Holds (roomFor 4 x.bits) x.magnitude x.negative :=
  (wellFormed_zero.makes_copyFrom hx).applyTo

/-! ## Native values and single bits -/

/-- Two words hold a native integer, and every buffer has four. -/
theorem WellFormed.setUnsigned {x : Integer} (hx : x.WellFormed) (n : UInt64) :
    ∃ y, x.setUnsigned n = .ok y ∧ y.Holds x.capacity n.toNat false := by
  obtain ⟨z, hz, hholds⟩ := hx.cleared
  have hfour : 4 ∣ x.capacity := hx.four_dvd
  have hpos : 0 < x.capacity := hx.buffer_pos
  obtain ⟨k, hk⟩ : ∃ k, x.capacity = k + 2 := ⟨x.capacity - 2, by omega⟩
  have hzeros : z.buffer = 0 :: 0 :: List.replicate k 0 := by
    have h := Words.eq_replicate_of_toNat_eq_zero hholds.magnitude_eq
    have hlength : z.buffer.length = k + 2 := hholds.capacity_eq.trans hk
    rwa [hlength, List.replicate_succ, List.replicate_succ] at h
  set low : Word := UInt32.ofNat n.toNat with hlow
  set high : Word := UInt32.ofNat (n.toNat / radix) with hhigh
  set buffer := low :: high :: List.replicate k 0 with hbuffer
  have hlength : buffer.length = z.capacity := by
    rw [hholds.capacity_eq, hk]
    simp [hbuffer]
  have hvalue : Words.toNat buffer = n.toNat := by
    have hn := n.toNat_lt
    have hlowvalue : low.toNat = n.toNat % radix := UInt32.toNat_ofNat'
    have hhighvalue : high.toNat = n.toNat / radix := by
      rw [hhigh, UInt32.toNat_ofNat', radix_eq]
      omega
    show low.toNat + radix * (high.toNat + radix * Words.toNat (List.replicate k 0)) = n.toNat
    rw [Words.toNat_replicate_zero, hlowvalue, hhighvalue, Nat.mul_zero, add_zero]
    exact Nat.mod_add_div _ _
  have hbits : bitLength n.toNat < UInt64.size :=
    lt_of_le_of_lt (bitLength_le.2 n.toNat_lt) (by decide)
  obtain ⟨y, hy, hyholds⟩ :=
    hholds.wellFormed.normalized 2 hlength hvalue (Words.toNat_replicate_zero k) hbits
  refine ⟨y, ?_, ?_⟩
  · rw [Integer.setUnsigned, hz, Checked.ok_bind, hzeros]
    exact hy
  · rwa [hholds.capacity_eq, hholds.negative_eq, Bool.false_and] at hyholds

/-- The magnitude of a signed native integer is an unsigned one. -/
theorem toNat_natAbs (n : Int64) : (UInt64.ofNat n.toInt.natAbs).toNat = n.toInt.natAbs := by
  have hlow := n.le_toInt
  have hhigh := n.toInt_lt
  rw [UInt64.toNat_ofNat']
  omega

theorem WellFormed.setSigned {x : Integer} (hx : x.WellFormed) (n : Int64) :
    ∃ y, x.setSigned n = .ok y ∧ y.Holds x.capacity n.toInt.natAbs (decide (n.toInt < 0)) := by
  obtain ⟨z, hz, hholds⟩ := hx.setUnsigned (UInt64.ofNat n.toInt.natAbs)
  rw [toNat_natAbs] at hholds
  have hsigned := hholds.wellFormed.withSign (decide (n < 0))
  rw [hholds.capacity_eq, hholds.magnitude_eq] at hsigned
  refine ⟨z.withSign (n < 0), by rw [Integer.setSigned, hz]; rfl, hsigned.of_eq rfl ?_⟩
  rw [Bool.eq_iff_iff]
  simp only [Int64.lt_iff_toInt_lt, Int64.toInt_zero, Bool.and_eq_true, decide_eq_true_eq]
  omega

theorem ofSigned_one : ofSigned 1 = .ok ⟨[1, 0, 0, 0], 1, false⟩ := by decide

theorem wellFormed_one : WellFormed ⟨[1, 0, 0, 0], 1, false⟩ :=
  wellFormed_of_bits (by decide) (by decide) (by decide) (by decide) (by decide)

theorem WellFormed.settles_setBit {x : Integer} (hx : x.WellFormed) {n : Nat}
    (hlt : n + 1 < UInt64.size) (hroom : wordsFor (n + 1) ≤ x.capacity) :
    (Integer.setBit n).Settles x fun _ y =>
      y.Holds x.capacity (x.magnitude ||| 2 ^ n) x.negative := by
  have hindex : n / 32 < x.buffer.length := by
    rw [wordsFor_le] at hroom
    unfold capacity at hroom
    omega
  obtain ⟨word, hword⟩ : ∃ word, x.buffer[n / 32]? = some word :=
    ⟨_, List.getElem?_eq_getElem hindex⟩
  have hread : Words.read x.buffer (n / 32) = .ok word := by rw [Words.read, hword]
  have hvalue := Words.toNat_set_bit hword
  set buffer := x.buffer.set (n / 32) (word ||| 1 <<< UInt32.ofNat (n % 32)) with hbuffer
  have hwrite : Words.write x.buffer (n / 32) (word ||| 1 <<< UInt32.ofNat (n % 32)) = .ok buffer :=
    if_pos hindex
  unfold Integer.setBit
  rw [if_neg (by omega)]
  apply (settles_room hroom).2
  apply ActionOn.settles_current
  apply ActionOn.settles_checked hread
  apply ActionOn.settles_checked hwrite
  refine ActionOn.settles_replace
    (hx.holds_of_bits List.length_set hvalue ?_ ?_ fun hzero => ?_)
  · rw [bitLength_or_two_pow, hx.bits_eq]
  · exact max_lt hx.bits_lt hlt
  · omega

/-- A bit position beyond the machine is refused without a request. -/
theorem WellFormed.setBit {x : Integer} (hx : x.WellFormed) (n : Nat) :
    (Integer.setBit n).Attempts x 1 (n + 1)
      (fun failure => failure = .error .growthRefused ∧ UInt64.size ≤ n + 1) fun _ y =>
      y.Holds (roomFor x.capacity (n + 1)) (x.magnitude ||| 2 ^ n) x.negative := by
  unfold Integer.setBit
  split
  · next hle => exact ActionOn.attempts_throw ⟨rfl, hle⟩
  · next hlt =>
    apply hx.attempts_of_settles
    intro y hy
    have h := hy.wellFormed.settles_setBit (Nat.lt_of_not_le hlt) hy.room
    unfold Integer.setBit at h
    rwa [if_neg hlt, hy.capacity_eq, hy.magnitude_eq, hy.negative_eq] at h

end Integer

end Multiword
