import Mathlib.Data.List.TakeWhile
import Multiword.Proofs.Integer.Encoding

/-!
# Writing a magnitude

The bytes that are written are the digits of the magnitude, and the bit count says how many there
are. So bytes that were loaded are written again, but for the zeros in front, and bytes or words that
were written load as the magnitude.
-/

set_option autoImplicit false

namespace Multiword

namespace Checked

/-- A list of checks that hold gives the list of their results. -/
theorem mapM_eq {α β : Type} {xs : List α} {f : α → Checked β} {g : α → β}
    (h : ∀ x ∈ xs, f x = .ok (g x)) : xs.mapM f = .ok (xs.map g) := by
  induction xs with
  | nil => rfl
  | cons x xs ih =>
    have htail := ih fun y hy => h y (List.mem_cons_of_mem x hy)
    rw [List.mapM_cons, h x List.mem_cons_self, htail]
    rfl

end Checked

namespace Integer

/-- The bytes of the magnitude, as many as it takes, the highest first. -/
def bigEndian (x : Integer) : List UInt8 := (Bytes.ofNat x.byteSize x.magnitude).reverse

@[simp] theorem length_bigEndian (x : Integer) : x.bigEndian.length = x.byteSize := by
  simp [bigEndian]

namespace WellFormed

variable {x : Integer} (hx : x.WellFormed)

include hx

/-! ## The bytes of the magnitude -/

theorem byteSize_eq_zero : x.byteSize = 0 ↔ x.magnitude = 0 := by
  rw [← hx.bits_eq_zero]
  unfold byteSize
  omega

theorem magnitude_lt_byteSize : x.magnitude < 256 ^ x.byteSize := by
  rw [show 256 = 2 ^ 8 by rfl, ← pow_mul, ← bitLength_le, ← hx.bits_eq]
  unfold byteSize
  omega

theorem toNat_bigEndian : Bytes.toNat x.bigEndian.reverse = x.magnitude := by
  rw [bigEndian, List.reverse_reverse, Bytes.toNat_ofNat, Nat.mod_eq_of_lt hx.magnitude_lt_byteSize]

/-- Each byte is read off the word that it lies in. -/
theorem lowBytes_eq {count : Nat} (h : count ≤ x.byteSize) :
    x.lowBytes count = .ok (Bytes.ofNat count x.magnitude) := by
  have hsize := wordsFor_le.1 hx.size_le
  have hbyte : ∀ i ∈ List.range count, (do
      let word ← Words.read x.buffer (i / 4)
      pure (UInt8.ofNat (word.toNat >>> (8 * (i % 4)))) : Checked UInt8) =
        .ok (UInt8.ofNat (x.magnitude / 256 ^ i)) := by
    intro i hi
    have hword : i / 4 < x.buffer.length := by
      have hi : i < count := List.mem_range.1 hi
      unfold byteSize at h
      unfold capacity at hsize
      omega
    have hget := List.getElem?_eq_getElem hword
    rw [Words.read, hget, magnitude, ← Words.byte_of_word hget]
    rfl
  rw [lowBytes, require_of _ h, Checked.ok_bind, Checked.mapM_eq hbyte, Bytes.ofNat_eq_map]

theorem toBytes_eq : x.toBytes = .ok (if x.magnitude = 0 then [0] else x.bigEndian) := by
  unfold toBytes
  rw [hx.isZero_eq, hx.lowBytes_eq le_rfl]
  by_cases hzero : x.magnitude = 0 <;> simp [hzero, bigEndian]

/-- An output that is too short is left alone; every other one is filled. -/
theorem exec_writeBytes (output : List UInt8) (memory : Memory) :
    x.writeBytes.exec output memory =
      if output.length < x.byteSize then
        (.error (.error (.bufferTooSmall x.byteSize output.length)), output, memory)
      else
        (.ok (), List.replicate (output.length - x.byteSize) 0 ++ x.bigEndian, memory) := by
  unfold writeBytes
  simp only [ActionOn.exec_bind, ActionOn.exec_current]
  split
  · rfl
  · rw [hx.lowBytes_eq le_rfl]
    rfl

/-- The bytes of a number that was given by bytes are these, without the zeros in front. -/
theorem bigEndian_eq {bytes : List UInt8} (h : x.magnitude = Bytes.toNat bytes.reverse) :
    x.bigEndian = bytes.dropWhile (· == 0) := by
  rw [← List.reverse_inj]
  apply Bytes.toNat_inj
  · rw [List.length_reverse, List.length_reverse, length_bigEndian, byteSize, hx.bits_eq, h,
      Bytes.bytesFor_toNat]
  · rw [hx.toNat_bigEndian, Bytes.toNat_dropWhile, h]

end WellFormed

/-! ## Round trips -/

/-- The integer is the number that the bytes stand for, and they are written for it again. -/
structure Carries (x : Integer) (bytes : List UInt8) : Prop where
  wellFormed : x.WellFormed
  toInt_eq : x.toInt = Bytes.toNat bytes.reverse
  toBytes_eq : x.toBytes =
    .ok (if bytes.all (· == 0) then [0] else bytes.dropWhile (· == 0))
  byteSize_eq : x.byteSize = (bytes.dropWhile (· == 0)).length
  writeBytes_eq : ∀ (output : List UInt8) (memory : Memory), output.length = bytes.length →
    x.writeBytes.exec output memory = (.ok (), bytes, memory)

theorem Holds.carries {x : Integer} {capacity : Nat} {bytes : List UInt8}
    (h : x.Holds capacity (Bytes.toNat bytes.reverse) false) : x.Carries bytes := by
  have hbytes := h.wellFormed.bigEndian_eq h.magnitude_eq
  have hsize : x.byteSize = (bytes.dropWhile (· == 0)).length := by
    rw [← hbytes, length_bigEndian]
  refine ⟨h.wellFormed, h.toInt_natCast, ?_, hsize, ?_⟩
  · have hzero : x.magnitude = 0 ↔ bytes.all (· == 0) = true := by
      rw [← h.wellFormed.byteSize_eq_zero, hsize, List.length_eq_zero_iff,
        List.dropWhile_eq_nil_iff, List.all_eq_true]
    rw [h.wellFormed.toBytes_eq, hbytes]
    simp only [hzero]
  · intro output memory hlength
    have hle := (List.dropWhile_suffix (fun b : UInt8 => b == 0) (l := bytes)).length_le
    rw [h.wellFormed.exec_writeBytes, if_neg (by omega), hbytes, hsize, hlength,
      Bytes.replicate_append_dropWhile]

/-- To load words is to load their bytes: in every state it does the same. -/
theorem exec_loadWords (words : List Word) (x : Integer) (memory : Memory) :
    (loadWords words).exec x memory = (loadBytes (Words.toBytes words).reverse).exec x memory := by
  have hwords : Bytes.toWords (Words.toBytes words) = words := by
    apply Words.toNat_inj
    · rw [Bytes.length_toWords, Words.length_toBytes]
      omega
    · rw [Bytes.toNat_toWords, Words.toNat_toBytes]
  rw [exec_loadBytes, List.reverse_reverse, hwords]

/-- Zero takes no byte, and yet one is written for it. -/
theorem WellFormed.toNat_written {x : Integer} (hx : x.WellFormed) :
    Bytes.toNat (if x.magnitude = 0 then [0] else x.bigEndian).reverse = x.magnitude := by
  split
  · next hzero => rw [hzero]; rfl
  · exact hx.toNat_bigEndian

/-- What was written for `x` loads as its magnitude. -/
theorem Holds.denotes_abs {x y : Integer} {capacity least : Nat}
    (h : y.Holds capacity x.magnitude false) (hle : least ≤ capacity) :
    y.Denotes least |x.toInt| :=
  ⟨h.wellFormed, h.capacity_eq ▸ hle, h.toInt_natCast.trans (abs_toInt x).symm⟩

/-- Loading and writing are inverse. Bytes that are loaded are written again, but for the zeros in
front; only a bit count of more than a machine word stops them, or memory. An output is filled with
the magnitude after zeros, or it is too short and stays as it is. What is written for an integer, and
the words that it is made of, load as its magnitude. Words load as their bytes do, in every state. -/
theorem loading_and_writing_inverse :
    (∀ x : Integer, x.WellFormed → ∀ bytes : List UInt8,
      (loadBytes bytes).Attempts x 1 (bitLength (Bytes.toNat bytes.reverse))
        (TooManyBits (bitLength (Bytes.toNat bytes.reverse))) fun _ y => y.Carries bytes) ∧
    (∀ x : Integer, x.WellFormed →
      x.bigEndian.length = x.byteSize ∧ Bytes.toNat x.bigEndian.reverse = x.magnitude ∧
      ∀ (output : List UInt8) (memory : Memory), x.writeBytes.exec output memory =
        if output.length < x.byteSize then
          (.error (.error (.bufferTooSmall x.byteSize output.length)), output, memory)
        else
          (.ok (), List.replicate (output.length - x.byteSize) 0 ++ x.bigEndian, memory)) ∧
    (∀ x dest : Integer, x.WellFormed → dest.WellFormed →
      ∃ bytes words, x.toBytes = .ok bytes ∧ x.words = .ok words ∧
        ((loadBytes bytes).Attempts dest 1 x.bits (fun _ => False) fun _ y =>
          y.Denotes dest.capacity |x.toInt|) ∧
        ((loadWords words).Attempts dest 1 x.bits (fun _ => False) fun _ y =>
          y.Denotes dest.capacity |x.toInt|)) ∧
    ∀ (words : List Word) (x : Integer) (memory : Memory),
      (loadWords words).exec x memory = (loadBytes (Words.toBytes words).reverse).exec x memory := by
  refine ⟨?_, ?_, ?_, exec_loadWords⟩
  · intro x hx bytes
    exact (hx.loadBytes bytes).imp fun _ y hy => hy.carries
  · intro x hx
    exact ⟨x.length_bigEndian, hx.toNat_bigEndian, hx.exec_writeBytes⟩
  · intro x dest hx hdest
    have hbytes := hdest.loadBytes (if x.magnitude = 0 then [0] else x.bigEndian)
    have hwords := hdest.loadWords (x.buffer.take x.size)
    rw [hx.toNat_written] at hbytes
    rw [hx.toNat_words] at hwords
    -- the machine counts the bits of the magnitude already
    have hfits : ∀ failure, TooManyBits (bitLength x.magnitude) failure → False :=
      fun failure h => absurd h.2 (Nat.not_le_of_lt (hx.bitLength_lt le_rfl))
    exact ⟨_, _, hx.toBytes_eq, hx.words_eq,
      hbytes.mono le_rfl hx.bits_eq.ge hfits fun _ y hy => hy.denotes_abs (le_roomFor _ _),
      hwords.mono le_rfl hx.bits_eq.ge hfits fun _ y hy => hy.denotes_abs (le_roomFor _ _)⟩

theorem minus_thirty_one_written_and_replaced :
    ∃ (x y : Integer) (bytes : List UInt8), x.WellFormed ∧ x.toInt = -31 ∧
      ((loadBytes [0, 1, 2]).applyTo x).granted = .ok y ∧ y.Carries [0, 1, 2] ∧
      x.writeBytes.exec [] Memory.generous =
        (.error (.error (.bufferTooSmall 1 0)), [], Memory.generous) ∧
      x.writeBytes.exec [7, 7] Memory.generous = (.ok (), [0, 31], Memory.generous) ∧
      x.toBytes = .ok bytes ∧
      (loadBytes bytes).Attempts y 1 5 (fun _ => False) fun _ z =>
        z.Denotes y.capacity |x.toInt| := by
  have hx : WellFormed ⟨[31, 0, 0, 0], 5, true⟩ :=
    wellFormed_of_bits (by decide) (by decide) (by decide) (by decide) (by decide)
  obtain ⟨hload, hwrite, hback, -⟩ := loading_and_writing_inverse
  obtain ⟨-, -, hwritten⟩ := hwrite _ hx
  have hcarries : Carries ⟨[258, 0, 0, 0], 9, false⟩ [0, 1, 2] :=
    (hload _ hx [0, 1, 2]).makes.applyTo.granted rfl
  obtain ⟨bytes, _, hbytes, -, hagain, -⟩ := hback _ _ hx hcarries.wellFormed
  exact ⟨_, _, bytes, hx, rfl, rfl, hcarries, hwritten [] _, hwritten [7, 7] _, hbytes, hagain⟩

end Integer

end Multiword
