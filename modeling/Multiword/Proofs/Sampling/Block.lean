import Multiword.Proofs.Integer.Encoding
import Multiword.Proofs.Sampling.Retry
import Multiword.Sampling.Bits

/-!
# Blocks of random bytes

A draw below a bound reads its source in blocks of whole words, as many as the bits of the bound take.
Each block stands for a number, of which the first one below the bound is drawn. So what is drawn, and
how far the source is read, are properties of the bytes alone.
-/

set_option autoImplicit false

namespace Multiword

/-! ## The number of a block -/

/-- The number that a block stands for: its words, but of the highest one only the high bits, so many
that `bits` of them remain in all. -/
def Draw.blockValue (bits : Nat) (block : List UInt8) : Nat :=
  let top := 2 ^ (32 * (wordsFor bits - 1))
  Bytes.toNat block % top + top * (Bytes.toNat block / top / 2 ^ (32 * wordsFor bits - bits))

namespace Words

/-- The highest word loses its spare bits, and the words below it are kept. -/
theorem toNat_dropSpare {spare : Nat} (hspare : spare < 32) (ws : List Word) :
    toNat (dropSpare spare ws) = toNat ws % radix ^ (ws.length - 1) +
      radix ^ (ws.length - 1) * (toNat ws / radix ^ (ws.length - 1) / 2 ^ spare) := by
  induction ws with
  | nil => simp [dropSpare]
  | cons w ws ih =>
    cases ws with
    | nil =>
      have hbits : (UInt32.ofNat spare).toNat % 32 = spare := by
        rw [UInt32.toNat_ofNat']
        omega
      rw [dropSpare, toNat_cons, UInt32.toNat_shiftRight, hbits, Nat.shiftRight_eq_div_pow]
      simp [Nat.mod_one]
    | cons v vs =>
      have hw := w.toNat_lt_radix
      have hpower : radix ^ ((w :: v :: vs).length - 1) = radix * radix ^ ((v :: vs).length - 1) := by
        simp [pow_succ']
      have hlowest : (w.toNat + radix * toNat (v :: vs)) % radix = w.toNat := by
        rw [Nat.add_mul_mod_self_left, Nat.mod_eq_of_lt hw]
      have hrest : (w.toNat + radix * toNat (v :: vs)) / radix = toNat (v :: vs) := by
        rw [Nat.add_mul_div_left _ _ radix_pos, Nat.div_eq_of_lt hw, zero_add]
      show w.toNat + radix * toNat (dropSpare spare (v :: vs)) = _
      rw [ih, toNat_cons w (v :: vs), hpower, Nat.mod_mul, ← Nat.div_div_eq_div_mul, hlowest, hrest]
      ring

/-- The words that are made of a whole block are those of its number. -/
theorem toNat_ofBlock {bits : Nat} {block : List UInt8}
    (hlength : block.length = Draw.blockSize bits) :
    toNat (ofBlock bits block) = Draw.blockValue bits block := by
  have hwords : (Bytes.toWords block).length = wordsFor bits := by
    rw [Bytes.length_toWords, hlength, Draw.blockSize]
    omega
  have hspare : 32 * wordsFor bits - bits < 32 := by
    unfold wordsFor
    omega
  rw [ofBlock, toNat_dropSpare hspare, hwords, radix_pow, Bytes.toNat_toWords]
  rfl

end Words

namespace Draw

open ActionOn (concludes_pure concludes_checked concludes_action)

/-- The bits of a block are those of its number and, between the words below and the rest of the highest
one, the spare bits. -/
theorem two_pow_blockParts (bits : Nat) :
    2 ^ (32 * (wordsFor bits - 1)) * 2 ^ (bits - 32 * (wordsFor bits - 1)) = 2 ^ bits ∧
    2 ^ (32 * (wordsFor bits - 1)) * 2 ^ (32 * wordsFor bits - bits) *
      2 ^ (bits - 32 * (wordsFor bits - 1)) = 2 ^ (32 * wordsFor bits) := by
  unfold wordsFor
  simp only [← pow_add]
  constructor <;> congr 1 <;> omega

theorem pow_blockSize (bits : Nat) : 256 ^ blockSize bits = 2 ^ (32 * wordsFor bits) := by
  rw [blockSize, show (256 : Nat) = 2 ^ 8 from rfl, ← pow_mul]
  congr 1
  omega

/-- A block of whole words gives a magnitude of the bits that were asked for. -/
theorem blockValue_lt {bits : Nat} {block : List UInt8} (hlength : block.length = blockSize bits) :
    blockValue bits block < 2 ^ bits := by
  obtain ⟨hbits, hwords⟩ := two_pow_blockParts bits
  have hblock := Bytes.toNat_lt block
  rw [hlength, pow_blockSize, ← hwords] at hblock
  rw [← hbits]
  unfold blockValue
  set low := 2 ^ (32 * (wordsFor bits - 1)) with hlow
  have hpos : 0 < low := by positivity
  have hhigh : Bytes.toNat block / low / 2 ^ (32 * wordsFor bits - bits) <
      2 ^ (bits - 32 * (wordsFor bits - 1)) := by
    rw [Nat.div_div_eq_div_mul, Nat.div_lt_iff_lt_mul (by positivity), Nat.mul_comm]
    exact hblock
  rw [Nat.add_comm, Nat.mul_comm low, Nat.mul_comm low]
  exact mul_add_lt hhigh le_rfl (Nat.mod_lt _ hpos)

/-! ## Blocks of a source -/

/-- The number of block `i`, in blocks for a bound of `width`. -/
def offset (width : Nat) (source : Source) (i : Nat) : Nat :=
  blockValue (bitLength width) (source.block (blockSize (bitLength width)) i)

/-- Block `i` is there as a whole, and its number is below `width`. -/
def Accepts (width : Nat) (source : Source) (i : Nat) : Prop :=
  blockSize (bitLength width) * (i + 1) ≤ source.bytes.length ∧ offset width source i < width

/-- How a draw of an integer of `[low, low + width)` ends, and what it leaves of its source. It is the
first block with a number below `width` that counts, and nothing behind it is read. -/
inductive DrawnFrom (low : Int) (width : Nat) (source : Source) : Outcome Integer → Source → Prop
  | accepted {i : Nat} {x : Integer} (accepts : Accepts width source i)
      (first : ∀ j < i, ¬Accepts width source j) (wellFormed : x.WellFormed)
      (toInt_eq : x.toInt = low + offset width source i) (le_toInt : low ≤ x.toInt)
      (toInt_lt : x.toInt < low + width) :
      DrawnFrom low width source (.ok x) (source.skip (blockSize (bitLength width) * (i + 1)))
  | exhausted (rejects : ∀ i, ¬Accepts width source i) :
      DrawnFrom low width source (.error .exhausted) (source.skip
        (blockSize (bitLength width) * (source.bytes.length / blockSize (bitLength width))))

/-! ## One block -/

section

variable {bits : Nat} {source : Source}

theorem concludes_magnitude_of_lt (h : source.bytes.length < blockSize bits)
    {room : Nat} {refused : Failure → Prop} :
    (magnitude bits).Concludes source room refused fun result new =>
      result = .error .exhausted ∧ new = source :=
  (concludes_take_of_lt h).bind_error

/-- A number that was read has no more bits than its bound, so only a refusal keeps it from its
room. -/
theorem concludes_magnitude (hbits : bits < UInt64.size)
    (henough : blockSize bits ≤ source.bytes.length) :
    (magnitude bits).Concludes source bits (· = .noRoomToDraw) fun result new =>
      new = source.skip (blockSize bits) ∧ Within (fun _ => False)
        (fun x => x.Reaches 0 (blockValue bits (source.bytes.take (blockSize bits))) false)
        result := by
  have hlength : (source.bytes.take (blockSize bits)).length = blockSize bits :=
    List.length_take_of_le henough
  have hmade := (Integer.attempts_ofWords
    (Words.ofBlock bits (source.bytes.take (blockSize bits)))).concludes
  rw [Words.toNat_ofBlock hlength] at hmade
  have hfew := bitLength_le.2 (blockValue_lt hlength)
  refine concludes_take henough (concludes_action ?_)
  refine (hmade.within hfew).rethrow ?_ (fun x hx => ?_) fun failure hfailure => ?_
  · rintro _ rfl
    exact ⟨_, rfl, rfl⟩
  · have hholds : x.Holds _ _ _ := hx
    exact hholds.reaches (Nat.zero_le _)
  · have hlarge : UInt64.size ≤ bitLength _ := hfailure.2
    exact absurd (hlarge.trans hfew) (by omega)

end

/-- What an attempt below `width` makes of a block: its number, if that is below. -/
def belowVerdict (width : Nat) (block : List UInt8) : Option Int :=
  if blockValue (bitLength width) block < width then some (blockValue (bitLength width) block)
  else none

variable {width : Nat} {source : Source}

theorem belowVerdict_eq_some {block : List UInt8} {value : Int} :
    belowVerdict width block = some value ↔
      blockValue (bitLength width) block < width ∧ value = blockValue (bitLength width) block := by
  simp [belowVerdict, eq_comm]

theorem belowVerdict_eq_none {block : List UInt8} :
    belowVerdict width block = none ↔ ¬blockValue (bitLength width) block < width := by
  simp [belowVerdict]

/-- The first block that is accepted is the one that counts. -/
theorem FirstAccepted.drawnFrom {result : Outcome Integer} {new : Source}
    (h : FirstAccepted (blockSize (bitLength width)) (belowVerdict width) (fun _ => 0) source
      result new) : DrawnFrom 0 width source result new := by
  cases h with
  | @accepted i value x hwhole haccepts hbefore hx =>
    obtain ⟨hlt, hvalue⟩ := belowVerdict_eq_some.1 haccepts
    have hsmall : offset width source i < width := hlt
    have htoInt : x.toInt = offset width source i := hx.toInt_eq.trans hvalue
    refine .accepted ⟨hwhole, hlt⟩ (fun j hj hcounts => ?_) hx.wellFormed ?_ ?_ ?_
    · exact belowVerdict_eq_none.1 (hbefore j hj) hcounts.2
    · omega
    · omega
    · omega
  | exhausted hrejects =>
    exact .exhausted fun i hcounts => belowVerdict_eq_none.1 (hrejects i hcounts.1) hcounts.2

variable {bound : Integer} (hbound : bound.WellFormed)

include hbound

/-- An attempt below a bound compares the number of a block with it. -/
theorem judges_belowAttempt (hnonzero : bound.magnitude ≠ 0) :
    (belowAttempt bound).Judges bound.bits (blockSize bound.bits) (belowVerdict bound.magnitude)
      fun _ => 0 where
  pos := by
    have hbits : bound.bits ≠ 0 := mt hbound.bits_eq_zero.1 hnonzero
    unfold blockSize wordsFor
    omega
  short hshort := (concludes_magnitude_of_lt hshort).bind_error
  whole {source} henough := by
    refine (concludes_magnitude hbound.bits_lt henough).bind ?_ fun _ _ h => h.2.elim
    rintro x new ⟨rfl, hx⟩
    have hx : x.Reaches 0 (blockValue bound.bits (source.bytes.take (blockSize bound.bits)))
        false := hx
    refine concludes_checked (hx.wellFormed.compareMagnitudes_eq hbound) ?_
    rw [hx.magnitude_eq]
    rw [hbound.bits_eq] at hx ⊢
    unfold belowVerdict
    set n := blockValue (bitLength bound.magnitude)
      (source.bytes.take (blockSize (bitLength bound.magnitude))) with hn
    by_cases hlt : n < bound.magnitude
    · rw [Nat.compare_eq_lt.2 hlt, if_pos hlt]
      exact concludes_pure ⟨rfl, .some hx.denotes⟩
    · rw [if_neg hlt]
      rcases (Nat.le_of_not_lt hlt).eq_or_lt with heq | hgt
      · rw [Nat.compare_eq_eq.2 heq.symm]
        exact concludes_pure ⟨rfl, .none⟩
      · rw [Nat.compare_eq_gt.2 hgt]
        exact concludes_pure ⟨rfl, .none⟩

/-- A draw below a bound takes the first block that counts. -/
theorem concludes_below (hnonzero : bound.magnitude ≠ 0) :
    (below bound).Concludes source bound.bits (· = .noRoomToDraw)
      (DrawnFrom 0 bound.magnitude source) := by
  have hdrawn : (untilAccepted (belowAttempt bound)).Concludes source bound.bits (· = .noRoomToDraw)
      (FirstAccepted (blockSize bound.bits) (belowVerdict bound.magnitude) (fun _ => 0) source) :=
    (judges_belowAttempt hbound hnonzero).concludes_untilAccepted
  rw [show blockSize bound.bits = blockSize (bitLength bound.magnitude) by rw [hbound.bits_eq]]
    at hdrawn
  unfold below
  rw [hbound.isZero_eq, if_neg (by simpa using hnonzero)]
  exact hdrawn.mono le_rfl (fun _ h => h) fun _ _ h => h.drawnFrom

omit hbound

/-- Below 19 the first block, which stands for 31, does not count; the second one stands for 5. -/
example : (below ⟨[19, 0, 0, 0], 5, false⟩).exec (.ofBytes [0, 0, 0, 248, 0, 0, 0, 40, 7])
    Memory.generous = (.ok ⟨[5, 0, 0, 0], 3, false⟩, ⟨[7], 8⟩, Memory.generous) := rfl

end Draw

end Multiword
