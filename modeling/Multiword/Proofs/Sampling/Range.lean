import Multiword.Proofs.Integer.Expression
import Multiword.Proofs.Integer.Order
import Multiword.Proofs.Sampling.Block
import Multiword.Sampling.Range

/-!
# All ways to draw from a range agree

A range can be drawn from at once, with its width worked out for each draw, or through a sampler that
keeps the width. All of them take the same block of the source and make the same integer of it; so they
leave the source in the same place, and the next draw goes on from there.
-/

set_option autoImplicit false

namespace Multiword

open ActionOn (concludes_checked concludes_action)

namespace Draw

/-- There is no room for the number that is drawn, or for what it is made into. -/
def NoRoom (failure : Failure) : Prop := failure = .noRoomToDraw ∨ failure = .abort .growthRefused

/-- Whatever the source holds, the draw is one of an integer of `[low, low + width)`, unless a request
for room of at most `bits` bits is refused. It fails by itself only where the machine does not count
so many bits. -/
def DrawsFrom (draw : Draw Integer) (low : Int) (width bits : Nat) : Prop :=
  ∀ source : Source, draw.Concludes source bits NoRoom fun result new =>
    DrawnFrom low width source result new ∨ Within (Outgrows bits) (fun _ => False) result

theorem DrawsFrom.mono {draw : Draw Integer} {low : Int} {width bits bits' : Nat}
    (h : draw.DrawsFrom low width bits) (hle : bits ≤ bits') : draw.DrawsFrom low width bits' :=
  fun source => (h source).mono hle (fun _ h => h) fun _ _ hresult =>
    hresult.imp id fun hgrown => hgrown.mono (fun _ hfailure => hfailure.mono hle) fun _ h => h

/-- Where the room is granted, nothing but the draw itself is left. -/
theorem DrawsFrom.drawnFrom {draw : Draw Integer} {low : Int} {width bits : Nat}
    (h : draw.DrawsFrom low width bits) {memory : Memory} (hgrants : memory.Grants bits)
    (source : Source) :
    DrawnFrom low width source (draw.exec source memory).1 (draw.exec source memory).2.1 := by
  refine ((h source).of_grants hgrants).resolve_right fun hgrown => ?_
  obtain ⟨-, -, hnever⟩ := hgrown.exists_ok fun _ hfailure => Nat.not_le_of_lt hgrants.lt hfailure.2
  exact hnever

section

variable {low : Int} {width : Nat} {source new : Source} {x : Integer}

/-- The base of a range moves what is drawn, and not the draw. -/
theorem DrawnFrom.add {y : Integer} (h : DrawnFrom 0 width source (.ok x) new)
    (hy : y.Denotes 0 (low + x.toInt)) : DrawnFrom low width source (.ok y) new := by
  cases h with
  | accepted haccepts hbefore hx hvalue hle hlt =>
    have hsum := hy.toInt_eq
    exact .accepted haccepts hbefore hy.wellFormed (by omega) (by omega) (by omega)

theorem DrawnFrom.of_error {low' : Int} {failure : Failure}
    (h : DrawnFrom low' width source (.error failure) new) :
    DrawnFrom low width source (.error failure) new := by
  cases h with
  | exhausted hrejects => exact .exhausted hrejects

theorem DrawnFrom.wellFormed (h : DrawnFrom low width source (.ok x) new) : x.WellFormed := by
  cases h with
  | accepted _ _ hx _ _ _ => exact hx

theorem DrawnFrom.magnitude_lt (h : DrawnFrom 0 width source (.ok x) new) : x.magnitude < width := by
  cases h with
  | accepted _ _ _ _ hle hlt =>
    rw [← Integer.natAbs_toInt]
    omega

end

end Draw

open Draw

/-- The sampler that is made draws from `[low, low + width)`, with room of at most `bits` bits for
every request. -/
def Action.Prepares (sampler : Action Sampler) (low : Int) (width bits : Nat) : Prop :=
  sampler.Concludes bits (· = .abort .growthRefused)
    (Within (Outgrows bits) fun made => made.draw.DrawsFrom low width bits)

/-! ## Bases and widths -/

theorem Sampler.drawsFrom {sampler : Sampler} (hbase : sampler.base.WellFormed)
    (hwidth : sampler.width.WellFormed) (hnonzero : sampler.width.magnitude ≠ 0) {bits : Nat}
    (hbits : max sampler.base.bits sampler.width.bits + 1 ≤ bits) :
    sampler.draw.DrawsFrom sampler.base.toInt sampler.width.magnitude bits := by
  intro source
  have hbelow : (below sampler.width).Concludes source bits NoRoom
      (DrawnFrom 0 sampler.width.magnitude source) :=
    (concludes_below hwidth hnonzero).mono (by omega) (fun _ => .inl) fun _ _ h => h
  refine hbelow.bind (fun offset new hdrawn => ?_) fun _ _ hdrawn => .inl hdrawn.of_error
  -- the offset is below the width, so the sum needs no more bits than the bounds allow for
  have hoffset : offset.bits ≤ sampler.width.bits :=
    hdrawn.wellFormed.bits_mono hwidth hdrawn.magnitude_lt.le
  have hcounted : Operator.add.countedBits sampler.base offset ≤ bits := by
    rw [Operator.countedBits_add]
    omega
  have hadded := Operator.evaluates_apply .add hbase hdrawn.wellFormed (by simp) .right
  refine (concludes_action hadded).mono hcounted (fun _ => .inr) fun result after hresult => ?_
  obtain ⟨rfl, hsum⟩ := hresult
  cases result with
  | ok y => exact .inl (hdrawn.add hsum)
  | error failure => exact .inr (Outgrows.mono hsum hcounted)

section

variable {low high : Integer} (hlow : low.WellFormed) (hhigh : high.WellFormed)

include hlow hhigh

/-- The distance of two integers has at most one bit more than the longer of them. -/
theorem Integer.bits_distance_le {width : Integer} (h : width.Denotes 0 (high.toInt - low.toInt)) :
    width.bits ≤ max low.bits high.bits + 1 := by
  have hlt := hlow.magnitude_add_lt hhigh
  rw [h.wellFormed.bits_eq, bitLength_le]
  rw [← natAbs_toInt low, ← natAbs_toInt high] at hlt
  rw [← natAbs_toInt, h.toInt_eq]
  omega

/-- A sampler with the base and the width of a range draws from it. -/
theorem Sampler.drawsFrom_between (hlt : low.toInt < high.toInt) (sampler : Sampler)
    (hbase : sampler.base.WellFormed) (hvalue : sampler.base.toInt = low.toInt)
    (hbits : sampler.base.bits = low.bits)
    (hwidth : sampler.width.Denotes 0 (high.toInt - low.toInt)) :
    sampler.draw.DrawsFrom low.toInt (high.toInt - low.toInt).toNat
      (max low.bits high.bits + 2) := by
  have hmagnitude : (high.toInt - low.toInt).toNat = sampler.width.magnitude := by
    rw [← Integer.natAbs_toInt, hwidth.toInt_eq]
    omega
  have hgrown := Integer.bits_distance_le hlow hhigh hwidth
  rw [hmagnitude, ← hvalue]
  exact Sampler.drawsFrom hbase hwidth.wellFormed (by omega) (by omega)

theorem Sampler.evaluates_width :
    (Operator.sub.apply .neither high low).Evaluates (max low.bits high.bits + 2)
      (max low.bits high.bits + 2) (high.toInt - low.toInt) := by
  have hcounted : Operator.sub.countedBits high low ≤ max low.bits high.bits + 2 := by
    rw [Operator.countedBits_sub]
    omega
  exact (Operator.evaluates_apply .sub hhigh hlow (by simp) .neither).mono hcounted hcounted

/-! ## Ranges with an integer -/

theorem Draw.drawsFrom_range (hlt : low.toInt < high.toInt) :
    (range low high).DrawsFrom low.toInt (high.toInt - low.toInt).toNat
      (max low.bits high.bits + 2) := by
  intro source
  refine concludes_checked (hlow.compare_of_lt hhigh hlt) ?_
  by_cases hzero : low.magnitude = 0
  · -- from zero on, the upper bound is the width itself
    have hbase : low.toInt = 0 := Integer.toInt_eq_zero.2 hzero
    have hwidth : (high.toInt - low.toInt).toNat = high.magnitude := by
      rw [← Integer.natAbs_toInt]
      omega
    simp only [hlow.isZero_eq, hzero, decide_true, if_true]
    rw [hwidth, hbase]
    exact (concludes_below hhigh (by omega)).mono (by omega) (fun _ => .inl) fun _ _ => .inl
  · simp only [hlow.isZero_eq, hzero, decide_false]
    refine ((concludes_action (Sampler.evaluates_width hlow hhigh)).mono le_rfl (fun _ => .inr)
      fun _ _ h => h).bind ?_ fun _ _ h => .inr h.2
    rintro width new ⟨rfl, hwidth⟩
    exact Sampler.drawsFrom_between hlow hhigh hlt ⟨low, width⟩ hlow rfl rfl hwidth new

theorem Draw.drawsFrom_single (hlt : low.toInt < high.toInt) :
    (single low high).DrawsFrom low.toInt (high.toInt - low.toInt).toNat
      (max low.bits high.bits + 2) := by
  intro source
  exact concludes_checked (hlow.compare_of_lt hhigh hlt) (drawsFrom_range hlow hhigh hlt source)

theorem Sampler.prepares_halfOpen (hlt : low.toInt < high.toInt) :
    (halfOpen low high).Prepares low.toInt (high.toInt - low.toInt).toNat
      (max low.bits high.bits + 2) := by
  refine Action.concludes_checked (hlow.compare_of_lt hhigh hlt) ?_
  refine (evaluates_width hlow hhigh).bind (fun width hwidth => ?_) fun _ h => h
  refine ((Integer.concludes_copyOrAbort hlow).within (by omega)).bind ?_ fun _ h => h.elim
  rintro base ⟨hbase, hvalue, hbits⟩
  exact Action.concludes_pure (drawsFrom_between hlow hhigh hlt ⟨base, width⟩ hbase hvalue hbits hwidth)

/-- The last integer of a closed range is below its successor. -/
theorem Sampler.prepares_closed (hle : low.toInt ≤ high.toInt) :
    (closed low high).Prepares low.toInt (high.toInt + 1 - low.toInt).toNat
      (max low.bits high.bits + 3) := by
  have hcounted : Operator.add.countedBits high ⟨[1, 0, 0, 0], 1, false⟩ ≤
      max low.bits high.bits + 3 := by
    rw [Operator.countedBits_add]
    change max high.bits 1 + 1 ≤ max low.bits high.bits + 3
    omega
  have hnext := (Operator.evaluates_apply .add hhigh Integer.wellFormed_one (by simp)
    .neither).mono hcounted hcounted
  have hwidened : (do
      let next ← Operator.add.apply .neither high (← Integer.ofSigned 1)
      halfOpen low next : Action Sampler).Prepares low.toInt (high.toInt + 1 - low.toInt).toNat
        (max low.bits high.bits + 3) := by
    refine Action.concludes_checked Integer.ofSigned_one (hnext.bind ?_ fun _ h => h)
    intro next hdenotes
    have hvalue : next.toInt = high.toInt + 1 := hdenotes.toInt_eq
    have hbits : next.bits ≤ high.bits + 1 := by
      have hlt := hhigh.magnitude_lt
      rw [← Integer.natAbs_toInt] at hlt
      rw [hdenotes.wellFormed.bits_eq, bitLength_le, ← Integer.natAbs_toInt, hvalue, pow_succ]
      omega
    have hmade := prepares_halfOpen hlow hdenotes.wellFormed (by omega)
    rw [hvalue] at hmade
    have hle : max low.bits next.bits + 2 ≤ max low.bits high.bits + 3 := by omega
    exact hmade.mono hle (fun _ h => h) fun _ hresult =>
      hresult.mono (fun _ h => h.mono hle) fun _ h => h.mono hle
  obtain ⟨hlt, horder⟩ | ⟨heq, horder⟩ | ⟨hgt, -⟩ := hlow.compare_cases hhigh
  · exact Action.concludes_checked horder hwidened
  · exact Action.concludes_checked horder hwidened
  · omega

theorem Request.drawsFrom_drawSingle_halfOpen (hlt : low.toInt < high.toInt) :
    (drawSingle low high false).DrawsFrom low.toInt (high.toInt - low.toInt).toNat
      (max low.bits high.bits + 2) := by
  intro source
  exact concludes_checked (hlow.compare_of_lt hhigh hlt) (drawsFrom_single hlow hhigh hlt source)

theorem Request.drawsFrom_drawSingle_closed (hle : low.toInt ≤ high.toInt) :
    (drawSingle low high true).DrawsFrom low.toInt (high.toInt + 1 - low.toInt).toNat
      (max low.bits high.bits + 3) := by
  intro source
  have hdrawn : (do
      let sampler ← Sampler.closed low high
      sampler.draw : Draw Integer).Concludes source (max low.bits high.bits + 3) NoRoom
      fun result new =>
        DrawnFrom low.toInt (high.toInt + 1 - low.toInt).toNat source result new ∨
          Within (Outgrows (max low.bits high.bits + 3)) (fun _ => False) result := by
    refine ((concludes_action (Sampler.prepares_closed hlow hhigh hle)).mono le_rfl (fun _ => .inr)
      fun _ _ h => h).bind ?_ fun _ _ h => .inr h.2
    rintro sampler new ⟨rfl, hsampler⟩
    exact hsampler new
  obtain ⟨hlt, horder⟩ | ⟨heq, horder⟩ | ⟨hgt, -⟩ := hlow.compare_cases hhigh
  · exact concludes_checked horder hdrawn
  · exact concludes_checked horder hdrawn
  · omega

/-! ## Ranges without one -/

/-- Bounds that are not in order are told apart before anything else. -/
theorem Integer.exists_compare_ne_lt (hle : high.toInt ≤ low.toInt) :
    ∃ order, low.compare high = .ok order ∧ order ≠ .lt := by
  obtain ⟨hlt, -⟩ | ⟨-, horder⟩ | ⟨-, horder⟩ := hlow.compare_cases hhigh
  · omega
  · exact ⟨_, horder, by decide⟩
  · exact ⟨_, horder, by decide⟩

theorem exec_empty_halfOpen (hle : high.toInt ≤ low.toInt) (source : Source) (memory : Memory) :
    (Draw.range low high).exec source memory = (.error .nothingToDraw, source, memory) ∧
    (Draw.single low high).exec source memory = (.error .emptyRange, source, memory) ∧
    (Request.drawSingle low high false).exec source memory =
      (.error .nothingToDraw, source, memory) ∧
    (Sampler.halfOpen low high).exec memory = (.error .emptyRange, memory) := by
  obtain ⟨order, horder, hne⟩ := Integer.exists_compare_ne_lt hlow hhigh hle
  cases order with
  | lt => exact absurd rfl hne
  | eq | gt =>
    simp [Draw.range, Draw.single, Request.drawSingle, Sampler.halfOpen, ActionOn.exec_bind,
      Action.exec_bind, horder]

theorem exec_empty_closed (hlt : high.toInt < low.toInt) (source : Source) (memory : Memory) :
    (Request.drawSingle low high true).exec source memory =
      (.error .nothingToDraw, source, memory) ∧
    (Sampler.closed low high).exec memory = (.error .emptyRange, memory) := by
  have horder := hlow.compare_of_gt hhigh hlt
  simp [Request.drawSingle, Sampler.closed, ActionOn.exec_bind, Action.exec_bind, horder]

/-! ## Every way -/

/-- A range is drawn from in the same way whatever the draw is asked for by: the first block of the
source whose number is below the width of the range counts, and is added to the lower bound. A closed
range is drawn from as the one that ends before the successor of its upper bound. Where a range has no
integer, nothing is prepared, and neither the source nor memory changes. -/
theorem ranges_drawn_alike :
    (low.toInt < high.toInt →
      (Draw.range low high).DrawsFrom low.toInt (high.toInt - low.toInt).toNat
        (max low.bits high.bits + 2) ∧
      (Draw.single low high).DrawsFrom low.toInt (high.toInt - low.toInt).toNat
        (max low.bits high.bits + 2) ∧
      (Request.drawSingle low high false).DrawsFrom low.toInt (high.toInt - low.toInt).toNat
        (max low.bits high.bits + 2) ∧
      (Sampler.halfOpen low high).Prepares low.toInt (high.toInt - low.toInt).toNat
        (max low.bits high.bits + 2)) ∧
    (low.toInt ≤ high.toInt →
      (Request.drawSingle low high true).DrawsFrom low.toInt (high.toInt + 1 - low.toInt).toNat
        (max low.bits high.bits + 3) ∧
      (Sampler.closed low high).Prepares low.toInt (high.toInt + 1 - low.toInt).toNat
        (max low.bits high.bits + 3)) ∧
    (high.toInt ≤ low.toInt → ∀ (source : Source) (memory : Memory),
      (Draw.range low high).exec source memory = (.error .nothingToDraw, source, memory) ∧
      (Draw.single low high).exec source memory = (.error .emptyRange, source, memory) ∧
      (Request.drawSingle low high false).exec source memory =
        (.error .nothingToDraw, source, memory) ∧
      (Sampler.halfOpen low high).exec memory = (.error .emptyRange, memory)) ∧
    (high.toInt < low.toInt → ∀ (source : Source) (memory : Memory),
      (Request.drawSingle low high true).exec source memory =
        (.error .nothingToDraw, source, memory) ∧
      (Sampler.closed low high).exec memory = (.error .emptyRange, memory)) := by
  refine ⟨fun hlt => ⟨?_, ?_, ?_, ?_⟩, fun hle => ⟨?_, ?_⟩, ?_, ?_⟩
  · exact Draw.drawsFrom_range hlow hhigh hlt
  · exact Draw.drawsFrom_single hlow hhigh hlt
  · exact Request.drawsFrom_drawSingle_halfOpen hlow hhigh hlt
  · exact Sampler.prepares_halfOpen hlow hhigh hlt
  · exact Request.drawsFrom_drawSingle_closed hlow hhigh hle
  · exact Sampler.prepares_closed hlow hhigh hle
  · exact exec_empty_halfOpen hlow hhigh
  · exact exec_empty_closed hlow hhigh

end

theorem range_from_minus_seven_to_twelve_drawn_alike :
    ∃ low high : Integer, low.WellFormed ∧ high.WellFormed ∧
      (Draw.range low high).DrawsFrom (-7) 19 6 ∧
      (Sampler.halfOpen low high).Prepares (-7) 19 6 ∧
      (Sampler.closed low high).Prepares (-7) 20 7 ∧
      ∀ memory, (Sampler.closed high low).exec memory = (.error .emptyRange, memory) := by
  have hlow : Integer.WellFormed ⟨[7, 0, 0, 0], 3, true⟩ :=
    Integer.wellFormed_of_bits (by decide) (by decide) (by decide) (by decide) (by decide)
  have hhigh : Integer.WellFormed ⟨[12, 0, 0, 0], 4, false⟩ :=
    Integer.wellFormed_of_bits (by decide) (by decide) (by decide) (by decide) (by decide)
  obtain ⟨hrange, -, -, hprepared⟩ := (ranges_drawn_alike hlow hhigh).1 (by decide)
  obtain ⟨-, hclosed⟩ := (ranges_drawn_alike hlow hhigh).2.1 (by decide)
  have hempty := (ranges_drawn_alike hhigh hlow).2.2.2 (by decide) (Source.ofBytes [])
  exact ⟨_, _, hlow, hhigh, hrange, hprepared, hclosed, fun memory => (hempty memory).2⟩

end Multiword
