import Multiword.Proofs.Integer.Query
import Multiword.Proofs.Integer.Sound
import Multiword.Proofs.Sampling
import Multiword.Proofs.Sampling.Block

/-!
# How draws can end

A draw from sound bounds is sound. It can be starved: no room for the number that was drawn, or no bytes
left to draw from. Beyond that it fails only where there is nothing to draw, or where the sum that
moves it into its range gives up.
-/

set_option autoImplicit false

namespace Multiword

namespace Draw

open Integer (Sound Refusal)
open ActionOn (ends_pure ends_throw ends_current ends_checked ends_action ends_replace)

/-- From any source the draw delivers something with `post` or fails as `fails` allows. -/
def Delivers {α : Type} (draw : Draw α) (fails : Failure → Prop) (post : α → Prop) : Prop :=
  ∀ source : Source, draw.Ends source fails fun a _ => post a

variable {α β : Type} {fails fails' : Failure → Prop}

theorem Delivers.mono {draw : Draw α} {post : α → Prop} (h : draw.Delivers fails post)
    (hfails : ∀ failure, fails failure → fails' failure) : draw.Delivers fails' post :=
  fun source => (h source).mono hfails fun _ _ h => h

theorem Delivers.bind {draw : Draw α} {next : α → Draw β} {mid : α → Prop} {post : β → Prop}
    (h : draw.Delivers fails mid) (hnext : ∀ a, mid a → (next a).Delivers fails post) :
    (draw >>= next).Delivers fails post :=
  fun source => (h source).bind fun a new ha => hnext a ha new

theorem delivers_pure {a : α} {post : α → Prop} (h : post a) :
    (pure a : Draw α).Delivers fails post :=
  fun _ => ends_pure h

theorem delivers_throw {failure : Failure} {post : α → Prop} (h : fails failure) :
    (throw failure : Draw α).Delivers fails post :=
  fun _ => ends_throw h

theorem delivers_checked {checked : Checked α} {a : α} {next : α → Draw β} {post : β → Prop}
    (heq : checked = .ok a) (h : (next a).Delivers fails post) :
    ((liftM checked : Draw α) >>= next).Delivers fails post :=
  fun source => ends_checked heq (h source)

theorem delivers_action {action : Action α} {next : α → Draw β} {mid : α → Prop} {post : β → Prop}
    (h : action.Ends fails mid) (hnext : ∀ a, mid a → (next a).Delivers fails post) :
    ((liftM action : Draw α) >>= next).Delivers fails post :=
  fun source => ends_action h fun a ha => hnext a ha source

theorem delivers_lift {action : Action α} {post : α → Prop} (h : action.Ends fails post) :
    (liftM action : Draw α).Delivers fails post :=
  fun _ memory => h memory

/-! ## Attempts -/

/-- There is no room for what was drawn, or there are no bytes left. -/
def Starved (failure : Failure) : Prop := failure = .noRoomToDraw ∨ failure = .exhausted

theorem delivers_take (count : Nat) :
    (take count).Delivers Starved fun block => block.length = count := by
  intro source
  refine ends_current ?_
  split
  · exact ends_throw (.inr rfl)
  · next henough =>
    have hrest : (ActionOn.replace ⟨source.bytes.drop count, source.used + count⟩ :
        Draw Unit).Ends source Starved fun _ _ => True := ends_replace trivial
    exact hrest.bind fun _ _ _ => ends_pure (List.length_take_of_le (Nat.le_of_not_lt henough))

theorem delivers_coin : coin.Delivers Starved fun _ => True :=
  (delivers_take 4).bind fun _ _ => delivers_pure trivial

/-- A draw that is tried again ends as its attempts do, or after the last of them. -/
theorem delivers_retry {attempt : Draw (Option α)} {post : α → Prop} (hexhausted : fails .exhausted)
    (h : attempt.Delivers fails fun result => ∀ a, result = some a → post a) (limit : Nat) :
    (retry attempt limit).Delivers fails post := by
  induction limit with
  | zero => exact delivers_throw hexhausted
  | succ limit ih =>
    refine h.bind fun result hresult => ?_
    cases result with
    | none => exact ih
    | some a => exact delivers_pure (hresult a rfl)

theorem delivers_untilAccepted {attempt : Draw (Option α)} {post : α → Prop}
    (h : attempt.Delivers Starved fun result => ∀ a, result = some a → post a) :
    (untilAccepted attempt).Delivers Starved post :=
  fun source => ends_current (delivers_retry (.inr rfl) h _ source)

/-! ## Integers -/

theorem delivers_magnitude {bits : Nat} (hbits : bits < UInt64.size) :
    (magnitude bits).Delivers Starved Sound := by
  refine (delivers_take _).bind fun block hblock => delivers_lift ?_
  have hlt := bitLength_le.2 ((Words.toNat_ofBlock hblock).trans_lt (blockValue_lt hblock))
  have hwords : (Integer.ofWords (Words.ofBlock bits block)).Ends (Failure.Reports Refusal) Sound :=
    (Integer.ends_loadWords Integer.sound_zero (lt_of_le_of_lt hlt hbits)).applyTo
  refine hwords.catching fun failure hfailure => ?_
  cases failure with
  | error e => exact Action.ends_throw (.inl rfl)
  | _ => exact hfailure.elim

theorem delivers_signed {bits : Nat} (hbits : bits < UInt64.size) :
    (signed bits).Delivers Starved Sound := by
  refine delivers_untilAccepted ((delivers_magnitude hbits).bind fun x hx => ?_)
  refine delivers_coin.bind fun negative _ => ?_
  split
  · cases negative with
    | true => exact delivers_pure (by simp)
    | false => exact delivers_pure (by simpa using hx)
  · exact delivers_pure (by simpa using hx.withSign negative)

/-- A bound that is not zero has numbers below it. -/
theorem delivers_below {bound : Integer} (hbound : bound.Sound) :
    (below bound).Delivers
      (fun failure => Starved failure ∨ failure = .nothingToDraw ∧ bound.magnitude = 0) Sound := by
  unfold below
  rw [hbound.wellFormed.isZero_eq]
  have hattempt : (belowAttempt bound).Delivers Starved fun result =>
      ∀ x, result = some x → x.Sound := by
    refine (delivers_magnitude hbound.wellFormed.bits_lt).bind fun x hx => ?_
    refine delivers_checked (hx.wellFormed.compareMagnitudes_eq hbound.wellFormed) ?_
    cases Ord.compare x.magnitude bound.magnitude with
    | lt => exact delivers_pure (by simpa using hx)
    | eq => exact delivers_pure (by simp)
    | gt => exact delivers_pure (by simp)
  split
  · next hzero => exact delivers_throw (.inr ⟨rfl, by simpa using hzero⟩)
  · exact (delivers_untilAccepted hattempt).mono fun _ => .inl

/-! ## Ranges -/

/-- The draw is starved, or the sum that moves it into its range gives up. -/
def OutOfRoom (failure : Failure) : Prop := Starved failure ∨ failure.Aborts Refusal

/-- The draw is out of room, or its range is empty and it fails for that. -/
def OutOfRoomOr (emptiness : Failure) (isEmpty : Prop) (failure : Failure) : Prop :=
  OutOfRoom failure ∨ failure = emptiness ∧ isEmpty

end Draw

/-- The base and the width of a range that is not empty. -/
structure Sampler.Sound (sampler : Sampler) : Prop where
  base : sampler.base.Sound
  width : sampler.width.Sound
  nonempty : sampler.width.magnitude ≠ 0

open Draw (Starved OutOfRoom OutOfRoomOr delivers_below delivers_checked delivers_action delivers_lift
  delivers_throw delivers_pure delivers_magnitude delivers_signed)

theorem Sampler.Sound.delivers_draw {sampler : Sampler} (h : sampler.Sound) :
    sampler.draw.Delivers OutOfRoom Integer.Sound := by
  have hbelow : (Draw.below sampler.width).Delivers OutOfRoom Integer.Sound :=
    (delivers_below h.width).mono fun failure hfailure =>
      hfailure.elim .inl fun hzero => absurd hzero.2 h.nonempty
  refine hbelow.bind fun offset hoffset => delivers_lift ?_
  exact (Integer.ends_apply h.base hoffset .add .right).mono (fun _ => .inr) fun _ h => h

section

variable {low high : Integer} (hlow : low.Sound) (hhigh : high.Sound)

include hlow hhigh

/-- The distance of the bounds is the number of integers between them. -/
theorem Integer.ends_width :
    (Operator.sub.apply .neither high low).Ends (Failure.Aborts Refusal) fun width =>
      width.Sound ∧ (low.toInt < high.toInt → width.magnitude ≠ 0) := by
  have hsub := (ends_apply hhigh hlow .sub .neither).makes
    (makes_apply .sub .neither hhigh.wellFormed hlow.wellFormed)
  refine hsub.mono (fun _ h => h) fun width hwidth => ⟨hwidth.1, fun hlt hzero => ?_⟩
  have hvalue : width.toInt = high.toInt - low.toInt := hwidth.2.toInt_eq
  rw [toInt_eq_zero.2 hzero] at hvalue
  omega

theorem Draw.delivers_range :
    (range low high).Delivers (OutOfRoomOr .nothingToDraw (high.toInt ≤ low.toInt))
      Integer.Sound := by
  obtain ⟨hlt, horder⟩ | ⟨heq, horder⟩ | ⟨hgt, horder⟩ :=
    hlow.wellFormed.compare_cases hhigh.wellFormed <;> refine delivers_checked horder ?_
  · dsimp only
    split
    · next hzero =>
      -- from zero on there is something below a bound that is higher
      have hnonzero : high.magnitude ≠ 0 := by
        rw [hlow.wellFormed.isZero_eq, decide_eq_true_iff, ← Integer.toInt_eq_zero] at hzero
        rw [ne_eq, ← Integer.toInt_eq_zero]
        omega
      exact (delivers_below hhigh).mono fun _ h => .inl
        (h.elim .inl fun hempty => absurd hempty.2 hnonzero)
    · refine delivers_action ((Integer.ends_width hlow hhigh).mono (fun _ h => .inl (.inr h))
        fun _ h => h) fun width hwidth => ?_
      have hsampler : Sampler.Sound ⟨low, width⟩ := ⟨hlow, hwidth.1, hwidth.2 hlt⟩
      exact hsampler.delivers_draw.mono fun _ => .inl
  · exact delivers_throw (.inr ⟨rfl, heq.ge⟩)
  · exact delivers_throw (.inr ⟨rfl, hgt.le⟩)

theorem Draw.delivers_single (hlt : low.toInt < high.toInt) :
    (single low high).Delivers OutOfRoom Integer.Sound := by
  refine delivers_checked (hlow.wellFormed.compare_eq hhigh.wellFormed) ?_
  rw [compare_lt_iff_lt.2 hlt]
  exact (delivers_range hlow hhigh).mono fun _ h =>
    h.elim id fun hempty => absurd hempty.2 (not_le_of_gt hlt)

/-- A sampler has an integer to draw, or there is none between its bounds. -/
theorem Sampler.ends_halfOpen :
    (halfOpen low high).Ends
      (fun failure => failure.Aborts Integer.Refusal ∨
        failure = .emptyRange ∧ high.toInt ≤ low.toInt) Sampler.Sound := by
  obtain ⟨hlt, horder⟩ | ⟨heq, horder⟩ | ⟨hgt, horder⟩ :=
    hlow.wellFormed.compare_cases hhigh.wellFormed <;> refine Action.ends_checked horder ?_
  · refine ((Integer.ends_width hlow hhigh).mono (fun _ => .inl) fun _ h => h).bind
      fun width hwidth => ?_
    refine ((Integer.ends_copyOrAbort hlow).mono (fun _ => .inl) fun _ h => h).bind
      fun base hbase => ?_
    exact Action.ends_pure ⟨hbase, hwidth.1, hwidth.2 hlt⟩
  · exact Action.ends_throw (.inr ⟨rfl, heq.ge⟩)
  · exact Action.ends_throw (.inr ⟨rfl, hgt.le⟩)

/-- The bound after the last integer of the range is above the first one. -/
theorem Sampler.ends_closed :
    (closed low high).Ends
      (fun failure => failure.Aborts Integer.Refusal ∨
        failure = .emptyRange ∧ high.toInt < low.toInt) Sampler.Sound := by
  have hsound : Integer.Sound ⟨[1, 0, 0, 0], 1, false⟩ :=
    ⟨Integer.wellFormed_one, Integer.granted_zero.of_capacity rfl⟩
  have hnext := (Integer.ends_apply hhigh hsound .add .neither).makes
    (Integer.makes_apply .add .neither hhigh.wellFormed hsound.wellFormed)
  have hwidened : low.toInt ≤ high.toInt → (do
      let next ← Operator.add.apply .neither high (← Integer.ofSigned 1)
      halfOpen low next : Action Sampler).Ends
        (fun failure => failure.Aborts Integer.Refusal ∨
          failure = .emptyRange ∧ high.toInt < low.toInt) Sampler.Sound := by
    intro hle
    refine Action.ends_checked Integer.ofSigned_one ((hnext.mono (fun _ => .inl) fun _ h => h).bind
      fun next hnext => ?_)
    have hvalue : next.toInt = high.toInt + 1 := hnext.2.toInt_eq
    exact (ends_halfOpen hlow hnext.1).mono (fun _ h => h.imp_right fun hempty => by omega)
      fun _ h => h
  obtain ⟨hlt, horder⟩ | ⟨heq, horder⟩ | ⟨hgt, horder⟩ :=
    hlow.wellFormed.compare_cases hhigh.wellFormed <;> refine Action.ends_checked horder ?_
  · exact hwidened hlt.le
  · exact hwidened heq.le
  · exact Action.ends_throw (.inr ⟨rfl, hgt⟩)

end

/-! ## Requests -/

namespace Request

/-- There is nothing to draw from. -/
def IsEmpty : Request Integer → Prop
  | .bits _ | .signedBits _ => False
  | .below bound => bound.magnitude = 0
  | .range low high => high.toInt ≤ low.toInt
  | .single low high inclusive | .sampler low high inclusive =>
    if inclusive then high.toInt < low.toInt else high.toInt ≤ low.toInt

/-- How a draw can fail, by what is asked for. -/
def MayFail (request : Request Integer) : Failure → Prop :=
  match request with
  | .bits _ | .signedBits _ => Starved
  | .below _ => fun failure => Starved failure ∨ failure = .nothingToDraw ∧ request.IsEmpty
  | .range _ _ | .single _ _ _ => OutOfRoomOr .nothingToDraw request.IsEmpty
  | .sampler _ _ _ => OutOfRoomOr .emptyRange request.IsEmpty

/-- A bit count that is asked for is one that the machine holds. -/
def Fits {α : Type} : Request α → Prop
  | .bits n | .signedBits n => n < UInt64.size
  | _ => True

/-- The bounds are sound. -/
def SoundBounds : Request Integer → Prop
  | .bits _ | .signedBits _ => True
  | .below bound => bound.Sound
  | .range low high | .single low high _ | .sampler low high _ => low.Sound ∧ high.Sound

/-- A sampler that is made draws. -/
theorem ends_sampler {sampler : Action Sampler} {isEmpty : Prop}
    (h : sampler.Ends (fun failure => failure.Aborts Integer.Refusal ∨
      failure = .emptyRange ∧ isEmpty) Sampler.Sound) :
    (do
      let sampler ← sampler
      pure sampler.draw : Action (Draw Integer)).Ends (OutOfRoomOr .emptyRange isEmpty) fun draw =>
        draw.Delivers (OutOfRoomOr .emptyRange isEmpty) Integer.Sound := by
  refine (h.mono (fun _ => Or.imp_left .inr) fun _ h => h).bind fun sampler hsampler => ?_
  exact Action.ends_pure (hsampler.delivers_draw.mono fun _ => .inl)

/-- Bounds without an integer between them are told before a sampler is made. -/
theorem delivers_drawSingle {low high : Integer} (hlow : low.Sound) (hhigh : high.Sound)
    (inclusive : Bool) :
    (drawSingle low high inclusive).Delivers (MayFail (.single low high inclusive))
      Integer.Sound := by
  have hclosed : ∀ {isEmpty : Prop}, low.toInt ≤ high.toInt → (do
      let sampler ← Sampler.closed low high
      sampler.draw : Draw Integer).Delivers (OutOfRoomOr .nothingToDraw isEmpty)
        Integer.Sound := by
    intro isEmpty hle
    refine delivers_action ((Sampler.ends_closed hlow hhigh).mono
      (fun _ h => .inl (h.elim .inr fun hempty => absurd hempty.2 (not_lt_of_ge hle)))
      fun _ h => h) fun sampler hsampler => ?_
    exact hsampler.delivers_draw.mono fun _ => .inl
  obtain ⟨hlt, horder⟩ | ⟨heq, horder⟩ | ⟨hgt, horder⟩ :=
    hlow.wellFormed.compare_cases hhigh.wellFormed <;> refine delivers_checked horder ?_
  · cases inclusive with
    | false => exact (Draw.delivers_single hlow hhigh hlt).mono fun _ => .inl
    | true => exact hclosed hlt.le
  · cases inclusive with
    | false => exact delivers_throw (.inr ⟨rfl, heq.ge⟩)
    | true => exact hclosed heq.le
  · cases inclusive with
    | false => exact delivers_throw (.inr ⟨rfl, hgt.le⟩)
    | true => exact delivers_throw (.inr ⟨rfl, hgt⟩)

/-- What is prepared once can be drawn from as often as one likes. -/
theorem ends_prepare {request : Request Integer} (hfits : request.Fits)
    (hbounds : request.SoundBounds) :
    request.prepare.Ends request.MayFail fun draw =>
      draw.Delivers request.MayFail Integer.Sound := by
  cases request with
  | bits n => exact Action.ends_pure (delivers_magnitude hfits)
  | signedBits n => exact Action.ends_pure (delivers_signed hfits)
  | below bound => exact Action.ends_pure (delivers_below hbounds)
  | range low high => exact Action.ends_pure (Draw.delivers_range hbounds.1 hbounds.2)
  | single low high inclusive =>
    exact Action.ends_pure (delivers_drawSingle hbounds.1 hbounds.2 inclusive)
  | sampler low high inclusive =>
    cases inclusive with
    | false => exact ends_sampler (Sampler.ends_halfOpen hbounds.1 hbounds.2)
    | true => exact ends_sampler (Sampler.ends_closed hbounds.1 hbounds.2)

theorem not_mayFail_fault (request : Request Integer) (fault : Fault) :
    ¬request.MayFail (.fault fault) := by
  intro h
  cases request <;> simp [MayFail, Starved, OutOfRoom, OutOfRoomOr, Failure.Aborts] at h

end Request

end Multiword
