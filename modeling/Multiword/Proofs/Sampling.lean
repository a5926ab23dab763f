import Multiword.Proofs.Integer.Encoding
import Multiword.Proofs.Integer.Operator
import Multiword.Sampling.Range

/-!
# Random integers are well formed

Whatever bytes a source holds, what is drawn from it is a well-formed integer. An attempt that is
rejected leaves nothing behind but the bytes that it took, so it is enough to look at one attempt.
-/

set_option autoImplicit false

namespace Multiword

namespace Draw

open ActionOn (makes_pure makes_throw makes_current makes_checked makes_action)

/-- What is drawn from any source has a property. -/
def Yields {α : Type} (draw : Draw α) (post : α → Prop) : Prop :=
  ∀ source : Source, draw.Makes source fun a _ => post a

variable {α β : Type}

theorem Yields.bind {draw : Draw α} {next : α → Draw β} {mid : α → Prop} {post : β → Prop}
    (h : draw.Yields mid) (hnext : ∀ a, mid a → (next a).Yields post) :
    (draw >>= next).Yields post :=
  fun source => (h source).bind fun a new ha => hnext a ha new

theorem yields_pure {a : α} {post : α → Prop} (h : post a) : (pure a : Draw α).Yields post :=
  fun _ => makes_pure h

theorem yields_throw {failure : Failure} {post : α → Prop} :
    (throw failure : Draw α).Yields post :=
  fun _ => makes_throw

theorem yields_checked {checked : Checked α} {next : α → Draw β} {post : β → Prop}
    (h : ∀ a, checked = .ok a → (next a).Yields post) :
    ((liftM checked : Draw α) >>= next).Yields post :=
  fun source => makes_checked fun a ha => h a ha source

theorem yields_action {action : Action α} {post : α → Prop} (h : action.Makes post) :
    (liftM action : Draw α).Yields post :=
  fun _ => makes_action h

/-! ## Attempts -/

theorem yields_take (count : Nat) : (take count).Yields fun _ => True := by
  intro source memory a new memory' _
  trivial

theorem yields_coin : coin.Yields fun _ => True := by
  intro source memory a new memory' _
  trivial

/-- A draw that is tried again makes what its attempts make. -/
theorem yields_retry {attempt : Draw (Option α)} {post : α → Prop}
    (h : attempt.Yields fun result => ∀ a, result = some a → post a) (limit : Nat) :
    (retry attempt limit).Yields post := by
  induction limit with
  | zero => exact yields_throw
  | succ limit ih =>
    refine h.bind ?_
    intro result hresult
    cases result with
    | none => exact ih
    | some a => exact yields_pure (hresult a rfl)

theorem yields_untilAccepted {attempt : Draw (Option α)} {post : α → Prop}
    (h : attempt.Yields fun result => ∀ a, result = some a → post a) :
    (untilAccepted attempt).Yields post :=
  fun source => makes_current (yields_retry h _ source)

/-! ## Integers -/

theorem yields_magnitude (bits : Nat) : (magnitude bits).Yields Integer.WellFormed := by
  refine (yields_take _).bind fun block _ => yields_action ?_
  have hwords := (Integer.attempts_ofWords (Words.ofBlock bits block)).makes
  refine (hwords.mono fun _ hx => hx.wellFormed).catching fun failure => ?_
  cases failure <;> exact Action.makes_throw

theorem yields_signed (bits : Nat) : (signed bits).Yields Integer.WellFormed := by
  refine yields_untilAccepted ((yields_magnitude bits).bind fun x hx => ?_)
  refine yields_coin.bind ?_
  intro negative _
  split
  · split
    · exact yields_pure (by simp)
    · exact yields_pure (by simpa using hx)
  · exact yields_pure (by simpa using (hx.withSign negative).wellFormed)

theorem yields_below (bound : Integer) : (below bound).Yields Integer.WellFormed := by
  unfold below
  have hattempt : (belowAttempt bound).Yields fun result =>
      ∀ x, result = some x → x.WellFormed := by
    refine (yields_magnitude bound.bits).bind fun x hx => yields_checked fun order _ => ?_
    cases order with
    | lt => exact yields_pure (by simpa using hx)
    | eq => exact yields_pure (by simp)
    | gt => exact yields_pure (by simp)
  split
  · exact yields_throw
  · exact yields_untilAccepted hattempt

/-! ## Ranges -/

section

variable {low high : Integer} (hlow : low.WellFormed) (hhigh : high.WellFormed)

include hlow hhigh

theorem yields_range : (range low high).Yields Integer.WellFormed := by
  unfold range
  apply yields_checked
  intro order _
  cases order with
  | lt =>
    dsimp only
    split
    · exact yields_below high
    · have hwidth := Integer.makes_apply .sub .neither hhigh hlow
      refine (yields_action hwidth).bind fun width _ => (yields_below width).bind fun offset hoffset =>
        yields_action ?_
      exact (Integer.makes_apply .add .right hlow hoffset).mono fun _ hx => hx.wellFormed
  | eq => exact yields_throw
  | gt => exact yields_throw

theorem yields_single : (single low high).Yields Integer.WellFormed := by
  unfold single
  apply yields_checked
  intro order _
  cases order with
  | lt => exact yields_range hlow hhigh
  | eq => exact yields_throw
  | gt => exact yields_throw

end

end Draw

namespace Sampler

open Draw (yields_action yields_below)

theorem makes_halfOpen {low high : Integer} (hlow : low.WellFormed) :
    (halfOpen low high).Makes fun sampler => sampler.base.WellFormed := by
  unfold halfOpen
  apply Action.makes_checked
  intro order _
  cases order with
  | lt =>
    refine (Action.makes_any _).bind ?_
    intro width _
    exact (Integer.makes_copyOrAbort hlow).bind fun base hbase => Action.makes_pure hbase
  | eq => exact Action.makes_throw
  | gt => exact Action.makes_throw

theorem makes_closed {low high : Integer} (hlow : low.WellFormed) :
    (closed low high).Makes fun sampler => sampler.base.WellFormed := by
  unfold closed
  apply Action.makes_checked
  intro order _
  have hwidened : (do
      let next ← Operator.add.apply .neither high (← Integer.ofSigned 1)
      halfOpen low next : Action Sampler).Makes fun sampler => sampler.base.WellFormed := by
    apply Action.makes_checked
    intro one _
    exact (Action.makes_any _).bind fun next _ => makes_halfOpen hlow
  cases order with
  | gt => exact Action.makes_throw
  | lt => exact hwidened
  | eq => exact hwidened

theorem yields_draw {sampler : Sampler} (h : sampler.base.WellFormed) :
    sampler.draw.Yields Integer.WellFormed := by
  refine (yields_below sampler.width).bind fun offset hoffset => yields_action ?_
  exact (Integer.makes_apply .add .right h hoffset).mono fun _ hx => hx.wellFormed

end Sampler

namespace Request

open Draw

/-- The bounds of a request are well formed. -/
def Bounded : Request Integer → Prop
  | .bits _ | .signedBits _ => True
  | .below bound => bound.WellFormed
  | .range low high | .single low high _ | .sampler low high _ => low.WellFormed ∧ high.WellFormed

theorem yields_drawSingle {low high : Integer} (hlow : low.WellFormed) (hhigh : high.WellFormed)
    (inclusive : Bool) : (drawSingle low high inclusive).Yields Integer.WellFormed := by
  unfold drawSingle
  apply yields_checked
  intro order _
  cases inclusive with
  | false =>
    cases order with
    | lt => exact yields_single hlow hhigh
    | eq => exact yields_throw
    | gt => exact yields_throw
  | true =>
    have hsampled : (do
        let sampler ← Sampler.closed low high
        sampler.draw : Draw Integer).Yields Integer.WellFormed :=
      (yields_action (Sampler.makes_closed hlow)).bind fun _ h => Sampler.yields_draw h
    cases order with
    | gt => exact yields_throw
    | lt => exact hsampled
    | eq => exact hsampled

/-- Every draw is well formed, whatever is asked for. -/
theorem yields_draw {request : Request Integer} (h : request.Bounded) :
    request.draw.Yields Integer.WellFormed := by
  unfold draw
  -- what is prepared may fail, and a draw follows only where it does not
  have hprepared : request.prepare.Makes fun draw => draw.Yields Integer.WellFormed := by
    cases request with
    | bits n => exact Action.makes_pure (yields_magnitude n)
    | signedBits n => exact Action.makes_pure (yields_signed n)
    | below bound => exact Action.makes_pure (yields_below bound)
    | range low high => exact Action.makes_pure (yields_range h.1 h.2)
    | single low high inclusive => exact Action.makes_pure (yields_drawSingle h.1 h.2 inclusive)
    | sampler low high inclusive =>
      cases inclusive with
      | false =>
        exact (Sampler.makes_halfOpen h.1).bind fun _ hs => Action.makes_pure (Sampler.yields_draw hs)
      | true =>
        exact (Sampler.makes_closed h.1).bind fun _ hs => Action.makes_pure (Sampler.yields_draw hs)
  exact (yields_action hprepared).bind fun _ hdraw => hdraw

end Request

end Multiword
