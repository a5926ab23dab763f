import Multiword.Proofs.Run.Attempt

/-!
# Runs that end well

A computation *makes* something if its result has a property wherever there is a result. How it can
fail, and what it asks for, is left open. That is enough to follow an invariant through loops that
ask for room in many places.
-/

set_option autoImplicit false

namespace Multiword

namespace Action

variable {α β : Type}

/-- Wherever the action ends well, it ends with `post`. -/
def Makes (action : Action α) (post : α → Prop) : Prop :=
  ∀ memory a new, action.exec memory = (.ok a, new) → post a

theorem Attempts.makes {action : Action α} {limit room : Nat} {fails : Failure → Prop}
    {post : α → Prop} (h : action.Attempts limit room fails post) : action.Makes post := by
  intro memory a new hrun
  obtain ⟨b, count, -, records, hb, hpost⟩ | ⟨count, -, records, old, words, -, -, hb⟩ |
    ⟨failure, count, records, -, hb⟩ := h memory
  · rw [hrun, Prod.mk.injEq, Except.ok.injEq] at hb
    exact hb.1 ▸ hpost
  · simp [hrun] at hb
  · simp [hrun] at hb

theorem Settles.makes {action : Action α} {post : α → Prop} (h : action.Settles post) :
    action.Makes post :=
  (@Settles.attempts α action 0 0 (fun _ => False) post h).makes

theorem makes_any (action : Action α) : action.Makes fun _ => True :=
  fun _ _ _ _ => trivial

theorem Makes.mono {action : Action α} {post post' : α → Prop} (h : action.Makes post)
    (hpost : ∀ a, post a → post' a) : action.Makes post' :=
  fun memory a new hrun => hpost a (h memory a new hrun)

theorem Makes.and {action : Action α} {post post' : α → Prop} (h : action.Makes post)
    (h' : action.Makes post') : action.Makes fun a => post a ∧ post' a :=
  fun memory a new hrun => ⟨h memory a new hrun, h' memory a new hrun⟩

/-- What is known of every result holds beside what is attempted. -/
theorem Attempts.and_makes {action : Action α} {limit room : Nat} {fails : Failure → Prop}
    {post post' : α → Prop} (h : action.Attempts limit room fails post)
    (hmakes : action.Makes post') :
    action.Attempts limit room fails fun a => post a ∧ post' a := by
  intro memory
  obtain ⟨a, count, hcount, records, hrun, ha⟩ | hrefused | hfailed := h memory
  · exact .inl ⟨a, count, hcount, records, hrun, ha, hmakes memory a _ hrun⟩
  · exact .inr (.inl hrefused)
  · exact .inr (.inr hfailed)

theorem Makes.bind {action : Action α} {next : α → Action β} {mid : α → Prop} {post : β → Prop}
    (h : action.Makes mid) (hnext : ∀ a, mid a → (next a).Makes post) :
    (action >>= next).Makes post := by
  intro memory b new hrun
  rw [exec_bind] at hrun
  split at hrun
  · next a memory' haction => exact hnext a (h memory a memory' haction) memory' b new hrun
  · simp at hrun

theorem makes_pure {a : α} {post : α → Prop} (h : post a) : (pure a : Action α).Makes post := by
  intro memory b new hrun
  rw [exec_pure, Prod.mk.injEq, Except.ok.injEq] at hrun
  exact hrun.1 ▸ h

theorem makes_throw {failure : Failure} {post : α → Prop} :
    (throw failure : Action α).Makes post := by
  intro memory b new hrun
  simp at hrun

theorem makes_lift {checked : Checked α} {post : α → Prop} (h : ∀ a, checked = .ok a → post a) :
    (liftM checked : Action α).Makes post := by
  intro memory b new hrun
  rcases checked with fault | a
  · simp at hrun
  · simp only [exec_checked, mapError_ok, Prod.mk.injEq, Except.ok.injEq] at hrun
    exact hrun.1 ▸ h a rfl

theorem makes_checked {checked : Checked α} {next : α → Action β} {post : β → Prop}
    (h : ∀ a, checked = .ok a → (next a).Makes post) :
    ((liftM checked : Action α) >>= next).Makes post := by
  intro memory b new hrun
  rcases hchecked : checked with fault | a
  · rw [hchecked] at hrun
    simp [exec_bind] at hrun
  · rw [hchecked] at hrun
    exact h a hchecked memory b new hrun

theorem Makes.map {action : Action α} {f : α → β} {post : β → Prop}
    (h : action.Makes fun a => post (f a)) : (f <$> action).Makes post := by
  rw [map_eq_pure_bind]
  exact h.bind fun _ ha => makes_pure ha

theorem Makes.orAbort {action : Action α} {post : α → Prop} (h : action.Makes post) :
    action.orAbort.Makes post := by
  intro memory b new hrun
  rw [exec_orAbort] at hrun
  rcases haction : action.exec memory with ⟨_ | a, memory'⟩ <;> rw [haction] at hrun
  · simp at hrun
  · simp only [mapError_ok, Prod.mk.injEq, Except.ok.injEq] at hrun
    exact hrun.1 ▸ h memory a memory' haction

theorem Makes.granted {action : Action α} {post : α → Prop} {a : α} (h : action.Makes post)
    (hrun : action.granted = .ok a) : post a :=
  h Memory.generous a (action.exec Memory.generous).2 (Prod.ext hrun rfl)

/-- The handler runs where the action fails, and on the memory that it left. -/
theorem exec_tryCatch (action : Action α) (handler : Failure → Action α) (memory : Memory) :
    (tryCatch action handler : Action α).exec memory =
      match action.exec memory with
      | (.ok a, memory) => ((.ok a, memory) : Outcome α × Memory)
      | (.error failure, memory) => (handler failure).exec memory := by
  show (ExceptT.tryCatch action handler : Action α) memory = _
  simp only [ExceptT.tryCatch, ExceptT.mk, bind, StateT.bind]
  show _ = match action memory with
    | (.ok a, memory) => ((.ok a, memory) : Outcome α × Memory)
    | (.error failure, memory) => handler failure memory
  rcases action memory with ⟨_ | _, _⟩ <;> rfl

/-- What a handler makes of a failure has the property too. -/
theorem Makes.catching {action : Action α} {handler : Failure → Action α} {post : α → Prop}
    (h : action.Makes post) (hhandler : ∀ failure, (handler failure).Makes post) :
    (tryCatch action handler : Action α).Makes post := by
  intro memory b new hrun
  rw [exec_tryCatch] at hrun
  rcases haction : action.exec memory with ⟨failure | a, memory'⟩
  · rw [haction] at hrun
    exact hhandler failure memory' b new hrun
  · simp only [haction, Prod.mk.injEq, Except.ok.injEq] at hrun
    exact hrun.1 ▸ h memory a memory' haction

end Action

namespace ActionOn

variable {σ α β : Type}

/-- Wherever the action ends well on this place, it ends with `post`. -/
def Makes (action : ActionOn σ α) (place : σ) (post : α → σ → Prop) : Prop :=
  ∀ memory a new memory', action.exec place memory = (.ok a, new, memory') → post a new

theorem Attempts.makes {action : ActionOn σ α} {place : σ} {limit room : Nat}
    {fails : Failure → Prop} {post : α → σ → Prop}
    (h : action.Attempts place limit room fails post) : action.Makes place post := by
  intro memory a new memory' hrun
  obtain ⟨b, place', count, -, records, hb, hpost⟩ | ⟨count, -, records, old, words, -, -, hb⟩ |
    ⟨failure, count, records, -, hb⟩ := h memory
  · rw [hrun] at hb
    simp only [Prod.mk.injEq, Except.ok.injEq] at hb
    rw [hb.1, hb.2.1]
    exact hpost
  · simp [hrun] at hb
  · simp [hrun] at hb

/-- What is known of every result holds beside what is attempted. -/
theorem Attempts.and_makes {action : ActionOn σ α} {place : σ} {limit room : Nat}
    {fails : Failure → Prop} {post post' : α → σ → Prop}
    (h : action.Attempts place limit room fails post) (hmakes : action.Makes place post') :
    action.Attempts place limit room fails fun a new => post a new ∧ post' a new := by
  intro memory
  obtain ⟨a, new, count, hcount, records, hrun, ha⟩ | hrefused | hfailed := h memory
  · exact .inl ⟨a, new, count, hcount, records, hrun, ha, hmakes memory a new _ hrun⟩
  · exact .inr (.inl hrefused)
  · exact .inr (.inr hfailed)

theorem Makes.mono {action : ActionOn σ α} {place : σ} {post post' : α → σ → Prop}
    (h : action.Makes place post) (hpost : ∀ a new, post a new → post' a new) :
    action.Makes place post' :=
  fun memory a new memory' hrun => hpost a new (h memory a new memory' hrun)

theorem Makes.bind {action : ActionOn σ α} {next : α → ActionOn σ β} {place : σ}
    {mid : α → σ → Prop} {post : β → σ → Prop} (h : action.Makes place mid)
    (hnext : ∀ a new, mid a new → (next a).Makes new post) :
    (action >>= next).Makes place post := by
  intro memory b new memory' hrun
  rw [exec_bind] at hrun
  split at hrun
  · next a place' memory'' haction =>
    exact hnext a place' (h memory a place' memory'' haction) memory'' b new memory' hrun
  · simp at hrun

variable {place : σ}

theorem makes_pure {a : α} {post : α → σ → Prop} (h : post a place) :
    (pure a : ActionOn σ α).Makes place post := by
  intro memory b new memory' hrun
  simp only [exec_pure, Prod.mk.injEq, Except.ok.injEq] at hrun
  rw [← hrun.1, ← hrun.2.1]
  exact h

theorem makes_throw {failure : Failure} {post : α → σ → Prop} :
    (throw failure : ActionOn σ α).Makes place post := by
  intro memory b new memory' hrun
  simp at hrun

theorem makes_current {next : σ → ActionOn σ β} {post : β → σ → Prop}
    (h : (next place).Makes place post) : (current >>= next).Makes place post := h

theorem makes_replace {new : σ} {post : Unit → σ → Prop} (h : post () new) :
    (replace new).Makes place post := by
  intro memory a new' memory' hrun
  simp only [exec_replace, Prod.mk.injEq] at hrun
  rw [← hrun.2.1]
  exact h

theorem makes_checked {checked : Checked α} {next : α → ActionOn σ β} {post : β → σ → Prop}
    (h : ∀ a, checked = .ok a → (next a).Makes place post) :
    ((liftM checked : ActionOn σ α) >>= next).Makes place post := by
  intro memory b new memory' hrun
  rcases hchecked : checked with fault | a
  · rw [hchecked] at hrun
    simp [exec_bind] at hrun
  · rw [hchecked] at hrun
    exact h a hchecked memory b new memory' hrun

theorem makes_action {action : Action α} {post : α → Prop} (h : action.Makes post) :
    (liftM action : ActionOn σ α).Makes place fun a _ => post a := by
  intro memory a new memory' hrun
  rw [exec_action, Prod.mk.injEq, Prod.mk.injEq] at hrun
  exact h memory a _ (Prod.ext hrun.1 rfl)

theorem Makes.orAbort {action : ActionOn σ α} {post : α → σ → Prop}
    (h : action.Makes place post) : action.orAbort.Makes place post := by
  intro memory b new memory' hrun
  rw [exec_orAbort] at hrun
  rcases haction : action.exec place memory with ⟨_ | a, place', memory''⟩ <;> rw [haction] at hrun
  · simp at hrun
  · simp only [mapError_ok, Prod.mk.injEq, Except.ok.injEq] at hrun
    rw [← hrun.1, ← hrun.2.1]
    exact h memory a place' memory'' haction

theorem Makes.applyTo {action : ActionOn σ Unit} {post : σ → Prop}
    (h : action.Makes place fun _ new => post new) : (action.applyTo place).Makes post := by
  intro memory a new hrun
  rcases haction : action.exec place memory with ⟨_ | _, place', memory'⟩
  · simp [haction, Except.map] at hrun
  · simp only [exec_applyTo, haction, Except.map, Prod.mk.injEq, Except.ok.injEq] at hrun
    rw [← hrun.1]
    exact h memory () place' memory' haction

theorem Makes.resultFrom {action : ActionOn σ α} {post : α → Prop}
    (h : action.Makes place fun a _ => post a) : (action.resultFrom place).Makes post := by
  intro memory a new hrun
  rcases haction : action.exec place memory with ⟨_ | b, place', memory'⟩
  · simp [haction] at hrun
  · simp only [exec_resultFrom, haction, Prod.mk.injEq, Except.ok.injEq] at hrun
    rw [← hrun.1]
    exact h memory b place' memory' haction

end ActionOn

end Multiword
