import Multiword.Proofs.Run.Success

/-!
# How runs can end

A computation *ends* within some failures and a property if every run of it, whatever memory answers,
either fails in one of these ways or ends well with the property. A failure that is left out cannot
happen; so faults are excluded by not being named.
-/

set_option autoImplicit false

namespace Multiword

namespace Failure

/-- A method reports one of these errors. -/
def Reports (causes : Error → Prop) : Failure → Prop
  | .error e => causes e
  | _ => False

/-- An operator gives up because of one of these errors. -/
def Aborts (causes : Error → Prop) : Failure → Prop
  | .abort e => causes e
  | _ => False

theorem Reports.aborts {causes : Error → Prop} {failure : Failure} (h : failure.Reports causes) :
    failure.aborting.Aborts causes := by
  cases failure <;> first | exact h | exact h.elim

theorem Aborts.mono {causes causes' : Error → Prop} (h : ∀ e, causes e → causes' e)
    {failure : Failure} (hfailure : failure.Aborts causes) : failure.Aborts causes' := by
  cases failure <;> first | exact h _ hfailure | exact hfailure.elim

end Failure

/-- The outcome is a result with `post`, or one of the failures that `fails` names. -/
def Within {α : Type} (fails : Failure → Prop) (post : α → Prop) : Outcome α → Prop
  | .ok a => post a
  | .error failure => fails failure

theorem Within.mono {α : Type} {fails fails' : Failure → Prop} {post post' : α → Prop}
    {outcome : Outcome α} (h : Within fails post outcome)
    (hfails : ∀ failure, fails failure → fails' failure) (hpost : ∀ a, post a → post' a) :
    Within fails' post' outcome := by
  cases outcome with
  | error failure => exact hfails failure h
  | ok a => exact hpost a h

/-- Without a failure that is allowed, there is a result. -/
theorem Within.exists_ok {α : Type} {fails : Failure → Prop} {post : α → Prop} {outcome : Outcome α}
    (h : Within fails post outcome) (hfails : ∀ failure, ¬fails failure) :
    ∃ a, outcome = .ok a ∧ post a := by
  cases outcome with
  | error failure => exact absurd h (hfails failure)
  | ok a => exact ⟨a, rfl, h⟩

namespace Action

variable {α β : Type}

/-- Whatever memory answers, the action ends well with `post` or fails as `fails` allows. -/
def Ends (action : Action α) (fails : Failure → Prop) (post : α → Prop) : Prop :=
  ∀ memory : Memory, Within fails post (action.exec memory).1

variable {fails fails' : Failure → Prop} {post post' : α → Prop}

theorem Ends.mono {action : Action α} (h : action.Ends fails post)
    (hfails : ∀ failure, fails failure → fails' failure) (hpost : ∀ a, post a → post' a) :
    action.Ends fails' post' :=
  fun memory => (h memory).mono hfails hpost

/-- An attempt fails by a refusal, or for a reason of its own. -/
theorem Attempts.ends {action : Action α} {limit room : Nat}
    (h : action.Attempts limit room fails post) (hrefused : fails' (.error .growthRefused))
    (hfails : ∀ failure, fails failure → fails' failure) : action.Ends fails' post := by
  intro memory
  obtain ⟨a, count, -, records, hrun, ha⟩ | ⟨count, -, records, old, words, -, -, hrun⟩ |
    ⟨failure, count, records, hfailure, hrun⟩ := h memory <;> rw [hrun]
  · exact ha
  · exact hrefused
  · exact hfails failure hfailure

/-- What is known of every result holds beside what the run ends with. -/
theorem Ends.makes {action : Action α} (h : action.Ends fails post) (hmakes : action.Makes post') :
    action.Ends fails fun a => post a ∧ post' a := by
  intro memory
  have hwithin := h memory
  rcases hrun : action.exec memory with ⟨failure | a, left⟩
  · rwa [hrun] at hwithin
  · rw [hrun] at hwithin
    exact ⟨hwithin, hmakes memory a left hrun⟩

theorem ends_pure {a : α} (h : post a) : (pure a : Action α).Ends fails post :=
  fun _ => h

theorem ends_throw {failure : Failure} (h : fails failure) :
    (throw failure : Action α).Ends fails post :=
  fun _ => h

theorem ends_checked {checked : Checked α} {a : α} {next : α → Action β} {post : β → Prop}
    (heq : checked = .ok a) (h : (next a).Ends fails post) :
    ((liftM checked : Action α) >>= next).Ends fails post := by
  subst heq
  exact h

theorem Ends.bind {action : Action α} {next : α → Action β} {mid : α → Prop} {post : β → Prop}
    (h : action.Ends fails mid) (hnext : ∀ a, mid a → (next a).Ends fails post) :
    (action >>= next).Ends fails post := by
  intro memory
  have hwithin := h memory
  rw [exec_bind]
  rcases hrun : action.exec memory with ⟨failure | a, left⟩ <;> rw [hrun] at hwithin
  · exact hwithin
  · exact hnext a hwithin left

theorem Ends.map {action : Action α} {f : α → β} {post : β → Prop}
    (h : action.Ends fails fun a => post (f a)) : (f <$> action).Ends fails post := by
  rw [map_eq_pure_bind]
  exact h.bind fun _ ha => ends_pure ha

/-- What would be reported aborts. -/
theorem Ends.orAbort {action : Action α} {causes : Error → Prop}
    (h : action.Ends (Failure.Reports causes) post) :
    action.orAbort.Ends (Failure.Aborts causes) post := by
  intro memory
  have hwithin := h memory
  rw [exec_orAbort]
  rcases hrun : action.exec memory with ⟨failure | a, left⟩ <;> rw [hrun] at hwithin
  · exact Failure.Reports.aborts hwithin
  · exact hwithin

/-- The handler sees only failures that can happen. -/
theorem Ends.catching {action : Action α} {handler : Failure → Action α}
    (h : action.Ends fails post)
    (hhandler : ∀ failure, fails failure → (handler failure).Ends fails' post) :
    (tryCatch action handler : Action α).Ends fails' post := by
  intro memory
  have hwithin := h memory
  rw [exec_tryCatch]
  rcases hrun : action.exec memory with ⟨failure | a, left⟩ <;> rw [hrun] at hwithin
  · exact hhandler failure hwithin left
  · exact hwithin

end Action

namespace ActionOn

variable {σ τ α β : Type}

/-- Whatever memory answers, the action on this place ends well with `post` or fails as `fails`
allows. -/
def Ends (action : ActionOn σ α) (place : σ) (fails : Failure → Prop) (post : α → σ → Prop) :
    Prop :=
  ∀ memory : Memory,
    Within fails (fun a => post a (action.exec place memory).2.1) (action.exec place memory).1

variable {place : σ} {fails fails' : Failure → Prop} {post post' : α → σ → Prop}

theorem Ends.mono {action : ActionOn σ α} (h : action.Ends place fails post)
    (hfails : ∀ failure, fails failure → fails' failure)
    (hpost : ∀ a new, post a new → post' a new) : action.Ends place fails' post' :=
  fun memory => (h memory).mono hfails fun a => hpost a _

/-- An attempt fails by a refusal, or for a reason of its own. -/
theorem Attempts.ends {action : ActionOn σ α} {limit room : Nat}
    (h : action.Attempts place limit room fails post) (hrefused : fails' (.error .growthRefused))
    (hfails : ∀ failure, fails failure → fails' failure) : action.Ends place fails' post := by
  intro memory
  obtain ⟨a, new, count, -, records, hrun, ha⟩ | ⟨count, -, records, old, words, -, -, hrun⟩ |
    ⟨failure, count, records, hfailure, hrun⟩ := h memory <;> rw [hrun]
  · exact ha
  · exact hrefused
  · exact hfails failure hfailure

/-- What is known of every result holds beside what the run ends with. -/
theorem Ends.makes {action : ActionOn σ α} (h : action.Ends place fails post)
    (hmakes : action.Makes place post') :
    action.Ends place fails fun a new => post a new ∧ post' a new := by
  intro memory
  have hwithin := h memory
  rcases hrun : action.exec place memory with ⟨failure | a, new, left⟩ <;> rw [hrun] at hwithin
  · exact hwithin
  · exact ⟨hwithin, hmakes memory a new left hrun⟩

theorem ends_pure {a : α} (h : post a place) : (pure a : ActionOn σ α).Ends place fails post :=
  fun _ => h

theorem ends_throw {failure : Failure} (h : fails failure) :
    (throw failure : ActionOn σ α).Ends place fails post :=
  fun _ => h

theorem ends_replace {new : σ} {post : Unit → σ → Prop} (h : post () new) :
    (replace new).Ends place fails post :=
  fun _ => h

theorem ends_current {next : σ → ActionOn σ β} {post : β → σ → Prop}
    (h : (next place).Ends place fails post) : (current >>= next).Ends place fails post := h

theorem ends_checked {checked : Checked α} {a : α} {next : α → ActionOn σ β} {post : β → σ → Prop}
    (heq : checked = .ok a) (h : (next a).Ends place fails post) :
    ((liftM checked : ActionOn σ α) >>= next).Ends place fails post := by
  subst heq
  exact h

theorem Ends.bind {action : ActionOn σ α} {next : α → ActionOn σ β} {mid : α → σ → Prop}
    {post : β → σ → Prop} (h : action.Ends place fails mid)
    (hnext : ∀ a new, mid a new → (next a).Ends new fails post) :
    (action >>= next).Ends place fails post := by
  intro memory
  have hwithin := h memory
  rw [exec_bind]
  rcases hrun : action.exec place memory with ⟨failure | a, new, left⟩ <;> rw [hrun] at hwithin
  · exact hwithin
  · exact hnext a new hwithin left

/-- An action leaves the place alone. -/
theorem ends_action {action : Action α} {next : α → ActionOn σ β} {mid : α → Prop}
    {post : β → σ → Prop} (h : action.Ends fails mid)
    (hnext : ∀ a, mid a → (next a).Ends place fails post) :
    ((liftM action : ActionOn σ α) >>= next).Ends place fails post := by
  intro memory
  have hwithin := h memory
  rw [exec_bind, exec_action]
  rcases hrun : action.exec memory with ⟨failure | a, left⟩ <;> rw [hrun] at hwithin
  · exact hwithin
  · exact hnext a hwithin left

/-- What would be reported aborts. -/
theorem Ends.orAbort {action : ActionOn σ α} {causes : Error → Prop}
    (h : action.Ends place (Failure.Reports causes) post) :
    action.orAbort.Ends place (Failure.Aborts causes) post := by
  intro memory
  have hwithin := h memory
  rw [exec_orAbort]
  rcases hrun : action.exec place memory with ⟨failure | a, new, left⟩ <;> rw [hrun] at hwithin
  · exact Failure.Reports.aborts hwithin
  · exact hwithin

theorem Ends.applyTo {action : ActionOn σ Unit} {post : σ → Prop}
    (h : action.Ends place fails fun _ new => post new) :
    (action.applyTo place).Ends fails post := by
  intro memory
  have hwithin := h memory
  rw [exec_applyTo]
  rcases hrun : action.exec place memory with ⟨failure | a, new, left⟩ <;> rw [hrun] at hwithin
  · exact hwithin
  · exact hwithin

theorem Ends.resultFrom {action : ActionOn σ α} {post : α → Prop}
    (h : action.Ends place fails fun a _ => post a) : (action.resultFrom place).Ends fails post :=
  h

theorem Ends.onPart {part : τ → σ} {replace : τ → σ → τ} {action : ActionOn σ α} {whole : τ}
    {post : α → τ → Prop}
    (h : action.Ends (part whole) fails fun a new => post a (replace whole new)) :
    (action.onPart part replace).Ends whole fails post :=
  h

end ActionOn

end Multiword
