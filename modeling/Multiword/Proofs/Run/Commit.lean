import Multiword.Proofs.Run.Success

/-!
# Runs that commit

A computation *commits* if it ends well, or fails and leaves its place as it was. A sequence commits
if all that can fail in it comes before the first write; so what is read and computed first may fail,
and what is written then must settle.
-/

set_option autoImplicit false

namespace Multiword

namespace ActionOn

variable {σ τ α β : Type}

/-- The action ends well with `post`, or it fails and the place is as it was. -/
def Commits (action : ActionOn σ α) (place : σ) (post : α → σ → Prop) : Prop :=
  ∀ memory : Memory,
    (∃ a new memory', action.exec place memory = (.ok a, new, memory') ∧ post a new) ∨
    (∃ failure memory', action.exec place memory = (.error failure, place, memory'))

theorem Attempts.commits {action : ActionOn σ α} {place : σ} {limit room : Nat}
    {fails : Failure → Prop} {post : α → σ → Prop}
    (h : action.Attempts place limit room fails post) : action.Commits place post := by
  intro memory
  obtain ⟨a, new, count, -, records, hrun, ha⟩ | ⟨count, -, records, old, words, -, -, hrun⟩ |
    ⟨failure, count, records, -, hrun⟩ := h memory
  · exact .inl ⟨a, new, _, hrun, ha⟩
  · exact .inr ⟨_, _, hrun⟩
  · exact .inr ⟨_, _, hrun⟩

theorem Settles.commits {action : ActionOn σ α} {place : σ} {post : α → σ → Prop}
    (h : action.Settles place post) : action.Commits place post := by
  intro memory
  obtain ⟨a, new, records, ha, hrun⟩ := h
  exact .inl ⟨a, new, memory.after 0 records, hrun memory, ha⟩

theorem Commits.makes {action : ActionOn σ α} {place : σ} {post : α → σ → Prop}
    (h : action.Commits place post) : action.Makes place post := by
  intro memory a new left hrun
  rcases h memory with ⟨b, place', memory', hb, hpost⟩ | ⟨failure, memory', hfailed⟩
  · rw [hrun, Prod.mk.injEq, Prod.mk.injEq, Except.ok.injEq] at hb
    rw [hb.1, hb.2.1]
    exact hpost
  · simp [hrun] at hfailed

theorem Commits.mono {action : ActionOn σ α} {place : σ} {post post' : α → σ → Prop}
    (h : action.Commits place post) (hpost : ∀ a new, post a new → post' a new) :
    action.Commits place post' := by
  intro memory
  rcases h memory with ⟨a, new, memory', hrun, ha⟩ | hfailed
  · exact .inl ⟨a, new, memory', hrun, hpost a new ha⟩
  · exact .inr hfailed

variable {place : σ}

theorem commits_throw {failure : Failure} {post : α → σ → Prop} :
    (throw failure : ActionOn σ α).Commits place post :=
  fun memory => .inr ⟨failure, memory, rfl⟩

theorem commits_current {next : σ → ActionOn σ β} {post : β → σ → Prop}
    (h : (next place).Commits place post) : (current >>= next).Commits place post := h

/-- What leaves the place alone may fail before anything is written. -/
theorem Commits.bind {action : ActionOn σ α} {next : α → ActionOn σ β} {mid : α → Prop}
    {post : β → σ → Prop} (h : action.Commits place fun a new => new = place ∧ mid a)
    (hnext : ∀ a, mid a → (next a).Commits place post) :
    (action >>= next).Commits place post := by
  intro memory
  rcases h memory with ⟨a, new, memory', hrun, hnew, ha⟩ | ⟨failure, memory', hrun⟩
  · subst hnew
    simp only [exec_bind, hrun]
    exact hnext a ha memory'
  · exact .inr ⟨failure, memory', by simp only [exec_bind, hrun]⟩

theorem commits_pure {a : α} {post : α → σ → Prop} (h : post a place) :
    (pure a : ActionOn σ α).Commits place post :=
  (settles_pure h).commits

theorem commits_action {action : Action α} {post : α → Prop} (h : action.Makes post) :
    (liftM action : ActionOn σ α).Commits place fun a new => new = place ∧ post a := by
  intro memory
  rcases haction : action.exec memory with ⟨failure | a, memory'⟩
  · exact .inr ⟨failure, memory', by rw [exec_action, haction]⟩
  · exact .inl ⟨a, place, memory', by rw [exec_action, haction], rfl, h memory a memory' haction⟩

theorem commits_checked {checked : Checked α} {next : α → ActionOn σ β} {post : β → σ → Prop}
    (h : ∀ a, checked = .ok a → (next a).Commits place post) :
    ((liftM checked : ActionOn σ α) >>= next).Commits place post := by
  intro memory
  rcases checked with fault | a
  · exact .inr ⟨.fault fault, memory, rfl⟩
  · exact h a rfl memory

theorem Commits.bind_settles {action : ActionOn σ α} {next : α → ActionOn σ β}
    {mid : α → σ → Prop} {post : β → σ → Prop} (h : action.Commits place mid)
    (hnext : ∀ a new, mid a new → (next a).Settles new post) :
    (action >>= next).Commits place post := by
  intro memory
  rcases h memory with ⟨a, new, memory', hrun, ha⟩ | ⟨failure, memory', hrun⟩
  · obtain ⟨b, new', records, hb, hrun'⟩ := hnext a new ha
    exact .inl ⟨b, new', memory'.after 0 records, by simp only [exec_bind, hrun, hrun'], hb⟩
  · exact .inr ⟨failure, memory', by simp only [exec_bind, hrun]⟩

theorem Commits.orAbort {action : ActionOn σ α} {post : α → σ → Prop}
    (h : action.Commits place post) : action.orAbort.Commits place post := by
  intro memory
  rcases h memory with ⟨a, new, memory', hrun, ha⟩ | ⟨failure, memory', hrun⟩
  · exact .inl ⟨a, new, memory', by rw [exec_orAbort, hrun]; rfl, ha⟩
  · exact .inr ⟨failure.aborting, memory', by rw [exec_orAbort, hrun]; rfl⟩

/-- A part that is put back as it was leaves the whole as it was. -/
theorem Commits.onPart {part : τ → σ} {replace : τ → σ → τ} {action : ActionOn σ α} {whole : τ}
    {post : α → τ → Prop} (hsame : replace whole (part whole) = whole)
    (h : action.Commits (part whole) fun a new => post a (replace whole new)) :
    (action.onPart part replace).Commits whole post := by
  intro memory
  rcases h memory with ⟨a, new, memory', hrun, ha⟩ | ⟨failure, memory', hrun⟩
  · exact .inl ⟨a, replace whole new, memory', by rw [exec_onPart, hrun], ha⟩
  · exact .inr ⟨failure, memory', by rw [exec_onPart, hrun, hsame]⟩

end ActionOn

end Multiword
