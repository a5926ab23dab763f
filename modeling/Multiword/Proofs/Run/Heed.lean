import Multiword.Proofs.Run.Success

/-!
# Answers that count

A computation *heeds* the next `n` answers of memory if no later one makes a difference: under two
memories that answer the next `n` requests alike it ends alike, makes the same of its place, and
leaves the same records. What settles heeds no answer at all, and in a sequence the answers add up.
-/

set_option autoImplicit false

namespace Multiword

namespace Memory

/-- Memories with the same past that answer the next `n` requests alike. -/
structure Agrees (n : Nat) (memory memory' : Memory) : Prop where
  requests_eq : memory.requests = memory'.requests
  log_eq : memory.log = memory'.log
  refuses_eq : ∀ i < n,
    memory.refuses (memory.requests + i) = memory'.refuses (memory'.requests + i)

variable {memory memory' : Memory}

theorem Agrees.mono {n k : Nat} (h : Agrees n memory memory') (hle : k ≤ n) :
    Agrees k memory memory' :=
  ⟨h.requests_eq, h.log_eq, fun i hi => h.refuses_eq i (Nat.lt_of_lt_of_le hi hle)⟩

/-- A request uses up one answer. -/
theorem Agrees.after {n count : Nat} (h : Agrees (count + n) memory memory')
    (records : List Record) : Agrees n (memory.after count records) (memory'.after count records) where
  requests_eq := congrArg (· + count) h.requests_eq
  log_eq := congrArg (· ++ records) h.log_eq
  refuses_eq i hi := by
    have hrefuses := h.refuses_eq (count + i) (Nat.add_lt_add_left hi count)
    rwa [← Nat.add_assoc, ← Nat.add_assoc] at hrefuses

end Memory

namespace Action

variable {α β : Type}

/-- Answers after the next `n` make no difference to the action. -/
def Heeds (action : Action α) (n : Nat) : Prop :=
  ∀ (k : Nat) (memory memory' : Memory), memory.Agrees (n + k) memory' →
    ∃ outcome left left', action.exec memory = (outcome, left) ∧
      action.exec memory' = (outcome, left') ∧ left.Agrees k left'

theorem Settles.heeds {action : Action α} {post : α → Prop} (h : action.Settles post) :
    action.Heeds 0 := by
  intro k memory memory' hagrees
  obtain ⟨a, records, -, hrun⟩ := h
  exact ⟨.ok a, _, _, hrun memory, hrun memory', hagrees.after records⟩

/-- Whether a request is refused is its own answer. -/
theorem heeds_request (old new : Nat) : (request old new).Heeds 1 := by
  intro k memory memory' hagrees
  have hanswer : memory.refuses memory.requests = memory'.refuses memory'.requests :=
    hagrees.refuses_eq 0 (by omega)
  rw [exec_request, exec_request, ← hanswer]
  by_cases hrefused : (memory.refuses memory.requests || Memory.wordLimit ≤ new) = true
  · rw [if_pos hrefused, if_pos hrefused]
    exact ⟨_, _, _, rfl, rfl, hagrees.after [.growthRefused old new]⟩
  · rw [if_neg hrefused, if_neg hrefused]
    refine ⟨.ok (), memory.after 1 [], memory'.after 1 [], ?_, ?_, hagrees.after []⟩ <;>
      simp [Memory.after]

end Action

namespace ActionOn

variable {σ α β : Type}

/-- Answers after the next `n` make no difference to the action on this place. -/
def Heeds (action : ActionOn σ α) (place : σ) (n : Nat) : Prop :=
  ∀ (k : Nat) (memory memory' : Memory), memory.Agrees (n + k) memory' →
    ∃ outcome new left left', action.exec place memory = (outcome, new, left) ∧
      action.exec place memory' = (outcome, new, left') ∧ left.Agrees k left'

variable {place : σ}

theorem Settles.heeds {action : ActionOn σ α} {post : α → σ → Prop}
    (h : action.Settles place post) : action.Heeds place 0 := by
  intro k memory memory' hagrees
  obtain ⟨a, new, records, -, hrun⟩ := h
  exact ⟨.ok a, new, _, _, hrun memory, hrun memory', hagrees.after records⟩

theorem Heeds.mono {action : ActionOn σ α} {n n' : Nat} (h : action.Heeds place n) (hle : n ≤ n') :
    action.Heeds place n' := by
  intro k memory memory' hagrees
  exact h k memory memory' (hagrees.mono (Nat.add_le_add_right hle k))

theorem heeds_pure {a : α} : (pure a : ActionOn σ α).Heeds place 0 :=
  (@settles_pure σ α a place (fun _ _ => True) trivial).heeds

theorem heeds_replace {new : σ} : (replace new).Heeds place 0 :=
  (@settles_replace σ new place (fun _ _ => True) trivial).heeds

theorem heeds_current {next : σ → ActionOn σ β} {n : Nat} (h : (next place).Heeds place n) :
    (current >>= next).Heeds place n := h

theorem heeds_checked {checked : Checked α} {a : α} {next : α → ActionOn σ β} {n : Nat}
    (heq : checked = .ok a) (h : (next a).Heeds place n) :
    ((liftM checked : ActionOn σ α) >>= next).Heeds place n := by
  subst heq
  exact h

/-- The answers that a sequence heeds add up. The second part has to be looked at only where the
first one can lead. -/
theorem Heeds.bind {action : ActionOn σ α} {next : α → ActionOn σ β} {n n' : Nat}
    {mid : α → σ → Prop} (h : action.Heeds place n) (hmid : action.Makes place mid)
    (hnext : ∀ a new, mid a new → (next a).Heeds new n') :
    (action >>= next).Heeds place (n + n') := by
  intro k memory memory' hagrees
  rw [Nat.add_assoc] at hagrees
  obtain ⟨outcome, new, left, left', hrun, hrun', hleft⟩ := h (n' + k) memory memory' hagrees
  simp only [exec_bind, hrun, hrun']
  cases outcome with
  | error failure => exact ⟨_, _, _, _, rfl, rfl, hleft.mono (Nat.le_add_left k n')⟩
  | ok a => exact hnext a new (hmid memory a new left hrun) k left left' hleft

/-- The same where the first part leaves the place alone. -/
theorem heeds_action {action : Action α} {next : α → ActionOn σ β} {n n' : Nat} {mid : α → Prop}
    (h : action.Heeds n) (hmid : action.Makes mid)
    (hnext : ∀ a, mid a → (next a).Heeds place n') :
    ((liftM action : ActionOn σ α) >>= next).Heeds place (n + n') := by
  intro k memory memory' hagrees
  rw [Nat.add_assoc] at hagrees
  obtain ⟨outcome, left, left', hrun, hrun', hleft⟩ := h (n' + k) memory memory' hagrees
  simp only [exec_bind, exec_action, hrun, hrun']
  cases outcome with
  | error failure => exact ⟨_, _, _, _, rfl, rfl, hleft.mono (Nat.le_add_left k n')⟩
  | ok a => exact hnext a (hmid memory a left hrun) k left left' hleft

theorem Heeds.applyTo {action : ActionOn σ Unit} {n : Nat} (h : action.Heeds place n) :
    (action.applyTo place).Heeds n := by
  intro k memory memory' hagrees
  obtain ⟨outcome, new, left, left', hrun, hrun', hleft⟩ := h k memory memory' hagrees
  exact ⟨outcome.map fun _ => new, left, left', by simp [hrun], by simp [hrun'], hleft⟩

end ActionOn

end Multiword
