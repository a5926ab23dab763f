import Multiword.Proofs.Run.Success

/-!
# Records that a run leaves

What a computation *leaves* is said of its result and its records together, wherever it ends well; so a
count in a record can be tied to what was counted. Most computations are *quiet*: they leave no record
where they end well. A growth is one of them, for it writes down only that it was refused.
-/

set_option autoImplicit false

namespace Multiword

namespace Action

variable {α β : Type}

/-- Wherever the action ends well, `post` holds of its result and of the records that it leaves. -/
def Leaves (action : Action α) (post : α → List Record → Prop) : Prop :=
  ∀ memory a left, action.exec memory = (.ok a, left) →
    ∃ records, left.log = memory.log ++ records ∧ post a records

/-- Wherever the action ends well, it leaves no record. -/
def Quiet (action : Action α) : Prop :=
  ∀ memory a left, action.exec memory = (.ok a, left) → left.log = memory.log

/-! ## Quiet computations -/

theorem quiet_pure {a : α} : (pure a : Action α).Quiet := by
  intro memory b left hrun
  rw [exec_pure, Prod.mk.injEq] at hrun
  rw [hrun.2]

theorem quiet_throw {failure : Failure} : (throw failure : Action α).Quiet := by
  intro memory b left hrun
  simp at hrun

theorem quiet_checked {checked : Checked α} : (liftM checked : Action α).Quiet := by
  intro memory b left hrun
  rw [exec_checked, Prod.mk.injEq] at hrun
  rw [hrun.2]

/-- A request that is granted is not written down. -/
theorem quiet_request (old new : Nat) : (request old new).Quiet := by
  intro memory a left hrun
  rw [exec_request] at hrun
  split at hrun
  · simp at hrun
  · rw [Prod.mk.injEq] at hrun
    rw [← hrun.2]

theorem Quiet.bind {action : Action α} {next : α → Action β} (h : action.Quiet)
    (hnext : ∀ a, (next a).Quiet) : (action >>= next).Quiet := by
  intro memory b left hrun
  rw [exec_bind] at hrun
  split at hrun
  · next a memory' haction =>
    exact (hnext a memory' b left hrun).trans (h memory a memory' haction)
  · simp at hrun

/-! ## What is left -/

theorem Makes.leaves {action : Action α} {post : α → Prop} (h : action.Makes post)
    (hquiet : action.Quiet) : action.Leaves fun a records => post a ∧ records = [] := by
  intro memory a left hrun
  refine ⟨[], ?_, h memory a left hrun, rfl⟩
  rw [hquiet memory a left hrun, List.append_nil]

theorem leaves_pure {a : α} {post : α → List Record → Prop} (h : post a []) :
    (pure a : Action α).Leaves post := by
  intro memory b left hrun
  simp only [exec_pure, Prod.mk.injEq, Except.ok.injEq] at hrun
  exact ⟨[], by rw [← hrun.2, List.append_nil], hrun.1 ▸ h⟩

theorem leaves_record {entry : Record} {post : Unit → List Record → Prop} (h : post () [entry]) :
    (record entry).Leaves post := by
  intro memory a left hrun
  rw [exec_record, Prod.mk.injEq] at hrun
  exact ⟨[entry], by rw [← hrun.2], h⟩

/-- The records of the second part come after those of the first. -/
theorem Leaves.bind {action : Action α} {next : α → Action β} {mid : α → List Record → Prop}
    {post : β → List Record → Prop} (h : action.Leaves mid)
    (hnext : ∀ a first, mid a first → (next a).Leaves fun b second => post b (first ++ second)) :
    (action >>= next).Leaves post := by
  intro memory b left hrun
  rw [exec_bind] at hrun
  split at hrun
  · next a memory' haction =>
    obtain ⟨first, hfirst, ha⟩ := h memory a memory' haction
    obtain ⟨second, hsecond, hb⟩ := hnext a first ha memory' b left hrun
    refine ⟨first ++ second, ?_, hb⟩
    rw [hsecond, hfirst, List.append_assoc]
  · simp at hrun

/-- What a quiet part makes is all that the rest has to know. -/
theorem Makes.bind_leaves {action : Action α} {next : α → Action β} {mid : α → Prop}
    {post : β → List Record → Prop} (h : action.Makes mid) (hquiet : action.Quiet)
    (hnext : ∀ a, mid a → (next a).Leaves post) : (action >>= next).Leaves post := by
  refine (h.leaves hquiet).bind fun a first ha => ?_
  rw [ha.2]
  exact hnext a ha.1

/-- What settles leaves the same records whatever memory answers. -/
theorem Settles.exec_eq {action : Action α} {post : α → Prop} {post' : α → List Record → Prop}
    (h : action.Settles post) (hleaves : action.Leaves post') :
    ∃ a records, post a ∧ post' a records ∧
      ∀ memory : Memory, action.exec memory = (.ok a, memory.after 0 records) := by
  obtain ⟨a, records, ha, hrun⟩ := h
  obtain ⟨records', hlog, ha'⟩ := hleaves Memory.generous a _ (hrun Memory.generous)
  have hrecords : records' = records := (List.append_cancel_left hlog).symm
  exact ⟨a, records, ha, hrecords ▸ ha', hrun⟩

end Action

namespace ActionOn

variable {σ α β : Type}

/-- Wherever the action ends well, on whichever place, it leaves no record. -/
def Quiet (action : ActionOn σ α) : Prop :=
  ∀ place memory a new left, action.exec place memory = (.ok a, new, left) → left.log = memory.log

theorem quiet_pure {a : α} : (pure a : ActionOn σ α).Quiet := by
  intro place memory b new left hrun
  simp only [exec_pure, Prod.mk.injEq] at hrun
  rw [hrun.2.2]

theorem quiet_throw {failure : Failure} : (throw failure : ActionOn σ α).Quiet := by
  intro place memory b new left hrun
  simp at hrun

theorem quiet_replace {new : σ} : (replace new).Quiet := by
  intro place memory a new' left hrun
  simp only [exec_replace, Prod.mk.injEq] at hrun
  rw [hrun.2.2]

theorem quiet_current {next : σ → ActionOn σ β} (h : ∀ place, (next place).Quiet) :
    (current >>= next).Quiet :=
  fun place => h place place

theorem Quiet.bind {action : ActionOn σ α} {next : α → ActionOn σ β} (h : action.Quiet)
    (hnext : ∀ a, (next a).Quiet) : (action >>= next).Quiet := by
  intro place memory b new left hrun
  rw [exec_bind] at hrun
  split at hrun
  · next a place' memory' haction =>
    exact (hnext a place' memory' b new left hrun).trans (h place memory a place' memory' haction)
  · simp at hrun

theorem quiet_checked {checked : Checked α} {next : α → ActionOn σ β} (h : ∀ a, (next a).Quiet) :
    ((liftM checked : ActionOn σ α) >>= next).Quiet := by
  refine Quiet.bind ?_ h
  intro place memory a new left hrun
  simp only [exec_checked, Prod.mk.injEq] at hrun
  rw [hrun.2.2]

theorem quiet_action {action : Action α} (h : action.Quiet) : (liftM action : ActionOn σ α).Quiet := by
  intro place memory a new left hrun
  rw [exec_action, Prod.mk.injEq, Prod.mk.injEq] at hrun
  exact h memory a left (Prod.ext hrun.1 hrun.2.2)

theorem Quiet.applyTo {action : ActionOn σ Unit} (h : action.Quiet) (place : σ) :
    (action.applyTo place).Quiet := by
  intro memory a left hrun
  rcases haction : action.exec place memory with ⟨_ | _, new, left'⟩
  · simp [haction, Except.map] at hrun
  · simp only [exec_applyTo, haction, Except.map, Prod.mk.injEq] at hrun
    rw [← hrun.2]
    exact h place memory () new left' haction

end ActionOn

end Multiword
