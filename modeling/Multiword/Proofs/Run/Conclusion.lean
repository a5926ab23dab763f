import Multiword.Proofs.Run.Ending

/-!
# Runs and their conclusions

A computation *concludes* with something if every run of it ends so, whatever memory answers, unless a
request was refused. Failures count as ends too, so this tells what happens wherever nothing is refused.
A run that was refused a request ends there, in the way that `refused` names.
-/

set_option autoImplicit false

namespace Multiword

namespace Memory

/-- More requests lead from one memory to the other. -/
def LeadsTo (memory left : Memory) : Prop :=
  ∃ count records, left = memory.after count records

/-- More requests lead from one memory to the other, and the last one of them, for room of at most
`room` bits, was refused. -/
def EndsRefused (memory : Memory) (room : Nat) (left : Memory) : Prop :=
  ∃ count records old, ∃ words ≤ roundedUp (wordsFor room), memory.Refuses count words ∧
    left = memory.after (count + 1) (records ++ [.growthRefused old words])

theorem leadsTo_self (memory : Memory) : memory.LeadsTo memory :=
  ⟨0, [], by simp⟩

theorem LeadsTo.trans {memory middle left : Memory} (h : memory.LeadsTo middle)
    (h' : middle.LeadsTo left) : memory.LeadsTo left := by
  obtain ⟨m, first, rfl⟩ := h
  obtain ⟨n, second, rfl⟩ := h'
  exact ⟨m + n, first ++ second, by simp⟩

theorem LeadsTo.endsRefused {memory middle left : Memory} {room : Nat} (h : memory.LeadsTo middle)
    (h' : middle.EndsRefused room left) : memory.EndsRefused room left := by
  obtain ⟨m, first, rfl⟩ := h
  obtain ⟨n, second, old, words, hwords, hrefuses, rfl⟩ := h'
  refine ⟨m + n, first ++ second, old, words, hwords, refuses_after.1 hrefuses, ?_⟩
  simp [Nat.add_assoc]

theorem EndsRefused.mono {memory left : Memory} {room room' : Nat}
    (h : memory.EndsRefused room left) (hroom : room ≤ room') : memory.EndsRefused room' left := by
  obtain ⟨count, records, old, words, hwords, hrest⟩ := h
  exact ⟨count, records, old, words, Nat.le_trans hwords (roundedUp_wordsFor_mono hroom), hrest⟩

theorem Grants.not_endsRefused {memory left : Memory} {room : Nat} (h : memory.Grants room) :
    ¬memory.EndsRefused room left := by
  rintro ⟨count, -, -, words, hwords, hrefuses, -⟩
  exact h count words hwords hrefuses

end Memory

namespace Action

variable {α β : Type} {room room' : Nat} {refused refused' : Failure → Prop}
  {post post' : Outcome α → Prop}

/-- The action ends with `post`, unless memory refuses a request for room of at most `room` bits;
then it fails as `refused` says. -/
def Concludes (action : Action α) (room : Nat) (refused : Failure → Prop)
    (post : Outcome α → Prop) : Prop :=
  ∀ memory : Memory,
    post (action.exec memory).1 ∧ memory.LeadsTo (action.exec memory).2 ∨
    Within refused (fun _ => False) (action.exec memory).1 ∧
      memory.EndsRefused room (action.exec memory).2

theorem Concludes.mono {action : Action α} (h : action.Concludes room refused post)
    (hroom : room ≤ room') (hrefused : ∀ failure, refused failure → refused' failure)
    (hpost : ∀ result, post result → post' result) : action.Concludes room' refused' post' := by
  intro memory
  rcases h memory with ⟨hend, hleads⟩ | ⟨hend, hrefuses⟩
  · exact .inl ⟨hpost _ hend, hleads⟩
  · exact .inr ⟨hend.mono hrefused fun _ h => h, hrefuses.mono hroom⟩

theorem Concludes.imp {action : Action α} (h : action.Concludes room refused post)
    (hpost : ∀ result, post result → post' result) : action.Concludes room refused post' :=
  h.mono (Nat.le_refl room) (fun _ h => h) hpost

theorem Concludes.within {action : Action α} (h : action.Concludes room refused post)
    (hroom : room ≤ room') : action.Concludes room' refused post :=
  h.mono hroom (fun _ h => h) fun _ h => h

/-- Where memory grants all that is asked for, only `post` is left. -/
theorem Concludes.of_grants {action : Action α} (h : action.Concludes room refused post)
    {memory : Memory} (hgrants : memory.Grants room) : post (action.exec memory).1 := by
  rcases h memory with ⟨hend, -⟩ | ⟨-, hrefuses⟩
  · exact hend
  · exact absurd hrefuses hgrants.not_endsRefused

/-- An attempt concludes with what it makes, or with a failure of its own. -/
theorem Attempts.concludes {action : Action α} {limit room : Nat} {fails : Failure → Prop}
    {post : α → Prop} (h : action.Attempts limit room fails post) :
    action.Concludes room (· = .error .growthRefused) (Within fails post) := by
  intro memory
  obtain ⟨a, count, -, records, hrun, ha⟩ |
    ⟨count, -, records, old, words, hwords, hrefuses, hrun⟩ |
    ⟨failure, count, records, hfailure, hrun⟩ := h memory <;> rw [hrun]
  · exact .inl ⟨ha, count, records, rfl⟩
  · exact .inr ⟨rfl, count, records, old, words, hwords, hrefuses, rfl⟩
  · exact .inl ⟨hfailure, count, records, rfl⟩

/-- An attempt that has no failure of its own ends well where it is granted the room. -/
theorem Attempts.exists_granted {action : Action α} {limit room : Nat} {fails : Failure → Prop}
    {post : α → Prop} (h : action.Attempts limit room fails post)
    (hgrants : Memory.generous.Grants room) (hfails : ∀ failure, ¬fails failure) :
    ∃ a, action.granted = .ok a ∧ post a :=
  (h.concludes.of_grants hgrants).exists_ok hfails

theorem concludes_pure {a : α} (h : post (.ok a)) :
    (pure a : Action α).Concludes room refused post :=
  fun memory => .inl ⟨h, memory.leadsTo_self⟩

theorem concludes_checked {checked : Checked α} {a : α} {next : α → Action β}
    {post : Outcome β → Prop} (heq : checked = .ok a) (h : (next a).Concludes room refused post) :
    ((liftM checked : Action α) >>= next).Concludes room refused post := by
  subst heq
  exact h

/-- A failure of the first part is one of the whole. -/
theorem Concludes.bind {action : Action α} {next : α → Action β} {mid : Outcome α → Prop}
    {post : Outcome β → Prop} (h : action.Concludes room refused mid)
    (hok : ∀ a, mid (.ok a) → (next a).Concludes room refused post)
    (herror : ∀ failure, mid (.error failure) → post (.error failure)) :
    (action >>= next).Concludes room refused post := by
  intro memory
  have hfirst := h memory
  rw [exec_bind]
  rcases hrun : action.exec memory with ⟨failure | a, left⟩ <;> rw [hrun] at hfirst
  · rcases hfirst with ⟨hend, hleads⟩ | hrefused
    · exact .inl ⟨herror failure hend, hleads⟩
    · exact .inr hrefused
  · rcases hfirst with ⟨hend, hleads⟩ | ⟨hend, -⟩
    · rcases hok a hend left with ⟨hend', hleads'⟩ | ⟨hend', hrefuses⟩
      · exact .inl ⟨hend', hleads.trans hleads'⟩
      · exact .inr ⟨hend', hleads.endsRefused hrefuses⟩
    · exact hend.elim

/-- A handler that only fails in another way. -/
theorem Concludes.rethrow {action : Action α} {handler : Failure → Action α}
    (h : action.Concludes room refused post)
    (hrefused : ∀ failure, refused failure →
      ∃ failure', handler failure = throw failure' ∧ refused' failure')
    (hok : ∀ a, post (.ok a) → post' (.ok a))
    (herror : ∀ failure, post (.error failure) →
      ∃ failure', handler failure = throw failure' ∧ post' (.error failure')) :
    (tryCatch action handler : Action α).Concludes room refused' post' := by
  intro memory
  have hinner := h memory
  rw [exec_tryCatch]
  rcases hrun : action.exec memory with ⟨failure | a, left⟩ <;> rw [hrun] at hinner
  · rcases hinner with ⟨hend, hleads⟩ | ⟨hend, hrefuses⟩
    · obtain ⟨failure', hthrown, hpost⟩ := herror failure hend
      simp only [hthrown, exec_throw]
      exact .inl ⟨hpost, hleads⟩
    · obtain ⟨failure', hthrown, hpost⟩ := hrefused failure hend
      simp only [hthrown, exec_throw]
      exact .inr ⟨hpost, hrefuses⟩
  · exact hinner.imp (And.imp_left (hok a)) id

theorem Concludes.orAbort {action : Action α}
    (h : action.Concludes room (· = .error .growthRefused) post)
    (hpost : ∀ result, post result → post' (result.mapError Failure.aborting)) :
    action.orAbort.Concludes room (· = .abort .growthRefused) post' := by
  refine h.rethrow ?_ (fun a => hpost (.ok a)) fun failure hfailure =>
    ⟨_, rfl, hpost (.error failure) hfailure⟩
  rintro _ rfl
  exact ⟨_, rfl, rfl⟩

end Action

namespace ActionOn

variable {σ α β : Type} {place : σ} {room room' : Nat} {refused refused' : Failure → Prop}
  {post post' : Outcome α → σ → Prop}

/-- The action on this place ends with `post`, unless memory refuses a request for room of at most
`room` bits; then it fails as `refused` says. -/
def Concludes (action : ActionOn σ α) (place : σ) (room : Nat) (refused : Failure → Prop)
    (post : Outcome α → σ → Prop) : Prop :=
  ∀ memory : Memory,
    post (action.exec place memory).1 (action.exec place memory).2.1 ∧
      memory.LeadsTo (action.exec place memory).2.2 ∨
    Within refused (fun _ => False) (action.exec place memory).1 ∧
      memory.EndsRefused room (action.exec place memory).2.2

theorem Concludes.mono {action : ActionOn σ α} (h : action.Concludes place room refused post)
    (hroom : room ≤ room') (hrefused : ∀ failure, refused failure → refused' failure)
    (hpost : ∀ result new, post result new → post' result new) :
    action.Concludes place room' refused' post' := by
  intro memory
  rcases h memory with ⟨hend, hleads⟩ | ⟨hend, hrefuses⟩
  · exact .inl ⟨hpost _ _ hend, hleads⟩
  · exact .inr ⟨hend.mono hrefused fun _ h => h, hrefuses.mono hroom⟩

theorem Concludes.within {action : ActionOn σ α} (h : action.Concludes place room refused post)
    (hroom : room ≤ room') : action.Concludes place room' refused post :=
  h.mono hroom (fun _ h => h) fun _ _ h => h

/-- Where memory grants all that is asked for, only `post` is left. -/
theorem Concludes.of_grants {action : ActionOn σ α} (h : action.Concludes place room refused post)
    {memory : Memory} (hgrants : memory.Grants room) :
    post (action.exec place memory).1 (action.exec place memory).2.1 := by
  rcases h memory with ⟨hend, -⟩ | ⟨-, hrefuses⟩
  · exact hend
  · exact absurd hrefuses hgrants.not_endsRefused

/-- An attempt concludes with what it makes, or leaves the place alone with a failure of its own. -/
theorem Attempts.concludes {action : ActionOn σ α} {limit room : Nat} {fails : Failure → Prop}
    {post : α → σ → Prop} (h : action.Attempts place limit room fails post) :
    action.Concludes place room (· = .error .growthRefused) fun result new =>
      Within (fun failure => new = place ∧ fails failure) (post · new) result := by
  intro memory
  obtain ⟨a, new, count, -, records, hrun, ha⟩ |
    ⟨count, -, records, old, words, hwords, hrefuses, hrun⟩ |
    ⟨failure, count, records, hfailure, hrun⟩ := h memory <;> rw [hrun]
  · exact .inl ⟨ha, count, records, rfl⟩
  · exact .inr ⟨rfl, count, records, old, words, hwords, hrefuses, rfl⟩
  · exact .inl ⟨⟨rfl, hfailure⟩, count, records, rfl⟩

theorem concludes_pure {a : α} (h : post (.ok a) place) :
    (pure a : ActionOn σ α).Concludes place room refused post :=
  fun memory => .inl ⟨h, memory.leadsTo_self⟩

theorem concludes_current {next : σ → ActionOn σ β} {post : Outcome β → σ → Prop}
    (h : (next place).Concludes place room refused post) :
    (current >>= next).Concludes place room refused post := h

theorem concludes_checked {checked : Checked α} {a : α} {next : α → ActionOn σ β}
    {post : Outcome β → σ → Prop} (heq : checked = .ok a)
    (h : (next a).Concludes place room refused post) :
    ((liftM checked : ActionOn σ α) >>= next).Concludes place room refused post := by
  subst heq
  exact h

theorem Concludes.bind {action : ActionOn σ α} {next : α → ActionOn σ β}
    {mid : Outcome α → σ → Prop} {post : Outcome β → σ → Prop}
    (h : action.Concludes place room refused mid)
    (hok : ∀ a new, mid (.ok a) new → (next a).Concludes new room refused post)
    (herror : ∀ failure new, mid (.error failure) new → post (.error failure) new) :
    (action >>= next).Concludes place room refused post := by
  intro memory
  have hfirst := h memory
  rw [exec_bind]
  rcases hrun : action.exec place memory with ⟨failure | a, new, left⟩ <;> rw [hrun] at hfirst
  · rcases hfirst with ⟨hend, hleads⟩ | hrefused
    · exact .inl ⟨herror failure new hend, hleads⟩
    · exact .inr hrefused
  · rcases hfirst with ⟨hend, hleads⟩ | ⟨hend, -⟩
    · rcases hok a new hend left with ⟨hend', hleads'⟩ | ⟨hend', hrefuses⟩
      · exact .inl ⟨hend', hleads.trans hleads'⟩
      · exact .inr ⟨hend', hleads.endsRefused hrefuses⟩
    · exact hend.elim

/-- Behind a failure nothing is run. -/
theorem Concludes.bind_error {action : ActionOn σ α} {next : α → ActionOn σ β} {failure : Failure}
    {left : σ}
    (h : action.Concludes place room refused fun result new =>
      result = .error failure ∧ new = left) :
    (action >>= next).Concludes place room refused fun result new =>
      result = .error failure ∧ new = left :=
  h.bind (fun _ _ hend => nomatch hend.1) fun _ _ ⟨hfailure, hnew⟩ =>
    ⟨congrArg Except.error (Except.error.inj hfailure), hnew⟩

/-- An action leaves the place alone. -/
theorem concludes_action {action : Action α} {post : Outcome α → Prop}
    (h : action.Concludes room refused post) :
    (liftM action : ActionOn σ α).Concludes place room refused fun result new =>
      new = place ∧ post result := by
  intro memory
  rw [exec_action]
  exact (h memory).imp (And.imp_left fun hend => ⟨rfl, hend⟩) id

theorem Concludes.orAbort {action : ActionOn σ α}
    (h : action.Concludes place room (· = .error .growthRefused) post)
    (hpost : ∀ result new, post result new → post' (result.mapError Failure.aborting) new) :
    action.orAbort.Concludes place room (· = .abort .growthRefused) post' := by
  intro memory
  have hinner := h memory
  rw [exec_orAbort]
  rcases hrun : action.exec place memory with ⟨failure | a, new, left⟩ <;> rw [hrun] at hinner
  · refine hinner.imp (And.imp_left (hpost _ _)) (And.imp_left ?_)
    rintro (rfl : failure = .error .growthRefused)
    rfl
  · exact hinner.imp (And.imp_left (hpost _ _)) id

end ActionOn

end Multiword
