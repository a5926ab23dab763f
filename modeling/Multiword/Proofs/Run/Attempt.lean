import Multiword.Integer.Basic

/-!
# Runs that ask for room

A computation *settles* if it ends well and asks for nothing; so it ends in the same way whatever
memory answers. It *attempts* something if it ends well, or one of its requests is refused, or it
fails for a reason of its own; in the last two cases it has not touched its place. How often it
asks, and for how much room at a time, is bounded: memory that grants as much does not stand in its
way. A sequence that asks for room first and settles then is an attempt again: that is how an
operation keeps its destination whole.
-/

set_option autoImplicit false

namespace Multiword

/-- More bits never take a smaller buffer. -/
theorem roundedUp_wordsFor_mono {m n : Nat} (h : m ≤ n) :
    roundedUp (wordsFor m) ≤ roundedUp (wordsFor n) := by
  unfold roundedUp wordsFor
  omega

namespace Memory

/-- Memory after `count` more requests that have left `records` behind. -/
def after (memory : Memory) (count : Nat) (records : List Record) : Memory :=
  { memory with requests := memory.requests + count, log := memory.log ++ records }

/-- The request that comes after `count` others, for `words` words, is refused. -/
def Refuses (memory : Memory) (count words : Nat) : Prop :=
  memory.refuses (memory.requests + count) = true ∨ wordLimit ≤ words

/-- No request for room of at most `room` bits is refused. -/
def Grants (memory : Memory) (room : Nat) : Prop :=
  ∀ count, ∀ words ≤ roundedUp (wordsFor room), ¬memory.Refuses count words

@[simp] theorem after_zero (memory : Memory) : memory.after 0 [] = memory := by
  simp [after]

@[simp] theorem after_after (memory : Memory) (m n : Nat) (first second : List Record) :
    (memory.after m first).after n second = memory.after (m + n) (first ++ second) := by
  simp [after, Nat.add_assoc]

theorem refuses_after {memory : Memory} {m n words : Nat} {records : List Record} :
    (memory.after m records).Refuses n words ↔ memory.Refuses (m + n) words := by
  simp [Refuses, after, Nat.add_assoc]

/-- The machine counts the bits of all the room that memory can grant. -/
theorem Grants.lt {memory : Memory} {room : Nat} (h : memory.Grants room) : room < UInt64.size := by
  have hlimit : ¬wordLimit ≤ roundedUp (wordsFor room) :=
    fun hle => h 0 _ (Nat.le_refl _) (.inr hle)
  unfold wordLimit roundedUp wordsFor at hlimit
  show room < 2 ^ 64
  omega

/-- Memory that refuses nothing by number grants whatever stays below the limit. -/
theorem generous_grants {room : Nat} (h : roundedUp (wordsFor room) < wordLimit) :
    generous.Grants room := by
  rintro count words hwords (hrefuses | hlimit)
  · cases hrefuses
  · exact absurd (Nat.lt_of_le_of_lt (Nat.le_trans hlimit hwords) h) (Nat.lt_irrefl _)

end Memory

/-! ## Computations without a place -/

namespace Action

variable {α β : Type}

/-- The action ends well with `post`, after at most `limit` requests; or one of the requests is
refused, for room of at most `room` bits; or it fails as `fails` allows. -/
def Attempts (action : Action α) (limit room : Nat) (fails : Failure → Prop) (post : α → Prop) :
    Prop :=
  ∀ memory : Memory,
    (∃ a, ∃ count ≤ limit, ∃ records,
      action.exec memory = (.ok a, memory.after count records) ∧ post a) ∨
    (∃ count < limit, ∃ records old, ∃ words ≤ roundedUp (wordsFor room),
      memory.Refuses count words ∧ action.exec memory = (.error (.error .growthRefused),
        memory.after (count + 1) (records ++ [.growthRefused old words]))) ∨
    (∃ failure count records, fails failure ∧
      action.exec memory = (.error failure, memory.after count records))

/-- The action ends well with `post` and asks for nothing. What it ends with, and the records that
it leaves, are the same for every memory. -/
def Settles (action : Action α) (post : α → Prop) : Prop :=
  ∃ a records, post a ∧ ∀ memory : Memory, action.exec memory = (.ok a, memory.after 0 records)

theorem settles_pure {a : α} {post : α → Prop} (h : post a) : (pure a : Action α).Settles post :=
  ⟨a, [], h, fun memory => by rw [exec_pure, Memory.after_zero]⟩

theorem settles_record {entry : Record} {post : Unit → Prop} (h : post ()) :
    (record entry).Settles post :=
  ⟨(), [entry], h, fun _ => rfl⟩

theorem checked_bind {checked : Checked α} {a : α} {next : α → Action β} (heq : checked = .ok a) :
    ((liftM checked : Action α) >>= next) = next a := by
  subst heq
  rfl

theorem settles_checked {checked : Checked α} {a : α} {next : α → Action β} {post : β → Prop}
    (heq : checked = .ok a) (h : (next a).Settles post) :
    ((liftM checked : Action α) >>= next).Settles post := by
  subst heq
  exact h

theorem Settles.mono {action : Action α} {post post' : α → Prop} (h : action.Settles post)
    (hpost : ∀ a, post a → post' a) : action.Settles post' := by
  obtain ⟨a, records, ha, hrun⟩ := h
  exact ⟨a, records, hpost a ha, hrun⟩

theorem Settles.bind {action : Action α} {next : α → Action β} {mid : α → Prop}
    {post : β → Prop} (h : action.Settles mid) (hnext : ∀ a, mid a → (next a).Settles post) :
    (action >>= next).Settles post := by
  obtain ⟨a, records, ha, hrun⟩ := h
  obtain ⟨b, records', hb, hrun'⟩ := hnext a ha
  refine ⟨b, records ++ records', hb, fun memory => ?_⟩
  simp only [exec_bind, hrun, hrun', Memory.after_after]

theorem Settles.attempts {action : Action α} {limit room : Nat} {fails : Failure → Prop}
    {post : α → Prop} (h : action.Settles post) : action.Attempts limit room fails post := by
  intro memory
  obtain ⟨a, records, ha, hrun⟩ := h
  exact .inl ⟨a, 0, Nat.zero_le _, records, hrun memory, ha⟩

theorem Attempts.mono {action : Action α} {limit limit' room room' : Nat}
    {fails fails' : Failure → Prop} {post post' : α → Prop}
    (h : action.Attempts limit room fails post) (hlimit : limit ≤ limit') (hroom : room ≤ room')
    (hfails : ∀ failure, fails failure → fails' failure) (hpost : ∀ a, post a → post' a) :
    action.Attempts limit' room' fails' post' := by
  intro memory
  obtain ⟨a, count, hcount, records, hrun, ha⟩ |
    ⟨count, hcount, records, old, words, hwords, hrest⟩ |
    ⟨failure, count, records, hfailure, hrun⟩ := h memory
  · exact .inl ⟨a, count, Nat.le_trans hcount hlimit, records, hrun, hpost a ha⟩
  · exact .inr (.inl ⟨count, Nat.lt_of_lt_of_le hcount hlimit, records, old, words,
      Nat.le_trans hwords (roundedUp_wordsFor_mono hroom), hrest⟩)
  · exact .inr (.inr ⟨failure, count, records, hfails failure hfailure, hrun⟩)

theorem Attempts.imp {action : Action α} {limit room : Nat} {fails : Failure → Prop}
    {post post' : α → Prop} (h : action.Attempts limit room fails post)
    (hpost : ∀ a, post a → post' a) : action.Attempts limit room fails post' :=
  h.mono (Nat.le_refl limit) (Nat.le_refl room) (fun _ h => h) hpost

theorem Attempts.within {action : Action α} {limit room room' : Nat} {fails : Failure → Prop}
    {post : α → Prop} (h : action.Attempts limit room fails post) (hroom : room ≤ room') :
    action.Attempts limit room' fails post :=
  h.mono (Nat.le_refl limit) hroom (fun _ h => h) fun _ h => h

/-- Where no growth is refused, an attempt ends well or fails for a reason of its own. -/
theorem Attempts.of_not_refused {action : Action α} {limit room : Nat} {fails : Failure → Prop}
    {post : α → Prop} (h : action.Attempts limit room fails post) {memory : Memory}
    (hgranted : (action.exec memory).1 ≠ .error (.error .growthRefused)) :
    (∃ a, (action.exec memory).1 = .ok a ∧ post a) ∨
      ∃ failure, (action.exec memory).1 = .error failure ∧ fails failure := by
  obtain ⟨a, count, -, records, hrun, ha⟩ | ⟨count, -, records, old, words, -, -, hrun⟩ |
    ⟨failure, count, records, hfailure, hrun⟩ := h memory
  · exact .inl ⟨a, by rw [hrun], ha⟩
  · exact absurd (by rw [hrun]) hgranted
  · exact .inr ⟨failure, by rw [hrun], hfailure⟩

theorem attempts_pure {a : α} {limit room : Nat} {fails : Failure → Prop} {post : α → Prop}
    (h : post a) : (pure a : Action α).Attempts limit room fails post := by
  intro memory
  exact .inl ⟨a, 0, Nat.zero_le _, [], by simp, h⟩

theorem attempts_throw {failure : Failure} {limit room : Nat} {fails : Failure → Prop}
    {post : α → Prop} (h : fails failure) :
    (throw failure : Action α).Attempts limit room fails post := by
  intro memory
  exact .inr (.inr ⟨failure, 0, [], h, by simp⟩)

theorem attempts_checked {checked : Checked α} {a : α} {next : α → Action β} {limit room : Nat}
    {fails : Failure → Prop} {post : β → Prop} (heq : checked = .ok a)
    (h : (next a).Attempts limit room fails post) :
    ((liftM checked : Action α) >>= next).Attempts limit room fails post := by
  subst heq
  exact h

theorem attempts_record {entry : Record} {limit room : Nat} {fails : Failure → Prop}
    {post : Unit → Prop} (h : post ()) : (record entry).Attempts limit room fails post := by
  intro memory
  exact .inl ⟨(), 0, Nat.zero_le _, [entry], by simp [Memory.after], h⟩

/-- One attempt after the other, each with requests of its own, for room of one size at most. -/
theorem Attempts.bind {action : Action α} {next : α → Action β} {limit limit' room : Nat}
    {fails : Failure → Prop} {mid : α → Prop} {post : β → Prop}
    (h : action.Attempts limit room fails mid)
    (hnext : ∀ a, mid a → (next a).Attempts limit' room fails post) :
    (action >>= next).Attempts (limit + limit') room fails post := by
  intro memory
  obtain ⟨a, count, hcount, records, hrun, ha⟩ |
    ⟨count, hcount, records, old, words, hwords, hrefuses, hrun⟩ |
    ⟨failure, count, records, hfailure, hrun⟩ := h memory
  · simp only [exec_bind, hrun]
    obtain ⟨b, count', hcount', records', hrun', hb⟩ |
      ⟨count', hcount', records', old, words, hwords, hrefuses, hrun'⟩ |
      ⟨failure, count', records', hfailure, hrun'⟩ := hnext a ha (memory.after count records)
    · refine .inl ⟨b, count + count', Nat.add_le_add hcount hcount', records ++ records', ?_, hb⟩
      rw [hrun', Memory.after_after]
    · refine .inr (.inl ⟨count + count', Nat.add_lt_add_of_le_of_lt hcount hcount',
        records ++ records', old, words, hwords, Memory.refuses_after.1 hrefuses, ?_⟩)
      rw [hrun', Memory.after_after, Nat.add_assoc, List.append_assoc]
    · refine .inr (.inr ⟨failure, count + count', records ++ records', hfailure, ?_⟩)
      rw [hrun', Memory.after_after]
  · simp only [exec_bind, hrun]
    exact .inr (.inl ⟨count, Nat.lt_add_right _ hcount, records, old, words, hwords, hrefuses, rfl⟩)
  · simp only [exec_bind, hrun]
    exact .inr (.inr ⟨failure, count, records, hfailure, rfl⟩)

end Action

/-! ## Computations on a place -/

namespace ActionOn

variable {σ α β : Type}

/-- The action ends well with `post` and asks for nothing. What it ends with, what it makes of the
place, and the records that it leaves are the same for every memory. -/
def Settles (action : ActionOn σ α) (place : σ) (post : α → σ → Prop) : Prop :=
  ∃ a new records, post a new ∧
    ∀ memory : Memory, action.exec place memory = (.ok a, new, memory.after 0 records)

/-- The action ends well with `post`, after at most `limit` requests; or one of the requests is
refused, for room of at most `room` bits, or it fails as `fails` allows, and then the place is as it
was. -/
def Attempts (action : ActionOn σ α) (place : σ) (limit room : Nat) (fails : Failure → Prop)
    (post : α → σ → Prop) : Prop :=
  ∀ memory : Memory,
    (∃ a new, ∃ count ≤ limit, ∃ records,
      action.exec place memory = (.ok a, new, memory.after count records) ∧ post a new) ∨
    (∃ count < limit, ∃ records old, ∃ words ≤ roundedUp (wordsFor room),
      memory.Refuses count words ∧ action.exec place memory = (.error (.error .growthRefused),
        place, memory.after (count + 1) (records ++ [.growthRefused old words]))) ∨
    (∃ failure count records, fails failure ∧
      action.exec place memory = (.error failure, place, memory.after count records))

theorem Settles.attempts {action : ActionOn σ α} {place : σ} {limit room : Nat}
    {fails : Failure → Prop} {post : α → σ → Prop} (h : action.Settles place post) :
    action.Attempts place limit room fails post := by
  intro memory
  obtain ⟨a, new, records, ha, hrun⟩ := h
  exact .inl ⟨a, new, 0, Nat.zero_le _, records, hrun memory, ha⟩

theorem Attempts.mono {action : ActionOn σ α} {place : σ} {limit limit' room room' : Nat}
    {fails fails' : Failure → Prop} {post post' : α → σ → Prop}
    (h : action.Attempts place limit room fails post) (hlimit : limit ≤ limit')
    (hroom : room ≤ room') (hfails : ∀ failure, fails failure → fails' failure)
    (hpost : ∀ a new, post a new → post' a new) :
    action.Attempts place limit' room' fails' post' := by
  intro memory
  obtain ⟨a, new, count, hcount, records, hrun, ha⟩ |
    ⟨count, hcount, records, old, words, hwords, hrest⟩ |
    ⟨failure, count, records, hfailure, hrun⟩ := h memory
  · exact .inl ⟨a, new, count, Nat.le_trans hcount hlimit, records, hrun, hpost a new ha⟩
  · exact .inr (.inl ⟨count, Nat.lt_of_lt_of_le hcount hlimit, records, old, words,
      Nat.le_trans hwords (roundedUp_wordsFor_mono hroom), hrest⟩)
  · exact .inr (.inr ⟨failure, count, records, hfails failure hfailure, hrun⟩)

theorem Attempts.imp {action : ActionOn σ α} {place : σ} {limit room : Nat} {fails : Failure → Prop}
    {post post' : α → σ → Prop} (h : action.Attempts place limit room fails post)
    (hpost : ∀ a new, post a new → post' a new) : action.Attempts place limit room fails post' :=
  h.mono (Nat.le_refl limit) (Nat.le_refl room) (fun _ h => h) hpost

theorem Attempts.within {action : ActionOn σ α} {place : σ} {limit room room' : Nat}
    {fails : Failure → Prop} {post : α → σ → Prop} (h : action.Attempts place limit room fails post)
    (hroom : room ≤ room') : action.Attempts place limit room' fails post :=
  h.mono (Nat.le_refl limit) hroom (fun _ h => h) fun _ _ h => h

/-! ### Single steps -/

variable {next : α → ActionOn σ β} {place : σ} {memory : Memory}

theorem settles_current {post : β → σ → Prop} {next : σ → ActionOn σ β}
    (h : (next place).Settles place post) : (current >>= next).Settles place post := h

theorem settles_checked {checked : Checked α} {a : α} {post : β → σ → Prop}
    (heq : checked = .ok a) (h : (next a).Settles place post) :
    ((liftM checked : ActionOn σ α) >>= next).Settles place post := by
  subst heq
  exact h

theorem attempts_current {limit room : Nat} {fails : Failure → Prop} {post : β → σ → Prop}
    {next : σ → ActionOn σ β} (h : (next place).Attempts place limit room fails post) :
    (current >>= next).Attempts place limit room fails post := h

theorem attempts_checked {checked : Checked α} {a : α} {limit room : Nat} {fails : Failure → Prop}
    {post : β → σ → Prop} (heq : checked = .ok a)
    (h : (next a).Attempts place limit room fails post) :
    ((liftM checked : ActionOn σ α) >>= next).Attempts place limit room fails post := by
  subst heq
  exact h

theorem attempts_throw {failure : Failure} {limit room : Nat} {fails : Failure → Prop}
    {post : α → σ → Prop} (h : fails failure) :
    (throw failure : ActionOn σ α).Attempts place limit room fails post :=
  fun memory => .inr (.inr ⟨failure, 0, [], h, by rw [exec_throw, Memory.after_zero]⟩)

/-- A count that the machine does not hold ends the computation. -/
theorem attempts_unsigned64 {n : Nat} {limit room : Nat} {fails : Failure → Prop}
    {post : β → σ → Prop} {next : Nat → ActionOn σ β}
    (h : n < UInt64.size → (next n).Attempts place limit room fails post)
    (hfails : UInt64.size ≤ n → fails (.fault .overflow)) :
    ((liftM (unsigned64 n) : ActionOn σ Nat) >>= next).Attempts place limit room fails post := by
  by_cases hlt : n < UInt64.size
  · exact attempts_checked (if_pos hlt) (h hlt)
  · rw [show unsigned64 n = .error .overflow from if_neg hlt]
    exact attempts_throw (hfails (Nat.le_of_not_lt hlt))

/-! ### Sequences -/

/-- A run that touches no memory settles. -/
theorem settles_of_exec {action : ActionOn σ α} {place new : σ} {a : α} {post : α → σ → Prop}
    (h : post a new) (hrun : ∀ memory, action.exec place memory = (.ok a, new, memory)) :
    action.Settles place post :=
  ⟨a, new, [], h, fun memory => by rw [hrun, Memory.after_zero]⟩

theorem settles_pure {a : α} {place : σ} {post : α → σ → Prop} (h : post a place) :
    (pure a : ActionOn σ α).Settles place post :=
  settles_of_exec h (exec_pure a place)

theorem settles_replace {new place : σ} {post : Unit → σ → Prop} (h : post () new) :
    (replace new).Settles place post :=
  settles_of_exec h (exec_replace new place)

theorem Settles.mono {action : ActionOn σ α} {place : σ} {post post' : α → σ → Prop}
    (h : action.Settles place post) (hpost : ∀ a new, post a new → post' a new) :
    action.Settles place post' := by
  obtain ⟨a, new, records, ha, hrun⟩ := h
  exact ⟨a, new, records, hpost a new ha, hrun⟩

theorem Settles.bind {action : ActionOn σ α} {next : α → ActionOn σ β} {place : σ}
    {mid : α → σ → Prop} {post : β → σ → Prop} (h : action.Settles place mid)
    (hnext : ∀ a new, mid a new → (next a).Settles new post) :
    (action >>= next).Settles place post := by
  obtain ⟨a, new, records, ha, hrun⟩ := h
  obtain ⟨b, new', records', hb, hrun'⟩ := hnext a new ha
  refine ⟨b, new', records ++ records', hb, fun memory => ?_⟩
  simp only [exec_bind, hrun, hrun', Memory.after_after]

/-- What follows an attempt and settles does not touch the place unless the attempt ends well. -/
theorem Attempts.bind_settles {action : ActionOn σ α} {next : α → ActionOn σ β} {place : σ}
    {limit room : Nat} {fails : Failure → Prop} {mid : α → σ → Prop} {post : β → σ → Prop}
    (h : action.Attempts place limit room fails mid)
    (hnext : ∀ a new, mid a new → (next a).Settles new post) :
    (action >>= next).Attempts place limit room fails post := by
  intro memory
  obtain ⟨a, new, count, hcount, records, hrun, ha⟩ |
    ⟨count, hcount, records, old, words, hwords, hrefuses, hrun⟩ |
    ⟨failure, count, records, hfailure, hrun⟩ := h memory
  · obtain ⟨b, new', records', hb, hrun'⟩ := hnext a new ha
    refine .inl ⟨b, new', count, hcount, records ++ records', ?_, hb⟩
    simp only [exec_bind, hrun, hrun', Memory.after_after, Nat.add_zero]
  · refine .inr (.inl ⟨count, hcount, records, old, words, hwords, hrefuses, ?_⟩)
    simp only [exec_bind, hrun]
  · exact .inr (.inr ⟨failure, count, records, hfailure, by simp only [exec_bind, hrun]⟩)

/-- An attempt that leaves the place alone may come before another one. -/
theorem Attempts.bind {action : ActionOn σ α} {next : α → ActionOn σ β} {place : σ}
    {limit limit' room : Nat} {fails : Failure → Prop} {mid : α → Prop} {post : β → σ → Prop}
    (h : action.Attempts place limit room fails fun a new => new = place ∧ mid a)
    (hnext : ∀ a, mid a → (next a).Attempts place limit' room fails post) :
    (action >>= next).Attempts place (limit + limit') room fails post := by
  intro memory
  obtain ⟨a, new, count, hcount, records, hrun, hnew, ha⟩ |
    ⟨count, hcount, records, old, words, hwords, hrefuses, hrun⟩ |
    ⟨failure, count, records, hfailure, hrun⟩ := h memory
  · simp only [exec_bind, hrun, hnew]
    obtain ⟨b, new', count', hcount', records', hrun', hb⟩ |
      ⟨count', hcount', records', old, words, hwords, hrefuses, hrun'⟩ |
      ⟨failure, count', records', hfailure, hrun'⟩ := hnext a ha (memory.after count records)
    · refine .inl ⟨b, new', count + count', Nat.add_le_add hcount hcount', records ++ records',
        ?_, hb⟩
      rw [hrun', Memory.after_after]
    · refine .inr (.inl ⟨count + count', Nat.add_lt_add_of_le_of_lt hcount hcount',
        records ++ records', old, words, hwords, Memory.refuses_after.1 hrefuses, ?_⟩)
      rw [hrun', Memory.after_after, Nat.add_assoc, List.append_assoc]
    · refine .inr (.inr ⟨failure, count + count', records ++ records', hfailure, ?_⟩)
      rw [hrun', Memory.after_after]
  · simp only [exec_bind, hrun]
    exact .inr (.inl ⟨count, Nat.lt_add_right _ hcount, records, old, words, hwords, hrefuses, rfl⟩)
  · simp only [exec_bind, hrun]
    exact .inr (.inr ⟨failure, count, records, hfailure, rfl⟩)

theorem attempts_action {action : Action α} {place : σ} {limit room : Nat} {fails : Failure → Prop}
    {post : α → Prop} (h : action.Attempts limit room fails post) :
    (liftM action : ActionOn σ α).Attempts place limit room fails
      fun a new => new = place ∧ post a := by
  intro memory
  obtain ⟨a, count, hcount, records, hrun, ha⟩ |
    ⟨count, hcount, records, old, words, hwords, hrefuses, hrun⟩ |
    ⟨failure, count, records, hfailure, hrun⟩ := h memory
  · exact .inl ⟨a, place, count, hcount, records, by simp [hrun], rfl, ha⟩
  · exact .inr (.inl ⟨count, hcount, records, old, words, hwords, hrefuses, by simp [hrun]⟩)
  · exact .inr (.inr ⟨failure, count, records, hfailure, by simp [hrun]⟩)

/-- A place that is given up on failure is handed from one part of a sequence to the next. -/
theorem applyTo_bind (action : ActionOn σ Unit) (next : Unit → ActionOn σ Unit) (place : σ) :
    (action >>= next).applyTo place =
      action.applyTo place >>= fun new => (next ()).applyTo new := by
  funext memory
  show ((action >>= next).applyTo place).exec memory = (action.applyTo place >>= _ : Action σ).exec memory
  rw [exec_applyTo, exec_bind, Action.exec_bind, exec_applyTo]
  rcases action.exec place memory with ⟨_ | _, new, left⟩ <;> rfl

theorem Settles.applyTo {action : ActionOn σ Unit} {place : σ} {post : σ → Prop}
    (h : action.Settles place fun _ new => post new) : (action.applyTo place).Settles post := by
  obtain ⟨a, new, records, ha, hrun⟩ := h
  exact ⟨new, records, ha, fun memory => by simp [hrun, Except.map]⟩

theorem Attempts.applyTo {action : ActionOn σ Unit} {place : σ} {limit room : Nat}
    {fails : Failure → Prop} {post : σ → Prop}
    (h : action.Attempts place limit room fails fun _ new => post new) :
    (action.applyTo place).Attempts limit room fails post := by
  intro memory
  obtain ⟨a, new, count, hcount, records, hrun, ha⟩ |
    ⟨count, hcount, records, old, words, hwords, hrefuses, hrun⟩ |
    ⟨failure, count, records, hfailure, hrun⟩ := h memory
  · exact .inl ⟨new, count, hcount, records, by simp [hrun, Except.map], ha⟩
  · exact .inr (.inl ⟨count, hcount, records, old, words, hwords, hrefuses,
      by simp [hrun, Except.map]⟩)
  · exact .inr (.inr ⟨failure, count, records, hfailure, by simp [hrun, Except.map]⟩)

end ActionOn

end Multiword
