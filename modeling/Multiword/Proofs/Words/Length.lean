import Multiword.Proofs.Words.Carry
import Multiword.Proofs.Words.Product
import Multiword.Proofs.Words.Shift

/-!
# Words keep their number

Whatever is done to the words of a buffer in place gives as many words as there were, if it gives any.
So a buffer becomes longer only by a growth that memory has granted.
-/

set_option autoImplicit false

namespace Multiword

namespace Checked

variable {α β : Type}

/-- A sequence of checks gives a result if each of them does. -/
theorem bind_eq_ok {checked : Checked α} {next : α → Checked β} {b : β} :
    (checked >>= next) = .ok b ↔ ∃ a, checked = .ok a ∧ next a = .ok b := by
  cases checked <;> simp

end Checked

/-- A promise that was checked holds. -/
theorem of_require {α : Type} {p : Prop} [Decidable p] {fault : Fault} {next : Unit → Checked α}
    {a : α} (h : (require p fault >>= next) = .ok a) : p := by
  by_contra hnot
  rw [require_of_not fault hnot] at h
  cases h

namespace Words

variable {ws result : List Word}

/-! ## Positions and ranges -/

theorem length_low {n : Nat} (h : low ws n = .ok result) : result.length = n ∧ n ≤ ws.length := by
  unfold low at h
  split at h
  · next hle =>
    cases h
    exact ⟨List.length_take_of_le hle, hle⟩
  · cases h

theorem length_write {i : Nat} {w : Word} (h : write ws i w = .ok result) :
    result.length = ws.length := by
  unfold write at h
  split at h
  · cases h
    exact List.length_set
  · cases h

theorem length_overwrite {new : List Word} (h : overwrite ws new = .ok result) :
    result.length = ws.length := by
  unfold overwrite at h
  split at h
  · cases h
    rw [List.length_append, List.length_drop]
    omega
  · cases h

theorem length_clear {start stop : Nat} (h : clear ws start stop = .ok result) :
    result.length = ws.length := by
  unfold clear at h
  split at h
  · cases h
    simp only [List.length_append, List.length_take, List.length_replicate, List.length_drop]
    omega
  · cases h

theorem length_onLow {α : Type} {n : Nat} {f : List Word → Checked (List Word × α)} {a : α}
    (hf : ∀ front new, f front = .ok new → new.1.length = front.length)
    (h : onLow ws n f = .ok (result, a)) : result.length = ws.length := by
  obtain ⟨front, hlow, h⟩ := Checked.bind_eq_ok.1 h
  obtain ⟨new, hnew, h⟩ := Checked.bind_eq_ok.1 h
  obtain ⟨hlength, hle⟩ := length_low hlow
  cases h
  rw [List.length_append, hf front new hnew, hlength, List.length_drop]
  omega

/-! ## Arithmetic -/

theorem length_addInto {a b : List Word} {new : List Word × Word} (h : addInto a b = .ok new) :
    new.1.length = a.length := by
  obtain ⟨sum, carry, hsum, hlength, -⟩ := addInto_eq (of_require h)
  cases h.symm.trans hsum
  exact hlength

theorem length_subInto {a b : List Word} {new : List Word × Word} (h : subInto a b = .ok new) :
    new.1.length = a.length := by
  obtain ⟨difference, borrow, hdifference, hlength, -⟩ := subInto_eq (of_require h)
  cases h.symm.trans hdifference
  exact hlength

theorem length_subFrom {a b : List Word} {new : List Word × Word} (h : subFrom a b = .ok new) :
    new.1.length = b.length := by
  have hle : a.length ≤ b.length := of_require h
  have hzero : (b.drop a.length).all (· == 0) := by
    unfold subFrom at h
    rw [require_of _ hle, Checked.ok_bind] at h
    exact of_require h
  obtain ⟨difference, borrow, hdifference, hlength, -⟩ :=
    subFrom_eq hle fun w hw => by simpa using List.all_eq_true.1 hzero w hw
  cases h.symm.trans hdifference
  rw [List.length_append, hlength, List.length_drop]
  omega

theorem length_mulWord {a : List Word} {c : Word} {new : List Word × Word}
    (h : mulWord a c = .ok new) : new.1.length = a.length := by
  obtain ⟨product, carry, hproduct, hlength, -⟩ := mulWord_eq a c
  cases h.symm.trans hproduct
  exact hlength

theorem length_mulAddInto {sum b : List Word} {c : Word} {new : List Word × Word}
    (h : mulAddInto sum b c = .ok new) : new.1.length = sum.length := by
  obtain ⟨total, carry, htotal, hlength, -⟩ := mulAddInto_eq (of_require h) c
  cases h.symm.trans htotal
  exact hlength

/-- Each row leaves one word behind as final and goes on with the others. -/
theorem length_mulRows {a digits : List Word} (h : mulRows a digits ws = .ok result) :
    result.length = ws.length := by
  induction digits generalizing ws result with
  | nil =>
    cases h
    rfl
  | cons digit digits ih =>
    obtain ⟨⟨sum, carry⟩, hrow, h⟩ := Checked.bind_eq_ok.1 h
    obtain ⟨whole, hwhole, h⟩ := Checked.bind_eq_ok.1 h
    have hlength : whole.length = ws.length :=
      (length_write hwhole).trans (length_onLow (fun _ _ => length_mulAddInto) hrow)
    cases whole with
    | nil => cases h
    | cons lowest higher =>
      obtain ⟨rest, hrest, h⟩ := Checked.bind_eq_ok.1 h
      cases h
      rw [List.length_cons, ih hrest, ← hlength, List.length_cons]

/-! ## Shifts -/

theorem length_shiftLeft {len n : Nat} (h : shiftLeft ws len n = .ok result) :
    result.length = ws.length := by
  obtain ⟨stop, hstop, h⟩ := Checked.bind_eq_ok.1 h
  obtain rfl := position_eq_ok hstop
  have hle : len + n / 32 ≤ ws.length := of_require h
  obtain ⟨_, -, h⟩ := Checked.bind_eq_ok.1 h
  split at h
  · cases h
    exact length_moved hle
  · obtain ⟨top, htop, h⟩ := Checked.bind_eq_ok.1 h
    obtain rfl := position_eq_ok htop
    cases h
    simp only [List.length_append, List.length_replicate, List.length_take, List.length_drop,
      length_shiftUp]
    omega

end Words

end Multiword
