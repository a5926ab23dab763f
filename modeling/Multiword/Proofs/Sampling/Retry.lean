import Multiword.Proofs.Integer.Invariant
import Multiword.Proofs.Run.Conclusion
import Multiword.Sampling.Source

/-!
# Drawing until an attempt accepts

An attempt takes a block of bytes and accepts it, as some integer, or rejects it. Where nothing but the
block decides, a draw that tries again takes the value of the first block that is accepted, and the
bytes behind that block stay where they are. Every attempt takes a byte at least, so such a draw ends on
every source: with a value, or where the source has no whole block left.
-/

set_option autoImplicit false

namespace Multiword

/-! ## Blocks of a source -/

namespace Source

/-- The source after `count` bytes. -/
def skip (source : Source) (count : Nat) : Source :=
  { bytes := source.bytes.drop count, used := source.used + count }

/-- The block of number `i`, in blocks of `size` bytes. -/
def block (source : Source) (size i : Nat) : List UInt8 :=
  (source.bytes.drop (size * i)).take size

@[simp] theorem skip_skip (source : Source) (m n : Nat) :
    (source.skip m).skip n = source.skip (m + n) := by
  simp [skip, Nat.add_assoc]

@[simp] theorem length_skip (source : Source) (count : Nat) :
    (source.skip count).bytes.length = source.bytes.length - count := by
  simp [skip]

/-- Behind one block the next one is the first. -/
theorem block_skip (source : Source) (size i : Nat) :
    (source.skip size).block size i = source.block size (i + 1) := by
  simp [block, skip, Nat.mul_succ, Nat.add_comm]

end Source

namespace Draw

open ActionOn (concludes_pure concludes_current)

/-! ## Taking bytes -/

section

variable {source : Source} {count : Nat}

/-- Where too few bytes are left, none of them is taken. -/
theorem concludes_take_of_lt (h : source.bytes.length < count) {room : Nat}
    {refused : Failure → Prop} : (take count).Concludes source room refused fun result new =>
      result = .error .exhausted ∧ new = source := by
  intro memory
  have hrun : (take count).exec source memory = (.error .exhausted, source, memory) := by
    simp [take, ActionOn.exec_bind, h]
  rw [hrun]
  exact .inl ⟨⟨rfl, rfl⟩, memory.leadsTo_self⟩

theorem concludes_take {α : Type} (h : count ≤ source.bytes.length)
    {next : List UInt8 → Draw α} {room : Nat} {refused : Failure → Prop}
    {post : Outcome α → Source → Prop}
    (hnext : (next (source.bytes.take count)).Concludes (source.skip count) room refused post) :
    (take count >>= next).Concludes source room refused post := by
  intro memory
  have hrun : (take count).exec source memory =
      (.ok (source.bytes.take count), source.skip count, memory) := by
    unfold take
    simp only [ActionOn.exec_bind, ActionOn.exec_current, if_neg (Nat.not_lt.2 h)]
    rfl
  simp only [ActionOn.exec_bind, hrun]
  exact hnext memory

end

/-! ## One attempt -/

/-- The attempt takes a block of `size` bytes, and accepts it as the value of `verdict` if that is one.
Of a source without a whole block it takes `rest` of the length that is left. It asks for room of at
most `room` bits. -/
structure Judges (attempt : Draw (Option Integer)) (room size : Nat)
    (verdict : List UInt8 → Option Int) (rest : Nat → Nat) : Prop where
  pos : 0 < size
  whole : ∀ {source : Source}, size ≤ source.bytes.length →
    attempt.Concludes source room (· = .noRoomToDraw) fun result new =>
      new = source.skip size ∧ Within (fun _ => False)
        (Option.Rel (fun value x => x.Denotes 0 value) (verdict (source.bytes.take size))) result
  short : ∀ {source : Source}, source.bytes.length < size →
    attempt.Concludes source room (· = .noRoomToDraw) fun result new =>
      result = .error .exhausted ∧ new = source.skip (rest source.bytes.length)

/-- How a draw ends that takes the first block with a value, and what it leaves of its source. -/
inductive FirstAccepted (size : Nat) (verdict : List UInt8 → Option Int) (rest : Nat → Nat)
    (source : Source) : Outcome Integer → Source → Prop
  | accepted {i : Nat} {value : Int} {x : Integer} (whole : size * (i + 1) ≤ source.bytes.length)
      (accepts : verdict (source.block size i) = some value)
      (first : ∀ j < i, verdict (source.block size j) = none) (denotes : x.Denotes 0 value) :
      FirstAccepted size verdict rest source (.ok x) (source.skip (size * (i + 1)))
  | exhausted
      (rejects : ∀ i, size * (i + 1) ≤ source.bytes.length → verdict (source.block size i) = none) :
      FirstAccepted size verdict rest source (.error .exhausted) (source.skip
        (size * (source.bytes.length / size) + rest (source.bytes.length % size)))

variable {room size : Nat} {verdict : List UInt8 → Option Int} {rest : Nat → Nat} {source : Source}

/-- Where the first block is rejected, what follows is as if it were not there. -/
theorem FirstAccepted.next {result : Outcome Integer} {new : Source} (hpos : 0 < size)
    (henough : size ≤ source.bytes.length) (hrejected : verdict (source.bytes.take size) = none)
    (h : FirstAccepted size verdict rest (source.skip size) result new) :
    FirstAccepted size verdict rest source result new := by
  have hfirst : verdict (source.block size 0) = none := hrejected
  cases h with
  | @accepted i value x hwhole haccepts hbefore hx =>
    rw [Source.length_skip] at hwhole
    rw [Source.skip_skip, Nat.add_comm, ← Nat.mul_add_one]
    rw [Source.block_skip] at haccepts
    refine .accepted ?_ haccepts (fun j hj => ?_) hx
    · rw [Nat.mul_succ]
      omega
    · cases j with
      | zero => exact hfirst
      | succ j => exact source.block_skip size j ▸ hbefore j (Nat.lt_of_succ_lt_succ hj)
  | exhausted hrejects =>
    have hcount : source.bytes.length / size = (source.bytes.length - size) / size + 1 :=
      Nat.div_eq_sub_div hpos henough
    have hleft : source.bytes.length % size = (source.bytes.length - size) % size :=
      Nat.mod_eq_sub_mod henough
    have hplace : size + (size * ((source.bytes.length - size) / size) +
        rest ((source.bytes.length - size) % size)) =
        size * (source.bytes.length / size) + rest (source.bytes.length % size) := by
      rw [hcount, hleft, Nat.mul_succ]
      omega
    rw [Source.skip_skip, Source.length_skip, hplace]
    refine .exhausted fun i hi => ?_
    cases i with
    | zero => exact hfirst
    | succ i =>
      rw [← Source.block_skip]
      refine hrejects i ?_
      rw [Source.length_skip]
      rw [Nat.mul_succ] at hi
      omega

/-! ## Attempts in a row -/

/-- There are as many attempts as blocks, because each of them takes one. -/
theorem Judges.concludes_retry {attempt : Draw (Option Integer)}
    (h : attempt.Judges room size verdict rest) {limit : Nat}
    (hlimit : source.bytes.length < limit) :
    (retry attempt limit).Concludes source room (· = .noRoomToDraw)
      (FirstAccepted size verdict rest source) := by
  have hpos := h.pos
  induction limit generalizing source with
  | zero => omega
  | succ limit ih =>
    by_cases hshort : source.bytes.length < size
    · refine (h.short hshort).bind_error.mono le_rfl (fun _ h => h) ?_
      rintro _ _ ⟨rfl, rfl⟩
      have hend : FirstAccepted size verdict rest source (.error .exhausted) (source.skip
          (size * (source.bytes.length / size) + rest (source.bytes.length % size))) := by
        refine .exhausted fun i hi => ?_
        rw [Nat.mul_succ] at hi
        omega
      rwa [Nat.div_eq_of_lt hshort, Nat.mod_eq_of_lt hshort, Nat.mul_zero, zero_add] at hend
    · have henough := Nat.le_of_not_lt hshort
      refine (h.whole henough).bind ?_ fun _ _ hresult => hresult.2.elim
      rintro found new ⟨rfl, hfound⟩
      have hfound : Option.Rel (fun value x => Integer.Denotes x 0 value)
          (verdict (source.bytes.take size)) found := hfound
      generalize hverdict : verdict (source.bytes.take size) = judged at hfound
      cases hfound with
      | none =>
        have hless : (source.skip size).bytes.length < limit := by
          rw [Source.length_skip]
          omega
        exact (ih hless).mono le_rfl (fun _ h => h) fun _ _ hend => hend.next hpos henough hverdict
      | @some value x hx =>
        have hend : FirstAccepted size verdict rest source (.ok x)
            (source.skip (size * (0 + 1))) :=
          .accepted (by simpa using henough) hverdict (by simp) hx
        rw [zero_add, Nat.mul_one] at hend
        exact concludes_pure hend

theorem Judges.concludes_untilAccepted {attempt : Draw (Option Integer)}
    (h : attempt.Judges room size verdict rest) :
    (untilAccepted attempt).Concludes source room (· = .noRoomToDraw)
      (FirstAccepted size verdict rest source) :=
  concludes_current (h.concludes_retry (Nat.lt_succ_self _))

end Draw

end Multiword
