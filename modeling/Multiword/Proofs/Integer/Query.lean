import Multiword.Proofs.Integer.Bits
import Multiword.Proofs.Integer.Bytes
import Multiword.Proofs.Integer.Native
import Multiword.Proofs.Run.Ending
import Multiword.Proofs.Text.Print
import Multiword.Session.Answer

/-!
# Questions have answers

What is read off a well-formed integer is there: every word that is asked for lies inside the buffer.
-/

set_option autoImplicit false

namespace Multiword

namespace Checked

variable {α β : Type}

/-- A list of checks gives a list of results if each of them does. -/
theorem exists_mapM {xs : List α} {f : α → Checked β} (h : ∀ x ∈ xs, ∃ y, f x = .ok y) :
    ∃ ys, xs.mapM f = .ok ys ∧ ys.length = xs.length := by
  induction xs with
  | nil => exact ⟨[], rfl, rfl⟩
  | cons x xs ih =>
    obtain ⟨y, hy⟩ := h x List.mem_cons_self
    obtain ⟨ys, hys, hlength⟩ := ih fun z hz => h z (List.mem_cons_of_mem x hz)
    exact ⟨y :: ys, by simp [List.mapM_cons, hy, hys], by simp [hlength]⟩

end Checked

namespace Integer

namespace WellFormed

variable {x y : Integer} (hx : x.WellFormed)

include hx

/-! ## Bits -/

theorem exists_isEven : ∃ even, x.isEven = .ok even :=
  ⟨_, by rw [isEven, hx.isOdd_eq]; rfl⟩

theorem exists_lowestBit? : ∃ lowest, x.lowestBit? = .ok lowest := by
  obtain ⟨hnone, -⟩ | ⟨i, hsome, -⟩ := hx.lowestBit?_cases
  · exact ⟨none, hnone⟩
  · exact ⟨some i, hsome⟩

/-! ## Native integers -/

theorem exists_compareWidened (type : NativeType) (n : Int) :
    ∃ order, x.compareWidened type n = .ok order := by
  cases type with
  | signed width => exact ⟨_, hx.compareSigned_eq _⟩
  | unsigned width => exact ⟨_, hx.compareUnsigned_eq _⟩

theorem exists_equalWidened (type : NativeType) (n : Int) :
    ∃ equal, x.equalWidened type n = .ok equal := by
  obtain ⟨order, horder⟩ := hx.exists_compareWidened type n
  exact ⟨order == .eq, by rw [equalWidened, horder]; rfl⟩

theorem exists_toNative? (type : NativeType) : ∃ value, x.toNative? type = .ok value := by
  cases type with
  | signed width => exact ⟨_, by rw [toNative?, hx.toSigned?_eq]; rfl⟩
  | unsigned width => exact ⟨_, by rw [toNative?, hx.toUnsigned?_eq]; rfl⟩

theorem exists_compareNative (type : NativeType) (n : Int) :
    ∃ comparison, x.compareNative type n = .ok comparison := by
  obtain ⟨order, horder⟩ := hx.exists_compareWidened type n
  obtain ⟨equal, hequal⟩ := hx.exists_equalWidened type n
  unfold compareNative equalSigned
  dsimp only
  rw [horder, hequal, hx.compareSigned_eq, hx.compareUnsigned_eq]
  cases (NativeType.signed 64).holds n <;> cases (NativeType.unsigned 64).holds n <;>
    exact ⟨_, rfl⟩

/-! ## Bytes -/

/-- An output that is too short is reported. -/
theorem ends_writeBytes (output : List UInt8) :
    x.writeBytes.Ends output
      (Failure.Reports fun e => output.length < x.byteSize ∧
        e = .bufferTooSmall x.byteSize output.length) fun _ _ => True := by
  intro memory
  rw [hx.exec_writeBytes]
  split
  · next hshort => exact ⟨hshort, rfl⟩
  · exact trivial

/-! ## All of them -/

theorem exists_properties : ∃ properties, x.properties = .ok properties := by
  obtain ⟨one, hone⟩ := hx.exists_equalWidened (.signed 32) 1
  obtain ⟨even, heven⟩ := hx.exists_isEven
  obtain ⟨lowest, hlowest⟩ := hx.exists_lowestBit?
  obtain ⟨decimal, hdecimal⟩ := hx.exists_toText .bare .decimal
  exact ⟨_, by
    rw [properties, hone, hx.isOdd_eq, heven, hlowest, hx.words_eq, hdecimal, hx.toBytes_eq]
    rfl⟩

end WellFormed

end Integer

end Multiword
