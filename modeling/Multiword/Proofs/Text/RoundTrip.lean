import Multiword.Proofs.Text.Print
import Multiword.Proofs.Text.Reading

/-!
# Writing and reading are inverse

What is written without padding characters and with the marker that its digits need is a text of the
grammar, and it reads as the integer again. A text that is read is written again without the zeros
that do not count; the sign of zero goes, and letters lose their case.
-/

set_option autoImplicit false

namespace Multiword

/-- The radix of the digits. -/
def Digits.radix : Digits → Nat
  | .decimal => 10
  | .lowerHex | .upperHex => 16

/-- No `+` is written, only zeros fill up the field, and digits that are not decimal are marked. -/
structure Layout.Readable (layout : Layout) (digits : Digits) : Prop where
  plus : layout.plus = false
  field : layout.zeros = true ∨ layout.width = 0
  marked : digits = .decimal ∨ layout.marked = true

/-- The digits of a number stand for it. -/
theorem Digits.numeral_numeral (digits : Digits) (n : Nat) :
    Numeral digits.radix (digits.numeral n) n := by
  cases digits with
  | decimal => exact numeral_toDigits (by decide) (by decide) n
  | lowerHex => exact numeral_toDigits (by decide) le_rfl n
  | upperHex => exact (numeral_toDigits (by decide) le_rfl n).toUpper le_rfl

theorem Digits.numeral_ne_nil (digits : Digits) (n : Nat) : digits.numeral n ≠ [] := by
  cases digits <;> simp [numeral, Nat.toDigits_ne_nil]

/-- The field of a readable layout holds sign, marker, zeros and digits, in this order. -/
theorem Layout.Readable.exists_place {layout : Layout} {digits : Digits}
    (h : layout.Readable digits) (negative : Bool) (written : List Char) :
    ∃ count, layout.place negative digits.marker written =
      (if negative then ['-'] else []) ++
        (digits.marker ++ (List.replicate count '0' ++ written)) := by
  have hmarker : (if layout.marked then digits.marker else []) = digits.marker := by
    rcases h.marked with rfl | hmarked
    · simp [Digits.marker]
    · rw [if_pos hmarked]
  have hsign : layout.sign negative = if negative then ['-'] else [] := by
    simp [Layout.sign, h.plus]
  unfold Layout.place
  rw [hmarker, hsign]
  rcases h.field with hzeros | hwidth
  · exact ⟨_, by simp [hzeros]; rfl⟩
  · refine ⟨0, ?_⟩
    rw [hwidth]
    cases layout.zeros <;> cases layout.alignment.getD .right <;> simp

/-! ## What is written reads back -/

section

variable {written : List Char} {n : Nat}

/-- A text with a character that is no digit does not stand in front of decimal digits. -/
theorem Numeral.not_startsWith {start : List Char} {c : Char} (h : Numeral 10 written n)
    (hc : c ∈ start) (hnot : c.isDigit = false) : ¬start <+: written := by
  intro hstart
  obtain ⟨value, hdigit⟩ := h.exists_digitOf (hstart.subset hc)
  rw [hdigit.isDigit] at hnot
  cases hnot

theorem Digits.announces (digits : Digits) (h : Numeral digits.radix written n) :
    Announces (digits.marker ++ written) digits.radix written := by
  cases digits with
  | decimal =>
    exact .decimal (h.not_startsWith (c := 'x') (by simp) rfl)
      (h.not_startsWith (c := 'X') (by simp) rfl)
  | lowerHex => exact .lower written
  | upperHex => exact .lower written

theorem Digits.not_signed (digits : Digits) (h : Numeral digits.radix written n) :
    ¬['-'] <+: digits.marker ++ written := by
  cases digits with
  | decimal => exact h.not_startsWith List.mem_cons_self rfl
  | lowerHex => simp [marker]
  | upperHex => simp [marker]

/-- What is written in a readable layout is a text of the grammar. -/
theorem Layout.Readable.exists_parts {layout : Layout} {digits : Digits}
    (h : layout.Readable digits) (negative : Bool) (hne : written ≠ [])
    (hwritten : Numeral digits.radix written n) :
    ∃ padded, Parts (layout.place negative digits.marker written) negative digits.radix padded ∧
      padded ≠ [] ∧ Numeral digits.radix padded n := by
  obtain ⟨count, hplace⟩ := h.exists_place negative written
  have hpos : 0 < digits.radix := by cases digits <;> decide
  have hpadded := hwritten.replicate_append hpos count
  refine ⟨_, ?_, List.append_ne_nil_of_right_ne_nil _ hne, hpadded⟩
  rw [hplace]
  cases negative with
  | true => exact .negative (digits.announces hpadded)
  | false => exact .unsigned (digits.not_signed hpadded) (digits.announces hpadded)

end

namespace Integer

theorem attempts_ofText_place {x : Integer} (hx : x.WellFormed) {layout : Layout} {digits : Digits}
    (h : layout.Readable digits) {text : List Char}
    (htext : text = layout.place x.negative digits.marker (digits.numeral x.magnitude)) :
    (ofText text).Attempts text.length (4 * text.length + 1) (fun _ => False) fun y =>
      y.Sound ∧ y.toInt = x.toInt := by
  obtain ⟨padded, hparts, hne, hpadded⟩ :=
    h.exists_parts x.negative (digits.numeral_ne_nil _) (digits.numeral_numeral x.magnitude)
  rw [← htext] at hparts
  have hlength := hparts.length_le
  refine (attempts_ofText_numeral hparts hne hpadded).mono hlength (by omega) (fun _ h => h) ?_
  rintro y ⟨hsound, hmagnitude, hnegative⟩
  refine ⟨hsound, ?_⟩
  have hsign : (x.negative && decide (x.magnitude ≠ 0)) = x.negative := by
    by_cases hzero : x.magnitude = 0
    · simp [hx.sign_of_magnitude hzero]
    · simp [hzero]
  exact toInt_congr (hnegative.trans hsign) hmagnitude

/-! ## What is read writes back -/

/-- The sign that is written for an integer that was read with this one: zero has none. -/
def keptSign (negative : Bool) (x : Integer) : List Char :=
  if negative = true ∧ x.magnitude ≠ 0 then ['-'] else []

section

variable {x : Integer} {negative : Bool} {digits : List Char}

theorem ReadFrom.sign_eq {radix : Nat} (h : x.ReadFrom negative radix digits) (layout : Layout)
    (hplus : layout.plus = false) : layout.sign x.negative = keptSign negative x := by
  simp [Layout.sign, keptSign, hplus, h.negative_eq]

theorem ReadFrom.toText_decimal (h : x.ReadFrom negative 10 digits) :
    x.toText .bare .decimal = .ok (keptSign negative x ++ significantDigits digits) := by
  rw [h.sound.wellFormed.toText_eq, Digits.numeral, h.numeral.toDigits_ten, ← h.sign_eq .bare rfl]
  simp [Layout.place, Layout.bare]

theorem ReadFrom.toText_hex (h : x.ReadFrom negative 16 digits) :
    x.toText { Layout.bare with marked := true } .lowerHex =
      .ok (keptSign negative x ++ ['0', 'x'] ++ (significantDigits digits).map Char.toLower) := by
  rw [h.sound.wellFormed.toText_eq, Digits.numeral, h.numeral.toDigits_eq (by decide) le_rfl,
    ← h.sign_eq { Layout.bare with marked := true } rfl]
  simp [Layout.place, Layout.bare, Digits.marker]

end

/-- An integer that is written in a readable layout, of any width, reads as itself again; and a text
that is read is written again, bare or with the marker of its radix, but for the zeros in front that
do not count, the sign of zero, and the case of letters. -/
theorem writing_and_reading_inverse :
    (∀ x : Integer, x.WellFormed → ∀ (layout : Layout) (digits : Digits), layout.Readable digits →
      ∃ text, x.toText layout digits = .ok text ∧
        (ofText text).Attempts text.length (4 * text.length + 1) (fun _ => False) fun y =>
          y.Sound ∧ y.toInt = x.toInt) ∧
    (∀ (text : List Char) (negative : Bool) (digits : List Char), Parts text negative 10 digits →
      (ofText text).Makes fun y =>
        y.toText .bare .decimal = .ok (keptSign negative y ++ significantDigits digits)) ∧
    ∀ (text : List Char) (negative : Bool) (digits : List Char), Parts text negative 16 digits →
      (ofText text).Makes fun y => y.toText { Layout.bare with marked := true } .lowerHex =
        .ok (keptSign negative y ++ ['0', 'x'] ++ (significantDigits digits).map Char.toLower) := by
  refine ⟨?_, ?_, ?_⟩
  · intro x hx layout digits hlayout
    exact ⟨_, hx.toText_eq layout digits, attempts_ofText_place hx hlayout rfl⟩
  · intro text negative digits hparts
    exact (attempts_ofText hparts).makes.mono fun y hy => hy.toText_decimal
  · intro text negative digits hparts
    exact (attempts_ofText hparts).makes.mono fun y hy => hy.toText_hex

theorem minus_thirty_one_written_and_read :
    ∃ (x y : Integer) (layout : Layout) (text : List Char), x.WellFormed ∧ x.toInt = -31 ∧
      layout.Readable .upperHex ∧ layout.width = 8 ∧ x.toText layout .upperHex = .ok text ∧
      (ofText text).Attempts text.length (4 * text.length + 1) (fun _ => False)
        (fun z => z.Sound ∧ z.toInt = -31) ∧
      Parts ['-', '0', 'X', '0', '1', 'F'] true 16 ['0', '1', 'F'] ∧
      (ofText ['-', '0', 'X', '0', '1', 'F']).granted = .ok y ∧
      y.toText { Layout.bare with marked := true } .lowerHex = .ok ['-', '0', 'x', '1', 'f'] := by
  have hx : WellFormed ⟨[31, 0, 0, 0], 5, true⟩ :=
    wellFormed_of_bits (by decide) (by decide) (by decide) (by decide) (by decide)
  have hlayout : Layout.Readable { Layout.bare with marked := true, zeros := true, width := 8 }
      .upperHex := ⟨rfl, .inl rfl, .inr rfl⟩
  have hparts : Parts ['-', '0', 'X', '0', '1', 'F'] true 16 ['0', '1', 'F'] :=
    .negative (.upper _)
  obtain ⟨hwritten, -, hread⟩ := writing_and_reading_inverse
  obtain ⟨text, htext, hattempts⟩ := hwritten _ hx _ _ hlayout
  exact ⟨_, _, _, text, hx, rfl, hlayout, rfl, htext, hattempts, hparts, rfl,
    (hread _ _ _ hparts).granted rfl⟩

end Integer

end Multiword
