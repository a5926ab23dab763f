import Multiword.Proofs.Integer.Sound
import Multiword.Proofs.Text.Numeral
import Multiword.Proofs.Text.Parse

/-!
# What is read

A text is taken apart into a sign, the marker of a radix, and digits. The digits are read in groups,
and between two groups the magnitude is the number of all digits so far. The digits of a group stand
for a number below its scale, and the scale of a whole group fits a word, so nothing overflows: a text
can only be empty, hold something that is no digit, or be refused the room for its number.
-/

set_option autoImplicit false

namespace Multiword

/-! ## The parts of a text -/

/-- What a text without a sign announces: hexadecimal digits behind a marker, or decimal digits. -/
inductive Announces : List Char → Nat → List Char → Prop
  | lower (digits : List Char) : Announces ('0' :: 'x' :: digits) 16 digits
  | upper (digits : List Char) : Announces ('0' :: 'X' :: digits) 16 digits
  | decimal {digits : List Char} (hlower : ¬['0', 'x'] <+: digits) (hupper : ¬['0', 'X'] <+: digits) :
    Announces digits 10 digits

/-- Whether a text starts with `-`, its radix, and its digits. -/
inductive Parts : List Char → Bool → Nat → List Char → Prop
  | negative {rest digits : List Char} {radix : Nat} (h : Announces rest radix digits) :
    Parts ('-' :: rest) true radix digits
  | unsigned {text digits : List Char} {radix : Nat} (hsign : ¬['-'] <+: text)
    (h : Announces text radix digits) : Parts text false radix digits

theorem announces_iff {text digits : List Char} {radix : Nat} :
    Announces text radix digits ↔ splitRadix text = (radix, digits) := by
  constructor
  · rintro (_ | _ | ⟨hlower, hupper⟩)
    · rfl
    · rfl
    · unfold splitRadix
      split
      · exact absurd ⟨_, rfl⟩ hlower
      · exact absurd ⟨_, rfl⟩ hupper
      · rfl
  · intro h
    unfold splitRadix at h
    split at h
    · cases h
      exact .lower _
    · cases h
      exact .upper _
    · next hlower hupper =>
      cases h
      refine .decimal ?_ ?_
      · rintro ⟨digits, rfl⟩
        exact hlower digits rfl
      · rintro ⟨digits, rfl⟩
        exact hupper digits rfl

theorem splitSign_of_unsigned {text : List Char} (h : ¬['-'] <+: text) :
    splitSign text = (false, text) := by
  unfold splitSign
  split
  · exact absurd ⟨_, rfl⟩ h
  · rfl

/-- Every text has its parts, and no others. -/
theorem parts_iff {text digits : List Char} {negative : Bool} {radix : Nat} :
    Parts text negative radix digits ↔
      (splitSign text).1 = negative ∧ splitRadix (splitSign text).2 = (radix, digits) := by
  constructor
  · rintro (h | ⟨hsign, h⟩)
    · exact ⟨rfl, announces_iff.1 h⟩
    · rw [splitSign_of_unsigned hsign]
      exact ⟨rfl, announces_iff.1 h⟩
  · rintro ⟨rfl, h⟩
    by_cases hsign : ['-'] <+: text
    · obtain ⟨rest, rfl⟩ := hsign
      exact .negative (announces_iff.2 h)
    · rw [splitSign_of_unsigned hsign] at h ⊢
      exact .unsigned hsign (announces_iff.2 h)

theorem exists_parts (text : List Char) :
    ∃ negative radix digits, Parts text negative radix digits :=
  ⟨_, _, _, parts_iff.2 ⟨rfl, rfl⟩⟩

theorem Announces.radix_eq {text digits : List Char} {radix : Nat}
    (h : Announces text radix digits) : radix = 10 ∨ radix = 16 := by
  cases h <;> simp

theorem Parts.radix_eq {text digits : List Char} {negative : Bool} {radix : Nat}
    (h : Parts text negative radix digits) : radix = 10 ∨ radix = 16 := by
  rcases h with h | ⟨-, h⟩ <;> exact h.radix_eq

/-- One of the characters is no digit, and that is reported. -/
def NoDigit (radix : Nat) (digits : List Char) (failure : Failure) : Prop :=
  failure = .error .invalidDigit ∧ ∃ c ∈ digits, ∀ value, ¬DigitOf radix c value

theorem NoDigit.cons {radix : Nat} {digits : List Char} {failure : Failure} (c : Char)
    (h : NoDigit radix digits failure) : NoDigit radix (c :: digits) failure := by
  obtain ⟨rfl, d, hd, hnone⟩ := h
  exact ⟨rfl, d, List.mem_cons_of_mem c hd, hnone⟩

theorem Announces.length_le {text digits : List Char} {radix : Nat}
    (h : Announces text radix digits) : digits.length ≤ text.length := by
  cases h <;> simp only [List.length_cons, le_refl] <;> omega

theorem Parts.length_le {text digits : List Char} {negative : Bool} {radix : Nat}
    (h : Parts text negative radix digits) : digits.length ≤ text.length := by
  rcases h with h | ⟨-, h⟩
  · exact h.length_le.trans (Nat.le_succ _)
  · exact h.length_le

theorem groupSize_pos (radix : Nat) : 0 < groupSize radix := by
  unfold groupSize
  split <;> decide

namespace DigitGroup

/-- Digits of a radix in a group, which is not longer than groups are. -/
structure Valid (group : DigitGroup) (radix : Nat) : Prop where
  length_le : group.length ≤ groupSize radix
  scale_eq : group.scale = radix ^ group.length
  value_lt : group.value < group.scale

theorem valid_empty (radix : Nat) : empty.Valid radix :=
  ⟨Nat.zero_le _, (pow_zero radix).symm, Nat.zero_lt_one⟩

theorem Valid.push {group : DigitGroup} {radix digit : Nat} (h : group.Valid radix)
    (hdigit : digit < radix) (hlength : group.length < groupSize radix) :
    (group.push radix digit).Valid radix where
  length_le := hlength
  scale_eq := by
    show group.scale * radix = radix ^ (group.length + 1)
    rw [h.scale_eq, pow_succ]
  value_lt := by
    show group.value * radix + digit < group.scale * radix
    exact mul_add_lt h.value_lt le_rfl hdigit

/-- The scale of a whole group fits a word. -/
theorem Valid.scale_lt {group : DigitGroup} {radix : Nat} (h : group.Valid radix)
    (hradix : radix = 10 ∨ radix = 16) : group.scale < UInt32.size := by
  have hpos : 0 < radix := by omega
  rw [h.scale_eq]
  refine lt_of_le_of_lt (Nat.pow_le_pow_right hpos h.length_le) ?_
  rcases hradix with rfl | rfl <;> decide

/-- A digit takes four bits at most. -/
theorem Valid.scale_le {group : DigitGroup} {radix : Nat} (h : group.Valid radix)
    (hradix : radix ≤ 16) : group.scale ≤ 2 ^ (4 * group.length) := by
  rw [h.scale_eq, pow_mul]
  exact Nat.pow_le_pow_left hradix _

theorem Valid.bitLength_scale_le {group : DigitGroup} {radix : Nat} (h : group.Valid radix)
    (hradix : radix ≤ 16) : bitLength group.scale ≤ 4 * group.length + 1 := by
  rw [bitLength_le]
  exact lt_of_le_of_lt (h.scale_le hradix) (Nat.pow_lt_pow_right (by decide) (Nat.lt_succ_self _))

/-- So a number grows by four bits a digit at most when the group goes behind it. -/
theorem Valid.bitLength_le {group : DigitGroup} {radix : Nat} (h : group.Valid radix)
    (hradix : radix ≤ 16) (n : Nat) :
    bitLength (n * group.scale + group.value) ≤ bitLength n + 4 * group.length := by
  rw [Multiword.bitLength_le, pow_add]
  exact mul_add_lt (lt_two_pow_bitLength n) (h.scale_le hradix) h.value_lt

end DigitGroup

/-! ## Reading digits -/

namespace Integer

open ActionOn (attempts_checked attempts_throw makes_checked settles_pure)

/-- A sound integer of this magnitude, without a sign. -/
structure StandsFor (x : Integer) (n : Nat) : Prop where
  sound : x.Sound
  magnitude_eq : x.magnitude = n
  unsigned : x.negative = false

theorem zero_standsFor : zero.StandsFor 0 := ⟨sound_zero, rfl, rfl⟩

theorem StandsFor.bits_eq {x : Integer} {n : Nat} (h : x.StandsFor n) : x.bits = bitLength n := by
  rw [h.sound.wellFormed.bits_eq, h.magnitude_eq]

/-- The scale of a group and the number of its digits are words, so the digits go behind those that
were read before. -/
theorem WellFormed.mulAddGroup {x : Integer} (hx : x.WellFormed) {group : DigitGroup} {radix : Nat}
    (hgroup : group.Valid radix) (hscale : group.scale < UInt32.size) :
    (Integer.mulAddGroup group).Attempts x 1 (x.bits + bitLength group.scale)
      (TooManyBits (x.bits + bitLength group.scale)) fun _ y =>
      y.Holds (roomFor x.capacity (x.bits + bitLength group.scale))
        (x.magnitude * group.scale + group.value)
        (x.negative && decide (x.magnitude * group.scale + group.value ≠ 0)) := by
  have hvalue : group.value < UInt32.size := hgroup.value_lt.trans hscale
  have hscaleWord := Word.toNat_ofNat_of_lt hscale
  have hvalueWord := Word.toNat_ofNat_of_lt hvalue
  have hless : UInt32.ofNat group.value < UInt32.ofNat group.scale := by
    rw [UInt32.lt_iff_toNat_lt, hvalueWord, hscaleWord]
    exact hgroup.value_lt
  have hadded := hx.mulAddWord hless
  rw [Word.bitLength, hscaleWord, hvalueWord] at hadded
  exact attempts_checked (if_pos hscale) (attempts_checked (if_pos hvalue) hadded)

theorem makes_mulAddGroup {x : Integer} (hx : x.Granted) (group : DigitGroup) :
    (mulAddGroup group).Makes x fun _ y => y.Granted :=
  makes_checked fun _ _ => makes_checked fun _ _ => makes_mulAddWord hx _ _

section

variable {x : Integer} {radix n : Nat} (hradix : radix = 10 ∨ radix = 16)

include hradix

theorem attempts_mulAddGroup (hx : x.StandsFor n) {group : DigitGroup}
    (hgroup : group.Valid radix) :
    (mulAddGroup group).Attempts x 1 (bitLength n + 4 * group.length + 1) (fun _ => False)
      fun _ y => y.StandsFor (n * group.scale + group.value) := by
  have hscale := hgroup.scale_lt hradix
  have hroom := hgroup.bitLength_scale_le (show radix ≤ 16 by omega)
  have hbits : x.bits + bitLength group.scale < UInt64.size := by
    have hword : bitLength group.scale ≤ 32 := bitLength_le.2 hscale
    have hlt := hx.sound.bits_lt
    rw [show UInt64.size = 18446744073709551616 from rfl]
    omega
  refine ((hx.sound.wellFormed.mulAddGroup hgroup hscale).and_makes
    (makes_mulAddGroup hx.sound.granted group)).mono le_rfl (by rw [hx.bits_eq]; omega)
    (fun _ h => absurd h.2 (Nat.not_le_of_lt hbits)) ?_
  rintro - y ⟨hy, hgranted⟩
  refine ⟨⟨hy.wellFormed, hgranted⟩, ?_, ?_⟩
  · rw [hy.magnitude_eq, hx.magnitude_eq]
  · rw [hy.negative_eq, hx.unsigned, Bool.false_and]

/-- Behind the last digit an unfinished group is multiplied in. -/
theorem attempts_readDigits_nil (hx : x.StandsFor n) {group : DigitGroup}
    (hgroup : group.Valid radix) :
    ((readDigits radix [] group).applyTo x).Attempts group.length
      (bitLength n + 4 * group.length + 1) (fun _ => False) fun y =>
      y.StandsFor (n * group.scale + group.value) := by
  unfold readDigits
  split
  · next hne =>
    exact (attempts_mulAddGroup hradix hx hgroup).applyTo.mono (Nat.pos_of_ne_zero hne) le_rfl
      (fun _ h => h) fun _ hy => hy
  · next hzero =>
    have hlength : group.length = 0 := by simpa using hzero
    have hscale : group.scale = 1 := by rw [hgroup.scale_eq, hlength, pow_zero]
    have hvalue : group.value = 0 := by
      have hlt := hgroup.value_lt
      omega
    refine (settles_pure ?_).attempts.applyTo
    simpa [hscale, hvalue] using hx

omit hradix in
/-- One digit moves from the digits that are left to the number so far. -/
theorem exists_numeral_push {y : Integer} {group : DigitGroup} {c : Char} {cs : List Char}
    {digit : Nat} (hdigit : DigitOf radix c digit)
    (h : ∃ low, Numeral radix cs low ∧ y.StandsFor
      ((n * (group.push radix digit).scale + (group.push radix digit).value) *
        radix ^ cs.length + low)) :
    ∃ low, Numeral radix (c :: cs) low ∧
      y.StandsFor ((n * group.scale + group.value) * radix ^ (c :: cs).length + low) := by
  obtain ⟨low, hlow, hy⟩ := h
  refine ⟨_, numeral_cons.2 ⟨digit, low, hdigit, hlow, rfl⟩, ?_⟩
  convert hy using 1
  rw [List.length_cons]
  show _ = (n * (group.scale * radix) + (group.value * radix + digit)) * radix ^ cs.length + low
  ring

/-- The digits so far are those before the group and those in it. Between two digits the group is not
whole, so the next digit has its place in it. -/
theorem attempts_readDigits (hx : x.StandsFor n) (digits : List Char) {group : DigitGroup}
    (hgroup : group.Valid radix) (hlength : group.length < groupSize radix) :
    ((readDigits radix digits group).applyTo x).Attempts (group.length + digits.length)
      (bitLength n + 4 * (group.length + digits.length) + 1) (NoDigit radix digits) fun y =>
      ∃ low, Numeral radix digits low ∧
        y.StandsFor ((n * group.scale + group.value) * radix ^ digits.length + low) := by
  induction digits generalizing x n group with
  | nil =>
    exact (attempts_readDigits_nil hradix hx hgroup).mono le_rfl le_rfl (fun _ h => h.elim)
      fun y hy => ⟨0, numeral_nil.2 rfl, by simpa using hy⟩
  | cons c cs ih =>
    have hsixteen : radix ≤ 16 := by omega
    unfold readDigits
    split
    · next hnone =>
      refine (attempts_throw ⟨rfl, c, List.mem_cons_self, fun value hvalue => ?_⟩).applyTo
      rw [(digitValue?_eq_some hsixteen).2 hvalue] at hnone
      cases hnone
    · next digit hdigit =>
      have hdigit := (digitValue?_eq_some hsixteen).1 hdigit
      have hpushed := hgroup.push hdigit.1 hlength
      have hlonger : (group.push radix digit).length = group.length + 1 := rfl
      have hempty : DigitGroup.empty.length = 0 := rfl
      simp only [List.length_cons]
      split
      · -- a whole group: the digits behind it start from what is there then
        have hadded := (attempts_mulAddGroup hradix hx hpushed).applyTo
        have hgrown := hpushed.bitLength_le hsixteen n
        rw [ActionOn.applyTo_bind]
        refine ((hadded.mono le_rfl (by omega) (fun _ h => h.elim) fun _ h => h).bind fun y hy =>
          (ih hy (DigitGroup.valid_empty radix) (groupSize_pos radix)).within (by omega)).mono
            (by omega) le_rfl (fun _ => .cons c) fun y hread => exists_numeral_push hdigit ?_
        simpa [DigitGroup.empty] using hread
      · next hshort =>
        exact (ih hx hpushed (lt_of_le_of_ne hpushed.length_le hshort)).mono (by omega) (by omega)
          (fun _ => .cons c) fun y hread => exists_numeral_push hdigit hread

end

/-! ## Reading texts -/

/-- What can be wrong with a text that has these digits. -/
def Misread (radix : Nat) (digits : List Char) (failure : Failure) : Prop :=
  failure = .error .emptyText ∧ digits = [] ∨ NoDigit radix digits failure

/-- The integer of a text with these parts. Zero has no sign. -/
structure ReadFrom (x : Integer) (negative : Bool) (radix : Nat) (digits : List Char) : Prop where
  sound : x.Sound
  digits_ne : digits ≠ []
  numeral : Numeral radix digits x.magnitude
  negative_eq : x.negative = (negative && decide (x.magnitude ≠ 0))

/-- The digits of a text are read on top of zero, and its sign is put in front. -/
theorem ofText_of_parts {text digits : List Char} {negative : Bool} {radix : Nat}
    (h : Parts text negative radix digits) :
    ofText text = (if digits.isEmpty then throw (.error .emptyText) else do
      let x ← (readDigits radix digits .empty).applyTo zero
      pure (x.withSign negative)) := by
  obtain ⟨hsign, hradix⟩ := parts_iff.1 h
  unfold ofText
  rw [show splitSign text = (negative, (splitSign text).2) from Prod.ext hsign rfl]
  dsimp only
  rw [hradix]

theorem attempts_ofText {text digits : List Char} {negative : Bool} {radix : Nat}
    (h : Parts text negative radix digits) :
    (ofText text).Attempts digits.length (4 * digits.length + 1) (Misread radix digits) fun x =>
      x.ReadFrom negative radix digits := by
  rw [ofText_of_parts h]
  by_cases hdigits : digits = []
  · rw [hdigits]
    exact Action.attempts_throw (.inl ⟨rfl, rfl⟩)
  · rw [List.isEmpty_eq_false_iff.2 hdigits]
    have hread := attempts_readDigits h.radix_eq zero_standsFor digits (DigitGroup.valid_empty radix)
      (groupSize_pos radix)
    have hempty : DigitGroup.empty.length = 0 := rfl
    refine ((hread.mono (by omega) (by simp [hempty]) (fun _ h => .inr h) fun _ h => h).bind
      fun x hx => Action.attempts_pure ?_).mono (Nat.add_zero _).le le_rfl (fun _ h => h)
        fun _ h => h
    obtain ⟨n, hn, hx⟩ := hx
    have hmagnitude : x.magnitude = n := by simpa [DigitGroup.empty] using hx.magnitude_eq
    have hsigned := hx.sound.wellFormed.withSign negative
    refine ⟨hx.sound.withSign negative, hdigits, ?_, ?_⟩
    · rwa [hsigned.magnitude_eq, hmagnitude]
    · rw [hsigned.negative_eq, hsigned.magnitude_eq]

/-- A text with digits, and nothing else behind sign and marker, is read unless growth is refused. -/
theorem attempts_ofText_numeral {text digits : List Char} {negative : Bool} {radix n : Nat}
    (h : Parts text negative radix digits) (hne : digits ≠ []) (hdigits : Numeral radix digits n) :
    (ofText text).Attempts digits.length (4 * digits.length + 1) (fun _ => False) fun x =>
      x.Sound ∧ x.magnitude = n ∧ x.negative = (negative && decide (n ≠ 0)) := by
  have hradix : radix ≤ 16 := by
    have := h.radix_eq
    omega
  refine (attempts_ofText h).mono le_rfl le_rfl ?_ ?_
  · rintro _ (⟨-, hempty⟩ | ⟨-, c, hc, hnone⟩)
    · exact hne hempty
    · exact (hdigits.exists_digitOf hc).elim hnone
  · intro x hx
    have hmagnitude := hx.numeral.unique hradix hdigits
    exact ⟨hx.sound, hmagnitude, by rw [hx.negative_eq, hmagnitude]⟩

/-- Where nothing is refused by number, a numeral is read unless it is longer than memory. -/
theorem exists_granted_ofText {text digits : List Char} {negative : Bool} {radix n : Nat}
    (h : Parts text negative radix digits) (hne : digits ≠ []) (hdigits : Numeral radix digits n)
    (hlimit : roundedUp (wordsFor (4 * digits.length + 1)) < Memory.wordLimit) :
    ∃ x, (ofText text).granted = .ok x ∧
      x.Sound ∧ x.magnitude = n ∧ x.negative = (negative && decide (n ≠ 0)) :=
  (attempts_ofText_numeral h hne hdigits).exists_granted (Memory.generous_grants hlimit)
    fun _ h => h

/-! ## Every text -/

theorem makes_ofText (text : List Char) : (ofText text).Makes WellFormed := by
  obtain ⟨_, _, _, hparts⟩ := exists_parts text
  exact (attempts_ofText hparts).makes.mono fun _ hx => hx.sound.wellFormed

/-- What can be wrong with a text, or with the room for its number. -/
def TextCause (e : Error) : Prop := e = .growthRefused ∨ e = .emptyText ∨ e = .invalidDigit

theorem ends_ofText (text : List Char) :
    (ofText text).Ends (Failure.Reports TextCause) Sound := by
  obtain ⟨_, _, _, hparts⟩ := exists_parts text
  refine ((attempts_ofText hparts).ends (.inl rfl) ?_).mono (fun _ h => h) fun _ hx => hx.sound
  rintro _ (⟨rfl, -⟩ | ⟨rfl, -⟩)
  · exact .inr (.inl rfl)
  · exact .inr (.inr rfl)

/-- Reading follows the grammar of texts, and its result is exact. Where no growth is refused, a text
without digits is reported as empty, one with a character that is no digit as invalid, and every
other one gives the integer of its sign and digits. -/
theorem text_read_by_grammar (text : List Char) :
    ∃ negative radix digits, Parts text negative radix digits ∧
      (ofText text).Attempts digits.length (4 * digits.length + 1) (Misread radix digits)
        (fun x => x.ReadFrom negative radix digits) ∧
      ∀ memory, ((ofText text).exec memory).1 ≠ .error (.error .growthRefused) →
        (((ofText text).exec memory).1 = .error (.error .emptyText) ↔ digits = []) ∧
        (((ofText text).exec memory).1 = .error (.error .invalidDigit) ↔
          digits ≠ [] ∧ ∃ c ∈ digits, ∀ value, ¬DigitOf radix c value) ∧
        ((∃ x, ((ofText text).exec memory).1 = .ok x ∧ x.ReadFrom negative radix digits) ↔
          digits ≠ [] ∧ ∀ c ∈ digits, ∃ value, DigitOf radix c value) := by
  obtain ⟨negative, radix, digits, hparts⟩ := exists_parts text
  have hread := attempts_ofText hparts
  refine ⟨negative, radix, digits, hparts, hread, fun memory hgranted => ?_⟩
  obtain ⟨x, hrun, hx⟩ | ⟨_, hrun, ⟨rfl, rfl⟩ | ⟨rfl, c, hc, hnone⟩⟩ := hread.of_not_refused hgranted
  · have hdigits := exists_numeral.1 ⟨_, hx.numeral⟩
    simpa [hrun, hx, hx.digits_ne] using hdigits
  · simp [hrun]
  · have hbad : ∃ c ∈ digits, ∀ value, ¬DigitOf radix c value := ⟨c, hc, hnone⟩
    have hne : digits ≠ [] := List.ne_nil_of_mem hc
    have hnot : ¬∀ c ∈ digits, ∃ value, DigitOf radix c value := fun h =>
      (h c hc).elim hnone
    simp [hrun, hne, hbad, hnot]

theorem text_of_minus_thirty_one_read :
    ((ofText ['-', '0', 'X', '1', 'f']).exec Memory.generous).1 ≠ .error (.error .growthRefused) ∧
      ∃ x, ((ofText ['-', '0', 'X', '1', 'f']).exec Memory.generous).1 = .ok x ∧
        x.ReadFrom true 16 ['1', 'f'] := by
  have hgranted : ((ofText ['-', '0', 'X', '1', 'f']).exec Memory.generous).1 ≠
      .error (.error .growthRefused) := by decide
  obtain ⟨negative, radix, digits, hparts, -, hread⟩ :=
    text_read_by_grammar ['-', '0', 'X', '1', 'f']
  obtain ⟨rfl, hsplit⟩ := parts_iff.1 hparts
  cases hsplit
  have hdigits : ∀ c ∈ ['1', 'f'], ∃ value, DigitOf 16 c value := by
    intro c hc
    rcases List.mem_pair.1 hc with rfl | rfl
    · exact ⟨1, by decide⟩
    · exact ⟨15, by decide⟩
  exact ⟨hgranted, (hread _ hgranted).2.2.2 ⟨by simp, hdigits⟩⟩

end Integer

end Multiword
