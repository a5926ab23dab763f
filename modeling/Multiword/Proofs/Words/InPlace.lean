import Multiword.Proofs.Words.Shift

/-!
# Shifts within the buffer

The shifts of words are written as if every word saw its neighbours as they were before. A buffer that
is shifted where it stands holds, in the meantime, some words that are shifted already and some that
are not. Here whole words are moved as a block, and then one word after the other takes the bits that
its neighbour hands over, to the left from the top down and to the right from the bottom up. In this
order the neighbour is always a word that has not been shifted yet, and so both give the same words.
-/

set_option autoImplicit false

namespace Multiword

namespace Words

theorem read_middle (front back : List Word) (w : Word) :
    read (front ++ w :: back) front.length = .ok w := by
  simp [read]

theorem write_middle (front back : List Word) (w v : Word) :
    write (front ++ w :: back) front.length v = .ok (front ++ v :: back) := by
  simp [write]

namespace InPlace

/-! ## Whole words -/

/-- Put the words from `start` up to, but not including, `stop` at `place`. The two ranges may
overlap: what is put there are the words from before. -/
def moveBlock (ws : List Word) (start stop place : Nat) : Checked (List Word) :=
  if start ≤ stop ∧ stop ≤ ws.length ∧ place + (stop - start) ≤ ws.length then
    .ok (ws.take place ++ (ws.take stop).drop start ++ ws.drop (place + (stop - start)))
  else .error .outOfRange

/-- Move the `len` low words up by some places, and clear the places below them. -/
def moveUp (ws : List Word) (len places : Nat) : Checked (List Word) :=
  if places = 0 then
    pure ws
  else do
    let ws ← moveBlock ws 0 len places
    clear ws 0 places

/-- Move the `len` low words down by some places, and clear the places that they leave. -/
def moveDown (ws : List Word) (len places : Nat) : Checked (List Word) :=
  if places = 0 then
    pure ws
  else do
    let ws ← moveBlock ws places len 0
    clear ws (len - places) len

variable {ws : List Word} {len places : Nat}

theorem moveUp_eq (h : len + places ≤ ws.length) :
    moveUp ws len places =
      .ok (List.replicate places 0 ++ ws.take len ++ ws.drop (places + len)) := by
  unfold moveUp
  split
  · next hplaces => simp [hplaces]
  · have hblock : moveBlock ws 0 len places =
        .ok (ws.take places ++ (ws.take len ++ ws.drop (places + len))) := by
      simp [moveBlock, show len ≤ ws.length by omega, show places + len ≤ ws.length by omega]
    have hbelow : (ws.take places).length = places := List.length_take_of_le (by omega)
    rw [hblock, Checked.ok_bind, clear, if_pos (by simp; omega), List.drop_left' hbelow]
    simp

theorem moveDown_eq (hplaces : places < len) (h : len ≤ ws.length) :
    moveDown ws len places =
      .ok ((ws.take len).drop places ++ List.replicate places 0 ++ ws.drop len) := by
  unfold moveDown
  split
  · next hplaces => simp [hplaces]
  · have hblock : moveBlock ws places len 0 =
        .ok ((ws.take len).drop places ++ ws.drop (len - places)) := by
      simp [moveBlock, h, hplaces.le, show len - places ≤ ws.length by omega]
    have hkept : ((ws.take len).drop places).length = len - places := by
      rw [List.length_drop, List.length_take_of_le h]
    have hgone : ((ws.take len).drop places).drop len = [] :=
      List.drop_of_length_le (by rw [hkept]; exact Nat.sub_le _ _)
    rw [hblock, Checked.ok_bind, clear, if_pos (by simp; omega), List.take_left' hkept,
      List.drop_append, hgone, hkept, Nat.sub_sub_self hplaces.le, List.drop_drop,
      Nat.sub_add_cancel hplaces.le, List.nil_append]

/-! ## Bits between neighbours -/

/-- The word at `i`, or zero where the window ends before it. -/
def neighbour (inside : Prop) [Decidable inside] (ws : List Word) (i : Nat) : Checked Word :=
  if inside then read ws i else pure 0

/-- Shift the word at `i` left, in a window that starts at `bottom`. -/
def stepUp (bits : UInt32) (bottom : Nat) (ws : List Word) (i : Nat) : Checked (List Word) := do
  let below ← neighbour (bottom < i) ws (i - 1)
  let w ← read ws i
  write ws i (w <<< bits ||| below >>> (32 - bits))

/-- Shift the word at `i` right, in a window that ends below `top`. -/
def stepDown (bits : UInt32) (top : Nat) (ws : List Word) (i : Nat) : Checked (List Word) := do
  let above ← neighbour (i + 1 < top) ws (i + 1)
  let w ← read ws i
  write ws i (w >>> bits ||| above <<< (32 - bits))

/-- Shift the words from `bottom` up to, but not including, `top` left, the highest one first. -/
def passUp (bits : UInt32) (ws : List Word) (bottom top : Nat) : Checked (List Word) :=
  (List.range' bottom (top - bottom)).reverse.foldlM (stepUp bits bottom) ws

/-- Shift the words below `top` right, the lowest one first. -/
def passDown (bits : UInt32) (ws : List Word) (top : Nat) : Checked (List Word) :=
  (List.range top).foldlM (stepDown bits top) ws

/-- One step to the left changes the top word of what is left of the window. -/
theorem stepUp_eq (bits : UInt32) (front window back : List Word) (w : Word) :
    stepUp bits front.length (front ++ window ++ w :: back) (front.length + window.length) =
      .ok (front ++ window ++ (w <<< bits ||| (window.getLast?.getD 0) >>> (32 - bits)) :: back) := by
  have hbelow : neighbour (front.length < front.length + window.length)
      (front ++ window ++ w :: back) (front.length + window.length - 1) =
        .ok (window.getLast?.getD 0) := by
    induction window using List.reverseRecOn with
    | nil => simp [neighbour]
    | append_singleton window v _ =>
      simpa [neighbour] using read_middle (front ++ window) (w :: back) v
  rw [stepUp, hbelow, Checked.ok_bind, ← List.length_append, read_middle, Checked.ok_bind,
    write_middle]

/-- One step to the right changes the lowest word of what is left of the window. -/
theorem stepDown_eq (bits : UInt32) (front window back : List Word) (w : Word) :
    stepDown bits (front.length + (w :: window).length) (front ++ w :: window ++ back)
        front.length =
      .ok (front ++ (w >>> bits ||| (window.head?.getD 0) <<< (32 - bits)) :: window ++ back) := by
  have habove : neighbour (front.length + 1 < front.length + (w :: window).length)
      (front ++ w :: window ++ back) (front.length + 1) = .ok (window.head?.getD 0) := by
    cases window with
    | nil => simp [neighbour]
    | cons v window => simpa [neighbour] using read_middle (front ++ [w]) (window ++ back) v
  rw [stepDown, habove, Checked.ok_bind, List.append_assoc, List.cons_append, read_middle,
    Checked.ok_bind, write_middle, ← List.cons_append, ← List.append_assoc]

theorem shiftUp_append_singleton (bits : UInt32) (below w : Word) (ws : List Word) :
    shiftUp bits below (ws ++ [w]) =
      shiftUp bits below ws ++ [w <<< bits ||| (ws.getLast?.getD below) >>> (32 - bits)] := by
  induction ws generalizing below with
  | nil => rfl
  | cons v vs ih =>
    rw [List.cons_append, shiftUp, shiftUp, ih, List.getLast?_cons, Option.getD_some,
      List.cons_append]

theorem shiftDown_cons (bits : UInt32) (w : Word) (ws : List Word) :
    shiftDown bits (w :: ws) =
      (w >>> bits ||| (ws.head?.getD 0) <<< (32 - bits)) :: shiftDown bits ws := by
  cases ws with
  | nil => simp [shiftDown]
  | cons v vs => rfl

/-- The words that the pass has left behind are final, and those that it has not reached are as they
were: the induction takes the window apart at its top. -/
theorem passUp_eq (bits : UInt32) (front window back : List Word) :
    passUp bits (front ++ window ++ back) front.length (front.length + window.length) =
      .ok (front ++ shiftUp bits 0 window ++ back) := by
  unfold passUp
  rw [Nat.add_sub_cancel_left]
  induction window using List.reverseRecOn generalizing back with
  | nil => simp [shiftUp]
  | append_singleton window w ih =>
    have hstep := stepUp_eq bits front window back w
    rw [List.length_append, List.length_singleton, List.range'_1_concat, List.reverse_append,
      List.reverse_singleton, List.singleton_append, List.foldlM_cons, shiftUp_append_singleton]
    simp only [List.append_assoc, List.singleton_append] at hstep ih ⊢
    rw [hstep, Checked.ok_bind, ih]

theorem foldlM_stepDown (bits : UInt32) (front window back : List Word) :
    (List.range' front.length window.length).foldlM
        (stepDown bits (front.length + window.length)) (front ++ window ++ back) =
      .ok (front ++ shiftDown bits window ++ back) := by
  induction window generalizing front with
  | nil => simp [shiftDown]
  | cons w window ih =>
    have hstep := stepDown_eq bits front window back w
    have hrest := ih (front ++ [w >>> bits ||| (window.head?.getD 0) <<< (32 - bits)])
    rw [List.length_append, List.length_singleton, Nat.add_right_comm] at hrest
    rw [List.length_cons] at hstep ⊢
    rw [List.range'_succ, List.foldlM_cons, hstep, Checked.ok_bind, shiftDown_cons]
    simp only [List.append_assoc, List.cons_append, List.nil_append] at hrest ⊢
    exact hrest

theorem passDown_eq (bits : UInt32) (window back : List Word) :
    passDown bits (window ++ back) window.length = .ok (shiftDown bits window ++ back) := by
  have hpass := foldlM_stepDown bits [] window back
  rwa [List.length_nil, Nat.zero_add, ← List.range_eq_range', List.nil_append,
    List.nil_append] at hpass

/-! ## The whole shift -/

/-- Shift the `len` low words left by `n` bits, where they stand. -/
def shiftLeft (ws : List Word) (len n : Nat) : Checked (List Word) := do
  let places := n / 32
  let bits := n % 32
  let stop ← position ws (len + places)
  require (stop ≤ ws.length) .brokenPromise
  let ws ← moveUp ws len places
  if bits = 0 then
    pure ws
  else
    passUp (UInt32.ofNat bits) ws places (min (← position ws (stop + 1)) ws.length)

/-- Shift the `len` low words right by `n` bits, where they stand. -/
def shiftRight (ws : List Word) (len n : Nat) : Checked (List Word) := do
  let places := n / 32
  let bits := n % 32
  if len ≤ places then
    clear ws 0 len
  else
    let ws ← moveDown ws len places
    if bits = 0 then
      pure ws
    else
      passDown (UInt32.ofNat bits) ws (len - places)

/-- The pass on a window of the buffer. -/
theorem passUp_window (bits : UInt32) {bottom top : Nat} (hbottom : bottom ≤ top)
    (htop : top ≤ ws.length) :
    passUp bits ws bottom top =
      .ok (ws.take bottom ++ shiftUp bits 0 ((ws.take top).drop bottom) ++ ws.drop top) := by
  have hpass := passUp_eq bits (ws.take bottom) ((ws.take top).drop bottom) (ws.drop top)
  have hsplit : ws.take bottom ++ (ws.take top).drop bottom = ws.take top := by
    conv_rhs => rw [← List.take_append_drop bottom (ws.take top), List.take_take,
      min_eq_left hbottom]
  rwa [hsplit, List.take_append_drop, List.length_drop, List.length_take_of_le htop,
    List.length_take_of_le (hbottom.trans htop), Nat.add_sub_cancel' hbottom] at hpass

theorem shiftLeft_eq (ws : List Word) (len n : Nat) :
    shiftLeft ws len n = Words.shiftLeft ws len n := by
  unfold shiftLeft Words.shiftLeft
  by_cases h : len + n / 32 ≤ ws.length
  · have hmoved := length_moved h
    have hstop : position ws (len + n / 32) = .ok (len + n / 32) :=
      position_of_le (Nat.le_succ_of_le h)
    have hnext : ∀ {moved : List Word}, moved.length = ws.length →
        position moved (len + n / 32 + 1) = .ok (len + n / 32 + 1) :=
      fun hsame => position_of_le (by omega)
    simp only [hstop, require_of _ h, Checked.ok_bind, moveUp_eq h, hnext rfl, hnext hmoved]
    split
    · rfl
    · rw [hmoved, passUp_window _ (by omega) (by omega)]
      rfl
  · -- both fail before they touch a word
    rcases hposition : position ws (len + n / 32) with fault | stop
    · simp only [hposition, Checked.error_bind]
    · obtain rfl := position_eq_ok hposition
      simp only [hposition, Checked.ok_bind, require_of_not _ h, Checked.error_bind]

theorem shiftRight_eq (n : Nat) (h : len ≤ ws.length) :
    shiftRight ws len n = Words.shiftRight ws len n := by
  unfold shiftRight Words.shiftRight
  simp only [require_of .outOfRange (Or.inr h : n = 0 ∨ _), Checked.ok_bind]
  split
  · simp [clear, h]
  · next hplaces =>
    rw [moveDown_eq (by omega) h, Checked.ok_bind]
    split
    · rfl
    · have hkept : ((ws.take len).drop (n / 32)).length = len - n / 32 := by
        rw [List.length_drop, List.length_take_of_le h]
      rw [List.append_assoc, ← hkept, passDown_eq, ← List.append_assoc]
      rfl

end InPlace

/-- Shifts of words are exact, for every distance, and the same words come out where the buffer is
shifted in place, one word after the other. To the left nothing is lost, if the words above those that
are shifted are zero and the product fits the buffer; at the end of the buffer the pass stops, and what
would leave it there is zero. To the right the remainder is dropped, no bit enters from above, and the
words above those that are shifted stay. -/
theorem word_shifts_exact (ws : List Word) (len n : Nat) :
    ((∀ w ∈ ws.drop len, w = 0) → toNat ws * 2 ^ n < 2 ^ (32 * ws.length) →
      len + n / 32 ≤ ws.length →
      ∃ shifted, shiftLeft ws len n = .ok shifted ∧ InPlace.shiftLeft ws len n = .ok shifted ∧
        shifted.length = ws.length ∧ toNat shifted = toNat ws * 2 ^ n) ∧
    (len ≤ ws.length →
      ∃ low, shiftRight ws len n = .ok (low ++ ws.drop len) ∧
        InPlace.shiftRight ws len n = .ok (low ++ ws.drop len) ∧ low.length = len ∧
        toNat low = toNat (ws.take len) / 2 ^ n) := by
  refine ⟨fun hzero hfits hlength => ?_, fun hlength => ?_⟩
  · rw [← radix_pow] at hfits
    obtain ⟨shifted, hshifted, hsame, hvalue⟩ := shiftLeft_eq hzero hlength hfits
    exact ⟨shifted, hshifted, (InPlace.shiftLeft_eq ws len n).trans hshifted, hsame, hvalue⟩
  · obtain ⟨low, hlow, hsame, hvalue⟩ := shiftRight_eq n hlength
    exact ⟨low, hlow, (InPlace.shiftRight_eq n hlength).trans hlow, hsame, hvalue⟩

theorem shifts_by_thirty_three_exact :
    (∃ shifted, shiftLeft [2147483649, 0, 0, 0] 1 33 = .ok shifted ∧
      InPlace.shiftLeft [2147483649, 0, 0, 0] 1 33 = .ok shifted ∧ shifted.length = 4 ∧
      toNat shifted = 2147483649 * 2 ^ 33) ∧
    ∃ low, shiftRight [0, 2, 1, 7] 3 33 = .ok (low ++ [7]) ∧
      InPlace.shiftRight [0, 2, 1, 7] 3 33 = .ok (low ++ [7]) ∧ low.length = 3 ∧
      toNat low = 2147483649 := by
  obtain ⟨shifted, hleft, hinPlace, hlength, hvalue⟩ :=
    (word_shifts_exact [2147483649, 0, 0, 0] 1 33).1 (by simp) (by decide) (by decide)
  obtain ⟨low, hright, hinPlace', hlow, hquotient⟩ :=
    (word_shifts_exact [0, 2, 1, 7] 3 33).2 (by decide)
  exact ⟨⟨shifted, hleft, hinPlace, hlength, hvalue⟩, low, hright, hinPlace', hlow, hquotient⟩

end Words

end Multiword
