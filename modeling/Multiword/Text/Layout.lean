/-!
# Layout of a number in a text

A number is laid out in a field from three parts: a sign, the marker of its radix, and digits. A
`Layout` says which signs and markers are written, how wide the field is, and where the padding
goes: zeros between the marker and the digits, or a fill character around everything.
-/

set_option autoImplicit false

namespace Multiword

/-- Where a number stands in a field that is wider. -/
inductive Alignment where
  | left
  | center
  | right
  deriving DecidableEq, Repr

/-- How the digits of a number are written. -/
inductive Digits where
  | decimal
  | lowerHex
  | upperHex
  deriving DecidableEq, Repr

/-- How a number is placed in its field. -/
structure Layout where
  /-- The character that fills up the field. -/
  fill : Char
  /-- Numbers stand at the right unless something else is asked for. -/
  alignment : Option Alignment
  /-- Write a sign also in front of what is not negative. -/
  plus : Bool
  /-- Write the marker of the radix. -/
  marked : Bool
  /-- Fill up with zeros behind sign and marker, whatever fill and alignment say. -/
  zeros : Bool
  /-- The width of the field in characters; a longer number is written in full. -/
  width : Nat
  deriving DecidableEq, Repr

namespace Layout

/-- A number as it is, in no field at all. -/
def bare : Layout :=
  { fill := ' ', alignment := none, plus := false, marked := false, zeros := false, width := 0 }

/-- The sign in front of a number. -/
def sign (layout : Layout) (negative : Bool) : List Char :=
  if negative then ['-'] else if layout.plus then ['+'] else []

/-- Lay out a number of the given sign, with the marker that its radix has. -/
def place (layout : Layout) (negative : Bool) (marker digits : List Char) : List Char :=
  let front := layout.sign negative ++ (if layout.marked then marker else [])
  let padding := layout.width - (front.length + digits.length)
  if layout.zeros then
    front ++ List.replicate padding '0' ++ digits
  else
    let before := match layout.alignment.getD .right with
      | .left => 0
      | .center => padding / 2
      | .right => padding
    List.replicate before layout.fill ++ (front ++ digits) ++
      List.replicate (padding - before) layout.fill

/-! ## Written layouts -/

/-- The alignment that a character stands for. -/
def alignmentOf? : Char → Option Alignment
  | '<' => some .left
  | '^' => some .center
  | '>' => some .right
  | _ => none

/-- Fill and alignment at the front of a written layout. -/
def takeAlignment (layout : Layout) : List Char → Layout × List Char
  | [] => (layout, [])
  | first :: rest =>
    match rest.head?.bind alignmentOf? with
    | some alignment => ({ layout with fill := first, alignment := some alignment }, rest.tail)
    | none =>
      match alignmentOf? first with
      | some alignment => ({ layout with alignment := some alignment }, rest)
      | none => (layout, first :: rest)

/-- The letters that say how the digits are written. -/
def digitsOf? : List Char → Option Digits
  | [] | ['?'] | ['x', '?'] => some .decimal
  | ['x'] => some .lowerHex
  | ['X'] => some .upperHex
  | _ => none

/-- Read a layout that is written as alignment, flags and letters, in this order and each of them
optional, for a field of the given width. -/
def read? (written : List Char) (width : Nat) : Option (Layout × Digits) := do
  let (layout, written) := takeAlignment { bare with width } written
  let (layout, written) := match written with
    | '+' :: rest => ({ layout with plus := true }, rest)
    | rest => (layout, rest)
  let (layout, written) := match written with
    | '#' :: rest => ({ layout with marked := true }, rest)
    | rest => (layout, rest)
  let (layout, written) := match written with
    | '0' :: rest => ({ layout with zeros := true }, rest)
    | rest => (layout, rest)
  let digits ← digitsOf? written
  pure (layout, digits)

end Layout

end Multiword
