/-!
# Lines, fields and numerals

`Text.split sep` cuts a text at every `sep`: `n` separators give `n + 1` pieces, empty ones
included, so the empty text is one empty piece.

`Text.lines` cuts a text into lines. A line ends at a line feed, and a carriage return right
before that line feed belongs to the line ending. The last line needs no line feed, and then keeps
whatever it ends with; a line feed at the very end starts no further line, so the empty text has
no lines.

Whole numbers are written in decimal: an optional sign, then one or more digits, leading zeros
allowed. Unsigned numerals take only `+` and must lie below `2 ^ bits`; signed numerals take `+`
or `-` and must lie in the range of `bits`-bit two's complement. Nothing else is allowed: no
blanks, no digit separators, no fraction or exponent.
-/
namespace TableGrep.Text

/-! ## Lines and fields -/

/-- The pieces of a text between separators, `acc` holding the current piece reversed. -/
def splitFrom (sep : Char) (acc : List Char) : List Char → List (List Char)
  | [] => [acc.reverse]
  | c :: rest =>
    if c = sep then acc.reverse :: splitFrom sep [] rest else splitFrom sep (c :: acc) rest

/-- The pieces of a text between the separators `sep`. -/
def split (sep : Char) (s : List Char) : List (List Char) := splitFrom sep [] s

/-- Drop one carriage return from the end of a line held reversed. -/
def dropReturn : List Char → List Char
  | '\r' :: rest => rest
  | rest => rest

/-- The lines of a text, `acc` holding the current line reversed. -/
def linesFrom (acc : List Char) : List Char → List (List Char)
  | [] => if acc.isEmpty then [] else [acc.reverse]
  | c :: rest =>
    if c = '\n' then (dropReturn acc).reverse :: linesFrom [] rest
    else linesFrom (c :: acc) rest

/-- The lines of a text, without their line endings. -/
def lines (s : List Char) : List (List Char) := linesFrom [] s

/-- A line without one trailing carriage return, if it has one. -/
def trimReturn (line : List Char) : List Char := (dropReturn line.reverse).reverse

/-! ## Decimal numerals -/

/-- The value of one or more decimal digits, most significant first. -/
def digitsValue? : List Char → Option Nat
  | [] => none
  | c :: cs => go (some 0) (c :: cs)
where
  go : Option Nat → List Char → Option Nat
    | acc, [] => acc
    | acc, d :: ds =>
      if d.isDigit then go (acc.map fun n => 10 * n + (d.toNat - '0'.toNat)) ds else none

/-- An unsigned numeral below `2 ^ bits`. -/
def readUnsigned? (bits : Nat) (s : List Char) : Option Nat :=
  let body := match s with
    | '+' :: rest => rest
    | rest => rest
  (digitsValue? body).bind fun n => if n < Nat.pow 2 bits then some n else none

/-- A signed numeral in the range of `bits`-bit two's complement. -/
def readSigned? (bits : Nat) (s : List Char) : Option Int :=
  match s with
  | '-' :: rest =>
    (digitsValue? rest).bind fun n => if n ≤ Nat.pow 2 (bits - 1) then some (-(n : Int)) else none
  | _ => (readUnsigned? (bits - 1) s).map Int.ofNat

end TableGrep.Text
