/-!
# Lossy UTF-8 decoding

Bytes are decoded as UTF-8. Where they stop being a well-formed sequence, the longest start of a
well-formed sequence found there (a lead byte and the continuation bytes it allows, at least one
byte) becomes one replacement character U+FFFD, and decoding goes on right after it. This is the
"maximal subpart" practice of the Unicode Standard (chapter 3, U+FFFD substitution).

The well-formed sequences are those of the Unicode Standard's table 3-7: the second byte's range
depends on the lead byte, which excludes overlong forms, surrogates and values past U+10FFFF.
-/
namespace TableGrep.Text

/-- The replacement character. -/
def replacement : Char := '\uFFFD'

/-- A continuation byte, `80` to `BF`. -/
def isContinuation (b : UInt8) : Bool := 0x80 ≤ b && b ≤ 0xBF

/-- For a lead byte of a sequence of two bytes or more: the range its second byte must lie in,
and the length of the sequence. -/
def leadShape (b : UInt8) : Option (UInt8 × UInt8 × Nat) :=
  if 0xC2 ≤ b && b ≤ 0xDF then some (0x80, 0xBF, 2)
  else if b = 0xE0 then some (0xA0, 0xBF, 3)
  else if 0xE1 ≤ b && b ≤ 0xEC then some (0x80, 0xBF, 3)
  else if b = 0xED then some (0x80, 0x9F, 3)
  else if 0xEE ≤ b && b ≤ 0xEF then some (0x80, 0xBF, 3)
  else if b = 0xF0 then some (0x90, 0xBF, 4)
  else if 0xF1 ≤ b && b ≤ 0xF3 then some (0x80, 0xBF, 4)
  else if b = 0xF4 then some (0x80, 0x8F, 4)
  else none

/-- The low six bits of a continuation byte. -/
def low6 (b : UInt8) : Nat := b.toNat % 64

/-- Decode bytes as UTF-8, each maximal ill-formed subpart becoming U+FFFD. -/
def decodeLossy : List UInt8 → List Char
  | [] => []
  | b :: rest =>
    if b < 0x80 then Char.ofNat b.toNat :: decodeLossy rest
    else
      match leadShape b with
      | none => replacement :: decodeLossy rest
      | some (lo, hi, n) =>
        match rest with
        | [] => [replacement]
        | c1 :: r1 =>
          if !(lo ≤ c1 && c1 ≤ hi) then replacement :: decodeLossy (c1 :: r1)
          else if n = 2 then Char.ofNat ((b.toNat % 32) * 64 + low6 c1) :: decodeLossy r1
          else
            match r1 with
            | [] => [replacement]
            | c2 :: r2 =>
              if !isContinuation c2 then replacement :: decodeLossy (c2 :: r2)
              else if n = 3 then
                Char.ofNat ((b.toNat % 16) * 4096 + low6 c1 * 64 + low6 c2) :: decodeLossy r2
              else
                match r2 with
                | [] => [replacement]
                | c3 :: r3 =>
                  if !isContinuation c3 then replacement :: decodeLossy (c3 :: r3)
                  else
                    Char.ofNat ((b.toNat % 8) * 262144 + low6 c1 * 4096 + low6 c2 * 64
                      + low6 c3) :: decodeLossy r3
termination_by bs => bs.length
decreasing_by all_goals simp only [List.length_cons]; omega

end TableGrep.Text
