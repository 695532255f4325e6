/-!
# Pattern syntax trees and their language

A pattern is read into a `Regex`: literal characters, the wildcard `.`, concatenation, the
alternative `|`, and the three repetitions `*`, `+` and `?`. Parentheses only group, so they
leave no node of their own.

`Regex.Matches r w` is the standard language of `r`: the wildcard stands for any one
character, `*` for zero or more, `+` for one or more and `?` for zero or one repetition.
-/
namespace TableGrep

/-- A parsed pattern. -/
inductive Regex where
  | literal (c : Char)
  | wildcard
  | seq (r s : Regex)
  | alt (r s : Regex)
  | star (r : Regex)
  | plus (r : Regex)
  | opt (r : Regex)
  deriving DecidableEq, Repr, Inhabited

/-- The three repetition operators. -/
inductive Repetition where
  | star
  | plus
  | opt
  deriving DecidableEq, Repr

namespace Repetition

/-- The repetition an operator character stands for. -/
def ofChar? : Char → Option Repetition
  | '*' => some .star
  | '+' => some .plus
  | '?' => some .opt
  | _ => none

/-- Put a repetition around a syntax tree. -/
def apply : Repetition → Regex → Regex
  | .star, r => .star r
  | .plus, r => .plus r
  | .opt, r => .opt r

end Repetition

namespace Regex

/-- The words a pattern stands for. -/
inductive Matches : Regex → List Char → Prop
  | literal (c : Char) : Matches (.literal c) [c]
  | wildcard (c : Char) : Matches .wildcard [c]
  | seq {r s : Regex} {u v : List Char} :
      Matches r u → Matches s v → Matches (.seq r s) (u ++ v)
  | altLeft {r s : Regex} {u : List Char} : Matches r u → Matches (.alt r s) u
  | altRight {r s : Regex} {u : List Char} : Matches s u → Matches (.alt r s) u
  | starNil {r : Regex} : Matches (.star r) []
  | starCons {r : Regex} {u v : List Char} :
      Matches r u → Matches (.star r) v → Matches (.star r) (u ++ v)
  | plus {r : Regex} {u v : List Char} :
      Matches r u → Matches (.star r) v → Matches (.plus r) (u ++ v)
  | optNone {r : Regex} : Matches (.opt r) []
  | optSome {r : Regex} {u : List Char} : Matches r u → Matches (.opt r) u

end Regex

end TableGrep
