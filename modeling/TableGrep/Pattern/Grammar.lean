import TableGrep.Pattern.Parser

/-!
# The grammar of patterns

The grammar that `Pattern.parse` reads, as inductive relations between the characters of a
pattern and its syntax tree:

    expression := term ('|' expression)?
    term       := factor factor*
    factor     := atom ('*' | '+' | '?')?
    atom       := non-operator character | '.' | '\' any | '(' expression ')'

`Factors acc p r` reads the factors after the first one of a term: `r` is `acc` with the
factors of `p` joined on from the left. A sentence is a pattern that `Expression` derives; its
language is the language of its tree, and a viable prefix is a prefix of some sentence.

`endsInEscape` and `openCount` walk a pattern the way the parenthesis check does, treating a
backslash and the character after it as one token.
-/
namespace TableGrep.Pattern

mutual

/-- `expression := term ('|' expression)?` -/
inductive Expression : List Char → Regex → Prop
  | term {p : List Char} {r : Regex} : Term p r → Expression p r
  | alt {p q : List Char} {r s : Regex} :
      Term p r → Expression q s → Expression (p ++ '|' :: q) (.alt r s)

/-- `term := factor factor*` -/
inductive Term : List Char → Regex → Prop
  | mk {p q : List Char} {r t : Regex} : Factor p r → Factors r q t → Term (p ++ q) t

/-- The factors after the first one of a term, joined onto `acc` from the left. -/
inductive Factors : Regex → List Char → Regex → Prop
  | nil (acc : Regex) : Factors acc [] acc
  | cons {acc : Regex} {p q : List Char} {r t : Regex} :
      Factor p r → Factors (.seq acc r) q t → Factors acc (p ++ q) t

/-- `factor := atom ('*' | '+' | '?')?` -/
inductive Factor : List Char → Regex → Prop
  | atom {p : List Char} {r : Regex} : Atom p r → Factor p r
  | repetition {p : List Char} {r : Regex} {c : Char} {op : Repetition} :
      Atom p r → Repetition.ofChar? c = some op → Factor (p ++ [c]) (op.apply r)

/-- `atom := non-operator character | '.' | '\' any | '(' expression ')'` -/
inductive Atom : List Char → Regex → Prop
  | literal {c : Char} : isOperator c = false → Atom [c] (.literal c)
  | wildcard : Atom ['.'] .wildcard
  | escape (c : Char) : Atom ['\\', c] (.literal c)
  | group {p : List Char} {r : Regex} : Expression p r → Atom ('(' :: (p ++ [')'])) r

end

/-- What may follow an expression: the end of the pattern or a closing parenthesis. -/
def followsExpression : List Char → Bool
  | [] => true
  | c :: _ => c == ')'

/-- What may follow a term: the end, a closing parenthesis or a `|`. -/
def followsTerm : List Char → Bool
  | [] => true
  | c :: _ => c == '|' || c == ')'

/-- What may follow a factor: anything but a repetition operator. -/
def followsFactor (rest : List Char) : Bool :=
  (rest.head?.bind Repetition.ofChar?).isNone

/-- A pattern that the grammar derives. -/
def Sentence (p : List Char) : Prop := ∃ r, Expression p r

/-- The words of a pattern: those of the tree of a derivation of it. -/
def Language (p w : List Char) : Prop := ∃ r, Expression p r ∧ r.Matches w

/-- A prefix of some sentence. -/
def ViablePrefix (q : List Char) : Prop := ∃ u, Sentence (q ++ u)

/-- Whether the pattern ends in a backslash that escapes nothing. -/
def endsInEscape : List Char → Bool
  | [] => false
  | ['\\'] => true
  | '\\' :: _ :: rest => endsInEscape rest
  | _ :: rest => endsInEscape rest

/-- The running count of `(` minus `)`, skipping the character after each backslash. -/
def openCount : List Char → Int
  | [] => 0
  | ['\\'] => 0
  | '\\' :: _ :: rest => openCount rest
  | '(' :: rest => 1 + openCount rest
  | ')' :: rest => openCount rest - 1
  | _ :: rest => openCount rest

/-- The token that ends at position `k` of `p` is a repetition operator: the character there
is one and no backslash escapes it. -/
def RepetitionBefore (p : List Char) (k : Nat) : Prop :=
  ∃ q c, p.take k = q ++ [c] ∧ (Repetition.ofChar? c).isSome ∧ endsInEscape q = false

end TableGrep.Pattern
