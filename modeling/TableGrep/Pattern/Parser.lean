import TableGrep.Pattern.Regex
import TableGrep.Pattern.Error

/-!
# Reading patterns

The grammar, read by recursive descent over the characters of the pattern:

    expression := term ('|' expression)?
    term       := factor factor*
    factor     := atom ('*' | '+' | '?')?
    atom       := literal | '.' | '\' any | '(' expression ')'

The operator characters are `. * + ? | ( ) \`; every other character is a literal, and a
backslash makes the next character a literal whatever it is.

Before the grammar is tried, `Pattern.balanced` checks that parentheses pair up, skipping the
character after each backslash; an unbalanced pattern is refused whatever else is wrong with it.

Each rule returns the rest of the input with a proof that it is shorter, so the rules end by
the length of the input. A fault is reported with the input left unread where it was found;
`Pattern.parse` turns that into a position.
-/
namespace TableGrep.Pattern

/-- The characters with a meaning of their own. -/
def isOperator (c : Char) : Bool :=
  c == '.' || c == '*' || c == '+' || c == '?' || c == '|' || c == '(' || c == ')' || c == '\\'

/-- The characters that can start a factor, and so continue a concatenation. -/
def beginsFactor (c : Char) : Bool :=
  !isOperator c || c == '.' || c == '\\' || c == '('

/-- Open groups after reading the input from depth `d`, or none once a `)` closes nothing. The
character after a backslash is skipped. -/
def depthAfter : Nat → List Char → Option Nat
  | d, [] => some d
  | d, ['\\'] => some d
  | d, '\\' :: _ :: rest => depthAfter d rest
  | d, '(' :: rest => depthAfter (d + 1) rest
  | 0, ')' :: _ => none
  | d + 1, ')' :: rest => depthAfter d rest
  | d, _ :: rest => depthAfter d rest

/-- Parentheses pair up: no `)` closes nothing and none stays open. -/
def balanced (p : List Char) : Bool :=
  depthAfter 0 p == some 0

/-- A fault and the input left unread where it was found. -/
abbrev Stuck := SyntaxFault × List Char

/-- A reading of a non-empty prefix of `s`: a value and the rest, which is shorter. -/
abbrev Reading (s : List Char) (α : Type) :=
  Except Stuck (α × { r : List Char // r.length < s.length })

mutual

/-- `expression := term ('|' expression)?`; alternatives nest to the right. -/
def expression (s : List Char) : Reading s Regex :=
  match term s with
  | .error e => .error e
  | .ok (t, ⟨r, hr⟩) =>
    match r, hr with
    | c :: r', hr =>
      if c = '|' then
        match expression r' with
        | .error e => .error e
        | .ok (u, ⟨r'', hr''⟩) =>
          .ok (.alt t u, ⟨r'', by simp only [List.length_cons] at hr; omega⟩)
      else .ok (t, ⟨c :: r', hr⟩)
    | [], hr => .ok (t, ⟨[], hr⟩)
termination_by (s.length, 3)
decreasing_by
  · exact Prod.Lex.right _ (by decide)
  · simp only [List.length_cons] at hr
    exact Prod.Lex.left _ _ (by omega)

/-- `term := factor factor*`; the factors are joined from the left. -/
def term (s : List Char) : Reading s Regex :=
  match factor s with
  | .error e => .error e
  | .ok (f, ⟨r, hr⟩) =>
    match moreFactors f r with
    | .error e => .error e
    | .ok (t, ⟨r', hr'⟩) => .ok (t, ⟨r', Nat.lt_of_le_of_lt hr' hr⟩)
termination_by (s.length, 2)
decreasing_by
  · exact Prod.Lex.right _ (by decide)
  · exact Prod.Lex.left _ _ hr

/-- The factors after `acc` up to a `|`, a `)` or the end, joined onto `acc`. -/
def moreFactors (acc : Regex) (s : List Char) :
    Except Stuck (Regex × { r : List Char // r.length ≤ s.length }) :=
  match s with
  | [] => .ok (acc, ⟨[], Nat.le_refl _⟩)
  | c :: cs =>
    if c = '|' ∨ c = ')' then .ok (acc, ⟨c :: cs, Nat.le_refl _⟩)
    else if beginsFactor c then
      match factor (c :: cs) with
      | .error e => .error e
      | .ok (f, ⟨r, hr⟩) =>
        match moreFactors (.seq acc f) r with
        | .error e => .error e
        | .ok (t, ⟨r', hr'⟩) => .ok (t, ⟨r', by omega⟩)
    else .error (.unexpectedInput, c :: cs)
termination_by (s.length, 2)
decreasing_by
  · exact Prod.Lex.right _ (by decide)
  · exact Prod.Lex.left _ _ hr

/-- `factor := atom ('*' | '+' | '?')?`; a second operator right after the first is a fault. -/
def factor (s : List Char) : Reading s Regex :=
  match atom s with
  | .error e => .error e
  | .ok (a, ⟨r, hr⟩) =>
    match r, hr with
    | c :: cs, hr =>
      match Repetition.ofChar? c with
      | none => .ok (a, ⟨c :: cs, hr⟩)
      | some op =>
        if (cs.head?.bind Repetition.ofChar?).isSome then .error (.multipleRepetition, cs)
        else .ok (op.apply a, ⟨cs, by simp only [List.length_cons] at hr; omega⟩)
    | [], hr => .ok (a, ⟨[], hr⟩)
termination_by (s.length, 1)
decreasing_by exact Prod.Lex.right _ (by decide)

/-- `atom := literal | '.' | '\' any | '(' expression ')'`. -/
def atom (s : List Char) : Reading s Regex :=
  match s with
  | [] => .error (.unexpectedEnd, [])
  | c :: cs =>
    if c = '(' then
      match expression cs with
      | .error e => .error e
      | .ok (e, ⟨r, hr⟩) =>
        match r, hr with
        | c :: r', hr =>
          if c = ')' then .ok (e, ⟨r', by simp only [List.length_cons] at hr ⊢; omega⟩)
          else .error (.missingClosingParen, c :: r')
        | [], _ => .error (.missingClosingParen, [])
    else if c = '\\' then
      match cs with
      | [] => .error (.incompleteEscape, [])
      | d :: ds => .ok (.literal d, ⟨ds, by simp only [List.length_cons]; omega⟩)
    else if c = '.' then .ok (.wildcard, ⟨cs, by simp⟩)
    else if isOperator c then .error (.unexpectedInput, c :: cs)
    else .ok (.literal c, ⟨cs, by simp⟩)
termination_by (s.length, 0)
decreasing_by exact Prod.Lex.left _ _ (by simp)

end

/-- The syntax error for a fault found with `rest` unread in the pattern `p`. -/
def stuckAt (p : List Char) (f : SyntaxFault) (rest : List Char) : SyntaxError :=
  { fault := f, position := p.length - rest.length, found := rest.head? }

/-- Read a whole pattern; input left over after the top expression is a fault. -/
def parse (p : List Char) : Except SyntaxError Regex :=
  match expression p with
  | .error (f, rest) => .error (stuckAt p f rest)
  | .ok (r, ⟨[], _⟩) => .ok r
  | .ok (_, ⟨rest, _⟩) => .error (stuckAt p .unexpectedCharacter rest)

end TableGrep.Pattern
