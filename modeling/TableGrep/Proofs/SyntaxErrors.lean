import TableGrep.Proofs.Parse
import TableGrep.Proofs.Compile

/-!
# Where a pattern is refused, and why

`compile` refuses a pattern in two ways. It first counts parentheses, skipping the character
after each backslash: `balanced_iff` says the count it keeps is `openCount` read along the
pattern, so a pattern is unbalanced exactly when that count drops below zero on some prefix or
ends away from zero. A balanced pattern is then read by the grammar.

When the grammar refuses it, the parser stops where the longest prefix of the pattern that some
sentence begins with ends (`parse_error`): what it has read is such a prefix, and its verdict
depends only on what it has read and on the one character after it, so no sentence begins with
that prefix followed by that character. The fault it names is fixed by the same two things
(`Blocked`): at the end of the pattern it is an unfinished escape or a missing atom, and before a
character it is a second repetition operator or a character that cannot stand there.

Two faults of the parser never reach a balanced pattern: a group left open, and input left over
after the whole expression. Both would need a parenthesis that the count does not pair, since
what a derivation reads is closed (`Closed`): it ends between tokens and leaves no group open.
-/
namespace TableGrep.Pattern

/-! ## Tokens: a backslash and the character after it are one -/

section Tokens

variable {c : Char} {l : List Char}

@[simp] theorem openCount_nil : openCount [] = 0 := rfl

@[simp] theorem openCount_backslash : openCount ['\\'] = 0 := rfl

@[simp] theorem openCount_escape (d : Char) : openCount ('\\' :: d :: l) = openCount l := rfl

@[simp] theorem openCount_open : openCount ('(' :: l) = 1 + openCount l := rfl

@[simp] theorem openCount_close : openCount (')' :: l) = openCount l - 1 := rfl

theorem openCount_cons (h₁ : c ≠ '\\') (h₂ : c ≠ '(') (h₃ : c ≠ ')') :
    openCount (c :: l) = openCount l :=
  openCount.eq_6 c l (fun h _ => h₁ h) (fun _ _ h _ => h₁ h) h₂ h₃

@[simp] theorem endsInEscape_nil : endsInEscape [] = false := rfl

@[simp] theorem endsInEscape_backslash : endsInEscape ['\\'] = true := rfl

@[simp] theorem endsInEscape_escape (d : Char) : endsInEscape ('\\' :: d :: l) = endsInEscape l :=
  rfl

theorem endsInEscape_cons (h : c ≠ '\\') : endsInEscape (c :: l) = endsInEscape l :=
  endsInEscape.eq_4 c l (fun h' _ => h h') (fun _ _ h' _ => h h')

/-- Text after a token boundary is tokenized on its own. -/
theorem endsInEscape_append {a : List Char} (h : endsInEscape a = false) (b : List Char) :
    endsInEscape (a ++ b) = endsInEscape b := by
  fun_induction endsInEscape a with
  | case1 => rfl
  | case2 => simp at h
  | case3 d rest ih => simpa using ih h
  | case4 d rest h₁ h₂ ih =>
    have hd : d ≠ '\\' := fun hd => by cases rest <;> simp_all
    rw [List.cons_append, endsInEscape_cons hd, ih h]

/-- Counts add up across a token boundary. -/
theorem openCount_append {a : List Char} (h : endsInEscape a = false) (b : List Char) :
    openCount (a ++ b) = openCount a + openCount b := by
  fun_induction openCount a with
  | case1 => simp
  | case2 => simp at h
  | case3 d rest ih => simpa using ih h
  | case4 rest ih =>
    rw [endsInEscape_cons (by decide)] at h
    simp [ih h, Int.add_assoc]
  | case5 rest ih =>
    rw [endsInEscape_cons (by decide)] at h
    simp [ih h]
    omega
  | case6 d rest h₁ h₂ h₃ h₄ ih =>
    have hd : d ≠ '\\' := fun hd => by cases rest <;> simp_all
    rw [endsInEscape_cons hd] at h
    rw [List.cons_append, openCount_cons hd h₃ h₄, ih h]

end Tokens

/-! ## The parenthesis check -/

theorem forall_count_take_cons {k : Int} {c : Char} {l : List Char} :
    (∀ n, 0 ≤ k + openCount ((c :: l).take n)) ↔
      0 ≤ k ∧ ∀ n, 0 ≤ k + openCount (c :: l.take n) :=
  ⟨fun h => ⟨by simpa using h 0, fun n => h (n + 1)⟩,
    fun h n => by cases n <;> simp [h.1, h.2]⟩

/-- The depth that the check keeps from depth `d` is `d` plus the count, and it fails exactly
when `d` plus the count of some prefix is negative. -/
theorem depthAfter_eq_some_iff {d e : Nat} {s : List Char} :
    depthAfter d s = some e ↔
      (∀ n, 0 ≤ (d : Int) + openCount (s.take n)) ∧ (e : Int) = d + openCount s := by
  fun_induction depthAfter d s with
  | case1 d => simp [eq_comm]
  | case2 d => simp [forall_count_take_cons, eq_comm]
  | case3 d c rest ih =>
    -- the escape pair is one token: the prefix that ends inside it counts as the empty one
    rw [ih]
    refine and_congr_left fun _ => ⟨fun h n => ?_, fun h n => by simpa using h (n + 2)⟩
    rcases n with _ | _ | n <;> simp [h]
  | case5 rest =>
    simp only [reduceCtorEq, false_iff, not_and]
    intro h
    have := h 1
    simp at this
  | case4 d rest ih | case6 d rest ih =>
    -- a parenthesis moves the depth by one, as it moves the count
    simp only [forall_count_take_cons, openCount_open, openCount_close, ih]
    constructor
    · rintro ⟨h, he⟩
      refine ⟨⟨by omega, fun n => ?_⟩, by omega⟩
      have := h n
      omega
    · rintro ⟨⟨-, h⟩, he⟩
      refine ⟨fun n => ?_, by omega⟩
      have := h n
      omega
  | case7 d c rest h₁ h₂ h₃ h₄ h₅ ih =>
    have hc : c ≠ '\\' := fun hc => by cases rest <;> simp_all
    have hc' : c ≠ ')' := fun hc' => by cases d <;> simp_all
    simp [forall_count_take_cons, openCount_cons hc h₃ hc', ih]

/-- A pattern is balanced exactly when the count of no prefix is negative and the count of the
whole is zero. -/
theorem balanced_iff {p : List Char} :
    balanced p = true ↔ (∀ n, 0 ≤ openCount (p.take n)) ∧ openCount p = 0 := by
  rw [balanced, beq_iff_eq, depthAfter_eq_some_iff]
  simp [eq_comm]

/-! ## What a derivation reads is closed -/

/-- Text that ends between tokens and leaves no group open. -/
def Closed (q : List Char) : Prop := endsInEscape q = false ∧ openCount q = 0

namespace Closed

theorem nil : Closed [] := ⟨rfl, rfl⟩

theorem append {a b : List Char} (ha : Closed a) (hb : Closed b) : Closed (a ++ b) :=
  ⟨by rw [endsInEscape_append ha.1, hb.1], by rw [openCount_append ha.1, ha.2, hb.2]; rfl⟩

theorem single {c : Char} (h₁ : c ≠ '\\') (h₂ : c ≠ '(') (h₃ : c ≠ ')') : Closed [c] :=
  ⟨by rw [endsInEscape_cons h₁]; rfl, by rw [openCount_cons h₁ h₂ h₃]; rfl⟩

theorem escape (c : Char) : Closed ['\\', c] := ⟨rfl, rfl⟩

theorem group {q : List Char} (h : Closed q) : Closed ('(' :: (q ++ [')'])) := by
  refine ⟨?_, ?_⟩
  · rw [endsInEscape_cons (by decide), endsInEscape_append h.1]
    rfl
  · rw [openCount_open, openCount_append h.1, h.2]
    rfl

end Closed

theorem closed_literal {c : Char} (h : isOperator c = false) : Closed [c] :=
  Closed.single (by rintro rfl; simp [isOperator] at h) (by rintro rfl; simp [isOperator] at h)
    (by rintro rfl; simp [isOperator] at h)

theorem closed_repetition {c : Char} {op : Repetition} (h : Repetition.ofChar? c = some op) :
    Closed [c] := by
  refine Closed.single ?_ ?_ ?_ <;> rintro rfl <;> simp [Repetition.ofChar?] at h

mutual

theorem Expression.closed {p : List Char} {r : Regex} : Expression p r → Closed p
  | .term ht => ht.closed
  | .alt ht he => ht.closed.append ((Closed.single (by decide) (by decide) (by decide)).append he.closed)
termination_by structural d => d

theorem Term.closed {p : List Char} {r : Regex} : Term p r → Closed p
  | .mk hf hs => hf.closed.append hs.closed
termination_by structural d => d

theorem Factors.closed {acc : Regex} {p : List Char} {r : Regex} : Factors acc p r → Closed p
  | .nil _ => .nil
  | .cons hf hs => hf.closed.append hs.closed
termination_by structural d => d

theorem Factor.closed {p : List Char} {r : Regex} : Factor p r → Closed p
  | .atom ha => ha.closed
  | .repetition ha hop => ha.closed.append (closed_repetition hop)
termination_by structural d => d

theorem Atom.closed {p : List Char} {r : Regex} : Atom p r → Closed p
  | .literal hc => closed_literal hc
  | .wildcard => Closed.single (by decide) (by decide) (by decide)
  | .escape c => .escape c
  | .group he => he.closed.group
termination_by structural d => d

end

/-! ## The faults -/

/-- The text ends in a repetition operator that no backslash escapes. -/
def EndsInRepetition (q : List Char) : Prop :=
  ∃ q' c, q = q' ++ [c] ∧ (Repetition.ofChar? c).isSome ∧ endsInEscape q' = false

section Faults

variable {pre q rest : List Char}

theorem not_endsInRepetition_nil : ¬EndsInRepetition [] := by
  rintro ⟨q', c, h, -⟩
  have := congrArg List.length h
  simp at this

theorem not_endsInRepetition_concat {c : Char} (h : Repetition.ofChar? c = none) :
    ¬EndsInRepetition (q ++ [c]) := by
  rintro ⟨q', c', hq, hc', -⟩
  obtain ⟨-, hc⟩ := List.append_inj' hq rfl
  rw [← List.singleton_inj.1 hc, h] at hc'
  cases hc'

theorem EndsInRepetition.append_left (h : EndsInRepetition q) (he : endsInEscape pre = false) :
    EndsInRepetition (pre ++ q) := by
  obtain ⟨q', c, rfl, hc, hq'⟩ := h
  exact ⟨pre ++ q', c, by simp, hc, by rw [endsInEscape_append he, hq']⟩

theorem EndsInRepetition.of_append (h : EndsInRepetition (pre ++ q)) (he : endsInEscape pre = false)
    (hq : q ≠ []) : EndsInRepetition q := by
  obtain ⟨q', c, hpq, hc, hq'⟩ := h
  obtain ⟨l, b, rfl⟩ := (List.eq_nil_or_concat q).resolve_left hq
  rw [List.concat_eq_append] at hpq ⊢
  rw [← List.append_assoc] at hpq
  obtain ⟨hl, hb⟩ := List.append_inj' hpq rfl
  obtain rfl := List.singleton_inj.1 hb
  subst hl
  exact ⟨l, b, rfl, hc, by rwa [endsInEscape_append he] at hq'⟩

/-- What a fault says about the text `q` read before it and the text `rest` left after it. -/
def Blocked (q rest : List Char) : SyntaxFault → Prop
  | .unexpectedEnd => rest = [] ∧ endsInEscape q = false
  | .incompleteEscape => rest = [] ∧ endsInEscape q = true
  | .missingClosingParen => rest = [] ∧ 0 < openCount q
  | .unexpectedInput => rest ≠ [] ∧ (followsFactor rest = false → ¬EndsInRepetition q)
  | .multipleRepetition => followsFactor rest = false ∧ EndsInRepetition q
  | .unexpectedCharacter => False

/-- A fault stays blocked when closed text is read before it. -/
theorem Blocked.prepend {f : SyntaxFault} (h : Blocked q rest f) (he : endsInEscape pre = false)
    (hc : 0 ≤ openCount pre) (hr : q = [] → followsFactor rest = false → ¬EndsInRepetition pre) :
    Blocked (pre ++ q) rest f := by
  cases f with
  | unexpectedCharacter => exact h.elim
  | unexpectedInput =>
    refine ⟨h.1, fun hf hrep => ?_⟩
    by_cases hq : q = []
    · subst hq
      exact hr rfl hf (by simpa using hrep)
    · exact h.2 hf (hrep.of_append he hq)
  | unexpectedEnd => exact ⟨h.1, by rw [endsInEscape_append he]; exact h.2⟩
  | incompleteEscape => exact ⟨h.1, by rw [endsInEscape_append he]; exact h.2⟩
  | missingClosingParen =>
    have := h.2
    exact ⟨h.1, by rw [openCount_append he]; omega⟩
  | multipleRepetition => exact ⟨h.1, h.2.append_left he⟩

/-- A fault found after a factor is blocked: nothing after a factor starts with a repetition. -/
theorem Blocked.after_factor {f : SyntaxFault} {y : Regex} (h : Blocked q rest f)
    (hd : Factor pre y) (hfol : followsFactor (q ++ rest) = true) : Blocked (pre ++ q) rest f := by
  refine h.prepend hd.closed.1 hd.closed.2.ge fun hq hf => ?_
  subst hq
  simp [hf] at hfol

end Faults

/-- A rule of the parser that has read `q` and stopped with the fault `f` before `rest`: some
continuation of `q` derives the rule, and the rule stops so whatever follows `q`, as long as
the next character is the same. -/
structure Stalls {β : List Char → Type} (read : (s : List Char) → Except Stuck (β s))
    (Derives : List Char → Prop) (q rest : List Char) (f : SyntaxFault) : Prop where
  viable : ∃ u, Derives (q ++ u)
  stable : ∀ rest', rest'.head? = rest.head? → read (q ++ rest') = .error (f, rest')
  blocked : Blocked q rest f


/-! ## The parser's steps that fail

Each rule of the parser, once it is known that a rule it calls fails, or that the rule itself
meets a character it cannot read. -/

section FailingSteps

variable {s r : List Char} {x : Regex} {e : Stuck}

theorem expression_error_of_term (h : term s = .error e) : expression s = .error e := by
  rw [expression, h]

theorem expression_error_of_alt {h : ('|' :: r).length < s.length}
    (e₁ : term s = .ok (x, ⟨'|' :: r, h⟩)) (e₂ : expression r = .error e) :
    expression s = .error e := by
  rw [expression, e₁]
  simp [e₂]

theorem term_error_of_factor (h : factor s = .error e) : term s = .error e := by
  rw [term, h]

theorem term_error_of_moreFactors {h : r.length < s.length} (e₁ : factor s = .ok (x, ⟨r, h⟩))
    (e₂ : moreFactors x r = .error e) : term s = .error e := by
  rw [term, e₁]
  simp [e₂]

variable {acc : Regex} {c : Char} {cs : List Char}

theorem moreFactors_error_of_factor (hc : ¬(c = '|' ∨ c = ')')) (hb : beginsFactor c = true)
    (h : factor (c :: cs) = .error e) : moreFactors acc (c :: cs) = .error e := by
  rw [moreFactors.eq_def]
  simp only [hc, hb, if_false, if_true, h]

theorem moreFactors_error_of_more (hc : ¬(c = '|' ∨ c = ')')) (hb : beginsFactor c = true)
    {h : r.length < (c :: cs).length} (e₁ : factor (c :: cs) = .ok (x, ⟨r, h⟩))
    (e₂ : moreFactors (.seq acc x) r = .error e) : moreFactors acc (c :: cs) = .error e := by
  rw [moreFactors.eq_def]
  simp only [hc, hb, if_false, if_true, e₁, e₂]

theorem moreFactors_unexpected (hc : ¬(c = '|' ∨ c = ')')) (hb : ¬beginsFactor c = true) :
    moreFactors acc (c :: cs) = .error (.unexpectedInput, c :: cs) := by
  rw [moreFactors.eq_def]
  simp [hc, hb]

theorem factor_error_of_atom (h : atom s = .error e) : factor s = .error e := by
  rw [factor, h]

theorem factor_error_twice {op : Repetition} {h : (c :: r).length < s.length}
    (e₁ : atom s = .ok (x, ⟨c :: r, h⟩)) (hop : Repetition.ofChar? c = some op)
    (hr : followsFactor r = false) : factor s = .error (.multipleRepetition, r) := by
  have hsome : (r.head?.bind Repetition.ofChar?).isSome = true := by
    simpa [followsFactor] using hr
  rw [factor, e₁]
  simp only [hop, hsome, if_true]

theorem atom_nil : atom [] = .error (.unexpectedEnd, []) := by
  rw [atom.eq_def]

theorem atom_backslash : atom ['\\'] = .error (.incompleteEscape, []) := by
  rw [atom.eq_def]
  simp

theorem atom_error_of_group (h : expression cs = .error e) : atom ('(' :: cs) = .error e := by
  rw [atom.eq_def]
  simp [h]

theorem atom_open {h : [].length < cs.length} (e : expression cs = .ok (x, ⟨[], h⟩)) :
    atom ('(' :: cs) = .error (.missingClosingParen, []) := by
  rw [atom.eq_def]
  simp [e]

theorem atom_unexpected (h₁ : ¬c = '(') (h₂ : ¬c = '\\') (h₃ : ¬c = '.')
    (hop : isOperator c = true) : atom (c :: cs) = .error (.unexpectedInput, c :: cs) := by
  rw [atom.eq_def]
  simp [h₁, h₂, h₃, hop]

end FailingSteps

/-! ## What the parser reads before it fails -/

section Sound

variable {s r : List Char} {x : Regex}

theorem term_sound {h : r.length < s.length} (e : term s = .ok (x, ⟨r, h⟩)) :
    ∃ q, s = q ++ r ∧ Term q x ∧ followsTerm r = true :=
  parser_sound.2.1 s x r h e

theorem factor_sound {h : r.length < s.length} (e : factor s = .ok (x, ⟨r, h⟩)) :
    ∃ q, s = q ++ r ∧ Factor q x ∧ followsFactor r = true :=
  parser_sound.2.2.2.1 s x r h e

theorem atom_sound {h : r.length < s.length} (e : atom s = .ok (x, ⟨r, h⟩)) :
    ∃ q, s = q ++ r ∧ Atom q x :=
  parser_sound.2.2.2.2 s x r h e

end Sound

theorem head?_append_congr {q a b : List Char} (h : a.head? = b.head?) :
    (q ++ a).head? = (q ++ b).head? := by
  simp [List.head?_append, h]

theorem followsFactor_congr {a b : List Char} (h : a.head? = b.head?) :
    followsFactor a = followsFactor b := by
  simp [followsFactor, h]

/-- The outcome of a rule is typed by its input, so equal inputs are passed on by hand. -/
theorem error_of_input_eq {β : List Char → Type} {read : (s : List Char) → Except Stuck (β s)}
    {s s' : List Char} {e : Stuck} (h : s = s') (hr : read s' = .error e) : read s = .error e := by
  subst h
  exact hr

theorem Stalls.lift {β β' : List Char → Type} {read : (s : List Char) → Except Stuck (β s)}
    {read' : (s : List Char) → Except Stuck (β' s)} {D D' : List Char → Prop}
    {q rest : List Char} {f : SyntaxFault} (h : Stalls read D q rest f) (hD : ∀ w, D w → D' w)
    (hread : ∀ s e, read s = .error e → read' s = .error e) : Stalls read' D' q rest f :=
  ⟨h.viable.imp fun _ => hD _, fun rest' hr => hread _ _ (h.stable rest' hr), h.blocked⟩

/-- Where a rule of the parser fails, it has read a prefix of its input that some continuation
derives, and it fails so whatever follows that prefix, as long as the next character is the same. -/
theorem parser_stalls :
    (∀ s f rest, expression s = .error (f, rest) →
      ∃ q, s = q ++ rest ∧ Stalls expression (fun w => ∃ x, Expression w x) q rest f) ∧
    (∀ s f rest, term s = .error (f, rest) →
      ∃ q, s = q ++ rest ∧ Stalls term (fun w => ∃ x, Term w x) q rest f) ∧
    (∀ acc s f rest, moreFactors acc s = .error (f, rest) →
      ∃ q, s = q ++ rest ∧ Stalls (moreFactors acc) (fun w => ∃ x, Factors acc w x) q rest f) ∧
    (∀ s f rest, factor s = .error (f, rest) →
      ∃ q, s = q ++ rest ∧ Stalls factor (fun w => ∃ x, Factor w x) q rest f) ∧
    (∀ s f rest, atom s = .error (f, rest) →
      ∃ q, s = q ++ rest ∧ Stalls atom (fun w => ∃ x, Atom w x) q rest f) := by
  apply expression.mutual_induct
  -- expression: the term fails
  · intro s e he ih f rest heq
    rw [expression_error_of_term he] at heq
    cases heq
    obtain ⟨q, rfl, hs⟩ := ih f rest he
    exact ⟨q, rfl, hs.lift (fun _ => Exists.imp fun _ => Expression.term)
      fun _ _ => expression_error_of_term⟩
  -- expression: the alternative after `|` fails
  · intro s t r' e he _ _ ht _ ihe f rest heq
    rw [expression_error_of_alt ht he] at heq
    cases heq
    obtain ⟨q', rfl, hs⟩ := ihe f rest he
    obtain ⟨q, hq, hd, -⟩ := term_sound ht
    have hbar : Closed (q ++ ['|']) := hd.closed.append (.single (by decide) (by decide) (by decide))
    refine ⟨q ++ ['|'] ++ q', by simp [hq], ⟨?_, fun rest' hr' => ?_, ?_⟩⟩
    · obtain ⟨u, x, hx⟩ := hs.viable
      exact ⟨u, _, by simpa using Expression.alt hd hx⟩
    · obtain ⟨_, e₁⟩ := term_complete hd ('|' :: (q' ++ rest')) rfl
      exact error_of_input_eq (by simp) (expression_error_of_alt e₁ (hs.stable rest' hr'))
    · exact hs.blocked.prepend hbar.1 hbar.2.ge fun _ _ => not_endsInRepetition_concat rfl
  -- expression: `term | expression`
  · intro s t r' t' r'' _ he _ _ ht _ _ f rest heq
    rw [expression, ht] at heq
    simp [he] at heq
  -- expression: a term before a character other than `|`
  · intro s t c r' _ hc _ ht _ f rest heq
    rw [expression, ht] at heq
    simp [hc] at heq
  -- expression: a term at the end of the pattern
  · intro s t _ _ ht _ f rest heq
    rw [expression, ht] at heq
    cases heq
  -- term: the first factor fails
  · intro s e he ih f rest heq
    rw [term_error_of_factor he] at heq
    cases heq
    obtain ⟨q, rfl, hs⟩ := ih f rest he
    exact ⟨q, rfl, hs.lift (fun _ => Exists.imp fun _ hx => by simpa using Term.mk hx (.nil _))
      fun _ _ => term_error_of_factor⟩
  -- term: a later factor fails
  · intro s y r _ hf e he _ ihm f rest heq
    rw [term_error_of_moreFactors hf he] at heq
    cases heq
    obtain ⟨q', rfl, hs⟩ := ihm f rest he
    obtain ⟨q, hq, hd, hfol⟩ := factor_sound hf
    refine ⟨q ++ q', by simp [hq], ⟨?_, fun rest' hr' => ?_, ?_⟩⟩
    · obtain ⟨u, x, hx⟩ := hs.viable
      exact ⟨u, _, by simpa using Term.mk hd hx⟩
    · have hfol' : followsFactor (q' ++ rest') = true := by
        rw [followsFactor_congr (head?_append_congr hr'), hfol]
      obtain ⟨_, e₁⟩ := factor_complete hd (q' ++ rest') hfol'
      exact error_of_input_eq (by simp) (term_error_of_moreFactors e₁ (hs.stable rest' hr'))
    · exact hs.blocked.after_factor hd hfol
  -- term: `factor factor*`
  · intro s y r _ hf t r' _ hm _ _ f rest heq
    rw [term, hf] at heq
    simp [hm] at heq
  -- more factors: the end of the pattern
  · intro acc f rest heq
    rw [moreFactors.eq_def] at heq
    cases heq
  -- more factors: a `|` or a `)` ends the term
  · intro acc c cs hc f rest heq
    rw [moreFactors.eq_def] at heq
    simp [hc] at heq
  -- more factors: the next factor fails
  · intro acc c cs hc hb e he ih f rest heq
    rw [moreFactors_error_of_factor hc hb he] at heq
    cases heq
    obtain ⟨q, hq, hs⟩ := ih f rest he
    refine ⟨q, hq, ⟨?_, fun rest' hr' => ?_, hs.blocked⟩⟩
    · obtain ⟨u, x, hx⟩ := hs.viable
      exact ⟨u, _, by simpa using Factors.cons hx (.nil _)⟩
    · have hhead : (q ++ rest').head? = some c := by rw [head?_append_congr hr', ← hq]; rfl
      obtain ⟨t, ht⟩ := List.head?_eq_some_iff.1 hhead
      rw [ht]
      exact moreFactors_error_of_factor hc hb (ht ▸ hs.stable rest' hr')
  -- more factors: the factors after the next fail
  · intro acc c cs hc hb y r _ hf e he _ ihm f rest heq
    rw [moreFactors_error_of_more hc hb hf he] at heq
    cases heq
    obtain ⟨q', rfl, hs⟩ := ihm f rest he
    obtain ⟨q, hq, hd, hfol⟩ := factor_sound hf
    obtain ⟨d, t, rfl, -⟩ := hd.head
    obtain ⟨rfl, rfl⟩ : c = d ∧ cs = t ++ (q' ++ rest) := by simpa using hq
    refine ⟨c :: t ++ q', by simp, ⟨?_, fun rest' hr' => ?_, ?_⟩⟩
    · obtain ⟨u, x, hx⟩ := hs.viable
      exact ⟨u, _, by simpa using Factors.cons hd hx⟩
    · have hfol' : followsFactor (q' ++ rest') = true := by
        rw [followsFactor_congr (head?_append_congr hr'), hfol]
      obtain ⟨_, e₁⟩ := factor_complete hd (q' ++ rest') hfol'
      exact error_of_input_eq (by simp) (moreFactors_error_of_more hc hb e₁ (hs.stable rest' hr'))
    · exact hs.blocked.after_factor hd hfol
  -- more factors: a factor and the factors after it
  · intro acc c cs hc hb y r _ hf t r' _ hm _ _ f rest heq
    rw [moreFactors.eq_def] at heq
    simp [hc, hb, hf, hm] at heq
  -- more factors: a character that cannot start a factor
  · intro acc c cs hc hb f rest heq
    rw [moreFactors_unexpected hc hb] at heq
    cases heq
    refine ⟨[], rfl, ⟨⟨[], _, .nil acc⟩, fun rest' hr' => ?_, by simp, fun _ => not_endsInRepetition_nil⟩⟩
    obtain ⟨t, rfl⟩ := List.head?_eq_some_iff.1 hr'
    exact moreFactors_unexpected hc hb
  -- factor: the atom fails
  · intro s e he ih f rest heq
    rw [factor_error_of_atom he] at heq
    cases heq
    obtain ⟨q, rfl, hs⟩ := ih f rest he
    exact ⟨q, rfl, hs.lift (fun _ => Exists.imp fun _ => Factor.atom) fun _ _ => factor_error_of_atom⟩
  -- factor: an atom before a character that is no repetition
  · intro s a c cs _ hop _ ha _ f rest heq
    rw [factor, ha] at heq
    simp [hop] at heq
  -- factor: two repetitions in a row
  · intro s a c r' _ op hop hnext _ ha _ f rest heq
    have hnext' : followsFactor r' = false := by simpa [followsFactor] using hnext
    rw [factor_error_twice ha hop hnext'] at heq
    cases heq
    obtain ⟨q, hq, hd⟩ := atom_sound ha
    refine ⟨q ++ [c], by simp [hq], ⟨⟨[], _, by simpa using Factor.repetition hd hop⟩,
      fun rest' hr' => ?_, hnext', q, c, rfl, by simp [hop], hd.closed.1⟩⟩
    obtain ⟨_, e₁⟩ := atom_complete hd (c :: rest')
    exact error_of_input_eq (by simp)
      (factor_error_twice e₁ hop (by rw [followsFactor_congr hr', hnext']))
  -- factor: an atom and its repetition
  · intro s a c r' _ op hop hnext _ ha _ f rest heq
    rw [factor, ha] at heq
    simp [hop, hnext] at heq
  -- factor: an atom at the end of the pattern
  · intro s a _ _ ha _ f rest heq
    rw [factor, ha] at heq
    cases heq
  -- atom: the end of the pattern
  · intro f rest heq
    rw [atom_nil] at heq
    cases heq
    refine ⟨[], rfl, ⟨['a'], _, .literal rfl⟩, fun rest' hr' => ?_, rfl, rfl⟩
    rw [List.head?_eq_none_iff.1 hr']
    exact atom_nil
  -- atom: a group whose expression fails
  · intro cs e he ih f rest heq
    rw [atom_error_of_group he] at heq
    cases heq
    obtain ⟨q, rfl, hs⟩ := ih f rest he
    refine ⟨'(' :: q, rfl, ⟨?_, fun rest' hr' => atom_error_of_group (hs.stable rest' hr'), ?_⟩⟩
    · obtain ⟨u, x, hx⟩ := hs.viable
      exact ⟨u ++ [')'], _, by simpa using Atom.group hx⟩
    · have hopen : endsInEscape ['('] = false := rfl
      exact hs.blocked.prepend hopen (by decide)
        fun _ _ => not_endsInRepetition_concat (q := []) rfl
  -- atom: a group
  · intro cs y r' _ _ he _ f rest heq
    rw [atom.eq_def] at heq
    simp [he] at heq
  -- atom: a group followed by something other than `)`, which no expression leaves
  · intro cs y c r' _ hc _ he _ f rest heq
    obtain ⟨-, -, -, hf⟩ := expression_sound he
    simp [followsExpression] at hf
    exact (hc hf).elim
  -- atom: a group left open at the end of the pattern
  · intro cs y _ _ he _ f rest heq
    rw [atom_open he] at heq
    cases heq
    obtain ⟨q, hq, hd, -⟩ := expression_sound he
    rw [List.append_nil] at hq
    subst hq
    refine ⟨'(' :: cs, by simp, ⟨[')'], _, by simpa using Atom.group hd⟩, fun rest' hr' => ?_,
      rfl, by simp [hd.closed.2]⟩
    rw [List.head?_eq_none_iff.1 hr', List.append_nil]
    exact atom_open he
  -- atom: a backslash at the end
  · intro _ f rest heq
    rw [atom_backslash] at heq
    cases heq
    refine ⟨['\\'], rfl, ⟨['a'], _, .escape 'a'⟩, fun rest' hr' => ?_, rfl, rfl⟩
    rw [List.head?_eq_none_iff.1 hr']
    exact atom_backslash
  -- atom: an escaped character
  · intro c cs _ f rest heq
    rw [atom.eq_def] at heq
    simp at heq
  -- atom: the wildcard
  · intro cs _ _ f rest heq
    rw [atom.eq_def] at heq
    simp at heq
  -- atom: an operator that cannot start an atom
  · intro c cs h₁ h₂ h₃ hop f rest heq
    rw [atom_unexpected h₁ h₂ h₃ hop] at heq
    cases heq
    refine ⟨[], rfl, ⟨['a'], _, .literal rfl⟩, fun rest' hr' => ?_, by simp,
      fun _ => not_endsInRepetition_nil⟩
    obtain ⟨t, rfl⟩ := List.head?_eq_some_iff.1 hr'
    exact atom_unexpected h₁ h₂ h₃ hop
  -- atom: a literal character
  · intro c cs h₁ h₂ h₃ hop f rest heq
    rw [atom.eq_def] at heq
    simp [h₁, h₂, h₃, hop] at heq

/-! ## Whole patterns -/

section Parse

variable {p : List Char} {e : SyntaxError}

theorem parse_of_error {f : SyntaxFault} {rest : List Char}
    (h : expression p = .error (f, rest)) : parse p = .error (stuckAt p f rest) := by
  unfold parse
  rw [h]

theorem parse_of_leftover {x : Regex} {c : Char} {rest : List Char}
    {h : (c :: rest).length < p.length} (e : expression p = .ok (x, ⟨c :: rest, h⟩)) :
    parse p = .error (stuckAt p .unexpectedCharacter (c :: rest)) := by
  unfold parse
  rw [e]

theorem parse_error_of_not_sentence (h : ¬Sentence p) : ∃ e, parse p = .error e := by
  cases hp : parse p with
  | error e => exact ⟨e, rfl⟩
  | ok r => exact absurd ⟨r, parse_eq_ok_iff.1 hp⟩ h

/-- Where `parse` refuses a pattern, it has read a viable prefix `q` that no sentence continues with
the next character, and the error stands at the end of `q`. -/
theorem parse_error (h : parse p = .error e) :
    ∃ q rest, p = q ++ rest ∧ e.position = q.length ∧ e.found = rest.head? ∧ ViablePrefix q ∧
      (∀ rest', rest'.head? = rest.head? → ¬Sentence (q ++ rest')) ∧
      (Blocked q rest e.fault ∨
        e.fault = .unexpectedCharacter ∧ Closed q ∧ rest.head? = some ')') := by
  cases he : expression p with
  | error st =>
    obtain ⟨f, rest⟩ := st
    rw [parse_of_error he] at h
    cases h
    obtain ⟨q, rfl, hs⟩ := parser_stalls.1 _ f rest he
    refine ⟨q, rest, rfl, by simp [stuckAt], rfl, ?_, fun rest' hr' hsent => ?_, .inl hs.blocked⟩
    · obtain ⟨u, x, hx⟩ := hs.viable
      exact ⟨u, x, hx⟩
    · obtain ⟨x, hx⟩ := hsent
      have hp := parse_eq_ok_iff.2 hx
      rw [parse_of_error (hs.stable rest' hr')] at hp
      cases hp
  | ok v =>
    obtain ⟨x, rest, hr⟩ := v
    obtain ⟨q, rfl, hx, hf⟩ := expression_sound he
    cases rest with
    | nil =>
      unfold parse at h
      rw [he] at h
      cases h
    | cons c w =>
      -- what an expression leaves starts with `)`
      obtain rfl : c = ')' := by simpa [followsExpression] using hf
      rw [parse_of_leftover he] at h
      cases h
      refine ⟨q, ')' :: w, rfl, by simp [stuckAt], rfl, ⟨[], x, by simpa using hx⟩,
        fun rest' hr' hsent => ?_, .inr ⟨rfl, hx.closed, rfl⟩⟩
      obtain ⟨y, hy⟩ := hsent
      obtain ⟨w', rfl⟩ := List.head?_eq_some_iff.1 hr'
      obtain ⟨_, e₁⟩ := expression_complete hx (')' :: w') rfl
      have hp := parse_eq_ok_iff.2 hy
      rw [parse_of_leftover e₁] at hp
      cases hp

end Parse

/-- `k` is the length of the longest prefix of `p` that some sentence begins with. -/
def LongestViablePrefix (p : List Char) (k : Nat) : Prop :=
  k ≤ p.length ∧ ViablePrefix (p.take k) ∧ ∀ n, k < n → n ≤ p.length → ¬ViablePrefix (p.take n)

/-- A viable prefix `q` that no sentence continues with the first character of `rest` is the
longest viable prefix of `q ++ rest`. -/
theorem longestViablePrefix_of_stop {q rest : List Char} (hv : ViablePrefix q)
    (hn : ∀ rest', rest'.head? = rest.head? → ¬Sentence (q ++ rest')) :
    LongestViablePrefix (q ++ rest) q.length := by
  refine ⟨by simp, by simpa using hv, fun n hn₁ hn₂ hvn => ?_⟩
  obtain ⟨u, hu⟩ := hvn
  have hm : 0 < n - q.length := by omega
  have hrest : rest ≠ [] := by
    rintro rfl
    simp at hn₂
    omega
  -- the longer prefix is `q` followed by a non-empty prefix of `rest`
  rw [List.take_append, List.take_of_length_le (by omega), List.append_assoc] at hu
  refine hn _ ?_ hu
  obtain ⟨c, w, rfl⟩ := List.exists_cons_of_ne_nil hrest
  obtain ⟨m, hm'⟩ : ∃ m, n - q.length = m + 1 := ⟨_, (Nat.succ_pred_eq_of_pos hm).symm⟩
  simp [hm']

/-- A repetition operator stands at position `k` of `p`, right after a token that is one. -/
def RepeatedAt (p : List Char) (k : Nat) : Prop :=
  (p[k]?.bind Repetition.ofChar?).isSome ∧ RepetitionBefore p k

theorem getElem?_length_append (q rest : List Char) : (q ++ rest)[q.length]? = rest.head? := by
  rw [List.getElem?_append_right (Nat.le_refl _), Nat.sub_self, List.head?_eq_getElem?]

theorem repeatedAt_append_iff {q rest : List Char} :
    RepeatedAt (q ++ rest) q.length ↔ followsFactor rest = false ∧ EndsInRepetition q := by
  unfold RepeatedAt RepetitionBefore EndsInRepetition
  rw [getElem?_length_append, List.take_left' rfl, followsFactor, Option.isNone_eq_false_iff]

/-- Where `parse` refuses a pattern, the error stands at the end of the longest prefix of the
pattern that some sentence begins with, and names the character there. -/
theorem parse_error_position {p : List Char} {e : SyntaxError} (h : parse p = .error e) :
    LongestViablePrefix p e.position ∧ e.found = p[e.position]? := by
  obtain ⟨q, rest, rfl, hpos, hfound, hv, hn, -⟩ := parse_error h
  refine ⟨hpos ▸ longestViablePrefix_of_stop hv hn, ?_⟩
  rw [hfound, hpos, getElem?_length_append]

/-- On a balanced pattern, the fault `parse` names is fixed by where it stands: at the end or
before a character, after a repetition operator or not. -/
theorem parse_error_fault {p : List Char} {e : SyntaxError} (h : parse p = .error e)
    (hb : balanced p = true) :
    (e.position = p.length →
      e.fault = .incompleteEscape ∧ endsInEscape p = true ∨
      e.fault = .unexpectedEnd ∧ endsInEscape p = false) ∧
    (e.position < p.length →
      e.fault = .multipleRepetition ∧ RepeatedAt p e.position ∨
      e.fault = .unexpectedInput ∧ ¬RepeatedAt p e.position) := by
  obtain ⟨q, rest, rfl, hpos, -, -, -, hblock⟩ := parse_error h
  obtain ⟨hpre, htot⟩ := balanced_iff.1 hb
  -- input left over after a whole expression starts with a `)` that closes nothing
  have hblock : Blocked q rest e.fault := by
    refine hblock.resolve_right ?_
    rintro ⟨-, hq, hc⟩
    obtain ⟨w, rfl⟩ := List.head?_eq_some_iff.1 hc
    have := hpre (q.length + 1)
    rw [List.take_append, List.take_of_length_le (by omega), openCount_append hq.1, hq.2] at this
    simp at this
  rw [hpos, repeatedAt_append_iff]
  constructor
  · intro hend
    obtain rfl : rest = [] := by
      simp only [List.length_append] at hend
      exact List.eq_nil_of_length_eq_zero (by omega)
    rw [List.append_nil] at htot ⊢
    cases hf : e.fault <;> rw [hf] at hblock
    · exact hblock.elim
    · exact absurd rfl hblock.1
    · exact .inr ⟨rfl, hblock.2⟩
    · exact .inl ⟨rfl, hblock.2⟩
    · have := hblock.2
      omega
    · exact absurd hblock.1 (by simp [followsFactor])
  · intro hlt
    have hrest : rest ≠ [] := by
      rintro rfl
      simp at hlt
    cases hf : e.fault <;> rw [hf] at hblock
    · exact hblock.elim
    · exact .inr ⟨rfl, fun hr => hblock.2 hr.1 hr.2⟩
    · exact absurd hblock.1 hrest
    · exact absurd hblock.1 hrest
    · exact absurd hblock.1 hrest
    · exact .inl ⟨rfl, hblock⟩

end TableGrep.Pattern

namespace TableGrep

open Pattern

section CompileErrors

variable {p : String} {config : Config}

theorem compile_unbalanced_iff :
    compile p config = .error .unbalancedParens ↔ balanced p.toList = false := by
  rw [compile_eq]
  cases balanced p.toList
  · simp
  · cases hp : parse p.toList with
    | error e => simp
    | ok r =>
      obtain ⟨t', ht'⟩ := (shaped_toTable r).compact_ok
      cases config.compact <;> simp [ht', Except.mapError]

/-- On a balanced pattern, the syntax errors of `compile` are those of `parse`. -/
theorem compile_grammar_iff (hb : balanced p.toList = true) (e : SyntaxError) :
    compile p config = .error (.grammar e) ↔ parse p.toList = .error e := by
  rw [compile_eq, if_pos hb]
  cases hp : parse p.toList with
  | error e' => simp
  | ok r =>
    obtain ⟨t', ht'⟩ := (shaped_toTable r).compact_ok
    cases config.compact <;> simp [ht', Except.mapError]

end CompileErrors

/-- How `compile` refuses a pattern: unbalanced parentheses exactly when the parenthesis count
fails, and otherwise a syntax error exactly off the grammar, at the end of the longest viable
prefix, with its fault fixed by what stands there. -/
theorem compile_error_spec (p : String) (config : Config) :
    (compile p config = .error .unbalancedParens ↔ balanced p.toList = false) ∧
    (balanced p.toList = false ↔
      (∃ n, openCount (p.toList.take n) < 0) ∨ openCount p.toList ≠ 0) ∧
    ((∀ n, 0 ≤ openCount (p.toList.take n)) → openCount p.toList = 0 →
      ((∀ e, compile p config ≠ .error (.grammar e)) ↔ Sentence p.toList) ∧
      (¬Sentence p.toList → ∃ e, compile p config = .error (.grammar e) ∧
        LongestViablePrefix p.toList e.position ∧ e.found = p.toList[e.position]? ∧
        (e.position = p.toList.length →
          e.fault = .incompleteEscape ∧ endsInEscape p.toList = true ∨
          e.fault = .unexpectedEnd ∧ endsInEscape p.toList = false) ∧
        (e.position < p.toList.length →
          e.fault = .multipleRepetition ∧ RepeatedAt p.toList e.position ∨
          e.fault = .unexpectedInput ∧ ¬RepeatedAt p.toList e.position))) := by
  refine ⟨compile_unbalanced_iff, ?_, fun hpre htot => ?_⟩
  · rw [← Bool.not_eq_true, balanced_iff]
    simp only [not_and_or, not_forall, not_le]
  have hb : balanced p.toList = true := balanced_iff.2 ⟨hpre, htot⟩
  refine ⟨⟨fun h => ?_, fun hs e he => ?_⟩, fun hs => ?_⟩
  · by_contra hs
    obtain ⟨e, he⟩ := parse_error_of_not_sentence hs
    exact h e ((compile_grammar_iff hb e).2 he)
  · obtain ⟨r, hr⟩ := hs
    rw [compile_grammar_iff hb, parse_eq_ok_iff.2 hr] at he
    cases he
  · obtain ⟨e, he⟩ := parse_error_of_not_sentence hs
    obtain ⟨hlong, hfound⟩ := parse_error_position he
    obtain ⟨hend, hmid⟩ := parse_error_fault he hb
    exact ⟨e, (compile_grammar_iff hb e).2 he, hlong, hfound, hend, hmid⟩

/-- The pattern "a**" is balanced but no sentence, and its second `*` is a second repetition. -/
theorem compile_error_spec_repeated :
    (∀ n, 0 ≤ openCount ("a**".toList.take n)) ∧ openCount "a**".toList = 0 ∧
      ¬Sentence "a**".toList ∧
      compile "a**" {} = .error (.grammar ⟨.multipleRepetition, 2, some '*'⟩) ∧
      LongestViablePrefix "a**".toList 2 := by
  have hb : balanced "a**".toList = true := by cbv
  obtain ⟨hpre, htot⟩ := balanced_iff.1 hb
  have hc : compile "a**" {} = .error (.grammar ⟨.multipleRepetition, 2, some '*'⟩) := by cbv
  have hs : ¬Sentence "a**".toList := fun h =>
    ((compile_error_spec "a**" {}).2.2 hpre htot).1.2 h _ hc
  obtain ⟨e, he, hlong, -⟩ := ((compile_error_spec "a**" {}).2.2 hpre htot).2 hs
  rw [hc] at he
  cases he
  exact ⟨hpre, htot, hs, hc, hlong⟩

end TableGrep
