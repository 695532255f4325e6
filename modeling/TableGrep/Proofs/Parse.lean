import TableGrep.Pattern.Grammar

/-!
# Reading patterns against the grammar

`parse` reads exactly the sentences of the grammar, each into the tree of its derivation
(`parse_eq_ok_iff`). Each rule of the parser is complete: it reads a derivation of its rule and
stops before whatever may follow it (`expression_complete` and its companions, by recursion on
the derivation). Each rule is also sound: what it reads has a derivation, and what it leaves may
follow the rule (`parser_sound`, by the parser's own induction principle). Since the parser is a
function, a sentence has one tree (`Expression.unique`), and the language of a pattern is the
language of that tree (`language_iff`).
-/
namespace TableGrep.Pattern

/-! ## The first character of a factor -/

/-- The characters a factor can begin with. -/
def FactorStart (c : Char) : Prop := isOperator c = false ∨ c = '.' ∨ c = '\\' ∨ c = '('

namespace FactorStart

variable {c : Char}

theorem beginsFactor_eq (h : FactorStart c) : beginsFactor c = true := by
  rcases h with h | rfl | rfl | rfl
  · simp [beginsFactor, h]
  all_goals rfl

theorem not_end (h : FactorStart c) : ¬(c = '|' ∨ c = ')') := by
  rcases h with h | rfl | rfl | rfl
  · rintro (rfl | rfl) <;> simp [isOperator] at h
  all_goals decide

theorem ofChar?_eq (h : FactorStart c) : Repetition.ofChar? c = none := by
  rcases h with h | rfl | rfl | rfl
  · unfold Repetition.ofChar?
    split <;> simp_all [isOperator]
  all_goals rfl

end FactorStart

theorem Atom.head {p : List Char} {r : Regex} (h : Atom p r) : ∃ c p', p = c :: p' ∧ FactorStart c := by
  cases h with
  | literal hc => exact ⟨_, _, rfl, .inl hc⟩
  | wildcard => exact ⟨_, _, rfl, .inr (.inl rfl)⟩
  | escape => exact ⟨_, _, rfl, .inr (.inr (.inl rfl))⟩
  | group => exact ⟨_, _, rfl, .inr (.inr (.inr rfl))⟩

theorem Factor.head {p : List Char} {r : Regex} (h : Factor p r) :
    ∃ c p', p = c :: p' ∧ FactorStart c := by
  cases h with
  | atom ha => exact ha.head
  | repetition ha _ =>
    obtain ⟨c, p', rfl, hc⟩ := ha.head
    exact ⟨c, _, rfl, hc⟩

/-- Nothing that may follow a term starts with a repetition operator, nor does a factor. -/
theorem followsFactor_of_factors {acc t : Regex} {q rest : List Char} (h : Factors acc q t)
    (hr : followsTerm rest = true) : followsFactor (q ++ rest) = true := by
  cases h with
  | nil =>
    cases rest with
    | nil => rfl
    | cons c cs =>
      simp only [followsTerm, Bool.or_eq_true, beq_iff_eq] at hr
      rcases hr with rfl | rfl <;> rfl
  | cons hf _ =>
    obtain ⟨c, p', rfl, hc⟩ := hf.head
    simp [followsFactor, hc.ofChar?_eq]

/-! ## The parser's steps

Each rule of the parser, once the outcome of the rules it calls is known. -/

section Steps

variable {s r r' : List Char} {x y : Regex}

theorem expression_of_term {h : r.length < s.length} (e : term s = .ok (x, ⟨r, h⟩))
    (hr : followsExpression r = true) : expression s = .ok (x, ⟨r, h⟩) := by
  rw [expression, e]
  cases r with
  | nil => rfl
  | cons c cs =>
    simp only [followsExpression, beq_iff_eq] at hr
    subst hr
    rfl

theorem expression_of_alt {h : ('|' :: r).length < s.length} {h' : r'.length < r.length}
    (e₁ : term s = .ok (x, ⟨'|' :: r, h⟩)) (e₂ : expression r = .ok (y, ⟨r', h'⟩)) :
    ∃ h'', expression s = .ok (.alt x y, ⟨r', h''⟩) := by
  refine ⟨by simp at h; omega, ?_⟩
  rw [expression, e₁]
  simp only [if_true, e₂]

theorem term_of {acc : Regex} {h : r.length < s.length} {h' : r'.length ≤ r.length}
    (e₁ : factor s = .ok (acc, ⟨r, h⟩)) (e₂ : moreFactors acc r = .ok (x, ⟨r', h'⟩)) :
    ∃ h'', term s = .ok (x, ⟨r', h''⟩) := by
  refine ⟨by omega, ?_⟩
  rw [term, e₁]
  simp only [e₂]

theorem moreFactors_of_follows (acc : Regex) (hs : followsTerm s = true) :
    moreFactors acc s = .ok (acc, ⟨s, Nat.le_refl _⟩) := by
  rw [moreFactors.eq_def]
  cases s with
  | nil => rfl
  | cons c cs =>
    simp only [followsTerm, Bool.or_eq_true, beq_iff_eq] at hs
    simp [hs]

theorem moreFactors_of_factor {acc : Regex} {c : Char} {cs : List Char} (hc : FactorStart c)
    {h : r.length < (c :: cs).length} {h' : r'.length ≤ r.length}
    (e₁ : factor (c :: cs) = .ok (y, ⟨r, h⟩)) (e₂ : moreFactors (.seq acc y) r = .ok (x, ⟨r', h'⟩)) :
    ∃ h'', moreFactors acc (c :: cs) = .ok (x, ⟨r', h''⟩) := by
  refine ⟨by simp only [List.length_cons] at h ⊢; omega, ?_⟩
  rw [moreFactors.eq_def]
  simp only [hc.not_end, hc.beginsFactor_eq, if_false, if_true, e₁, e₂]

theorem factor_of_atom {h : r.length < s.length} (e : atom s = .ok (x, ⟨r, h⟩))
    (hr : followsFactor r = true) : factor s = .ok (x, ⟨r, h⟩) := by
  rw [factor, e]
  cases r with
  | nil => rfl
  | cons c cs =>
    simp only [followsFactor, List.head?_cons, Option.bind_some, Option.isNone_iff_eq_none] at hr
    simp [hr]

theorem factor_of_repetition {c : Char} {op : Repetition} {h : (c :: r).length < s.length}
    (e : atom s = .ok (x, ⟨c :: r, h⟩)) (hop : Repetition.ofChar? c = some op)
    (hr : followsFactor r = true) : ∃ h', factor s = .ok (op.apply x, ⟨r, h'⟩) := by
  refine ⟨by simp only [List.length_cons] at h; omega, ?_⟩
  rw [factor, e]
  simp only [followsFactor, Option.isNone_iff_eq_none] at hr
  simp [hop, hr]

theorem atom_group {cs : List Char} {h : (')' :: r).length < cs.length}
    (e : expression cs = .ok (x, ⟨')' :: r, h⟩)) : ∃ h', atom ('(' :: cs) = .ok (x, ⟨r, h'⟩) := by
  refine ⟨by simp only [List.length_cons] at h ⊢; omega, ?_⟩
  rw [atom.eq_def]
  simp [e]

end Steps

/-! ## Completeness: each rule reads a derivation of it -/

mutual

theorem expression_complete {p : List Char} {r : Regex} :
    Expression p r → ∀ rest, followsExpression rest = true →
      ∃ h, expression (p ++ rest) = .ok (r, ⟨rest, h⟩)
  | .term ht, rest, hr => by
    have hr' : followsTerm rest = true := by
      cases rest with
      | nil => rfl
      | cons c cs => simp_all [followsExpression, followsTerm]
    obtain ⟨h, e⟩ := term_complete ht rest hr'
    exact ⟨h, expression_of_term e hr⟩
  | @Expression.alt p q r s ht he, rest, hr => by
    obtain ⟨_, e₁⟩ := term_complete ht ('|' :: (q ++ rest)) rfl
    obtain ⟨_, e₂⟩ := expression_complete he rest hr
    rw [List.append_assoc, List.cons_append]
    exact expression_of_alt e₁ e₂
termination_by structural d => d

theorem term_complete {p : List Char} {r : Regex} :
    Term p r → ∀ rest, followsTerm rest = true → ∃ h, term (p ++ rest) = .ok (r, ⟨rest, h⟩)
  | @Term.mk p q f t hf hs, rest, hr => by
    obtain ⟨_, e₁⟩ := factor_complete hf (q ++ rest) (followsFactor_of_factors hs hr)
    obtain ⟨_, e₂⟩ := factors_complete hs rest hr
    rw [List.append_assoc]
    exact term_of e₁ e₂
termination_by structural d => d

theorem factors_complete {acc : Regex} {q : List Char} {t : Regex} :
    Factors acc q t → ∀ rest, followsTerm rest = true →
      ∃ h, moreFactors acc (q ++ rest) = .ok (t, ⟨rest, h⟩)
  | .nil _, rest, hr => ⟨_, moreFactors_of_follows _ hr⟩
  | @Factors.cons _ p q' r _ hf hs, rest, hr => by
    obtain ⟨_, e₁⟩ := factor_complete hf (q' ++ rest) (followsFactor_of_factors hs hr)
    obtain ⟨_, e₂⟩ := factors_complete hs rest hr
    obtain ⟨c, p', rfl, hc⟩ := hf.head
    rw [List.append_assoc]
    exact moreFactors_of_factor hc e₁ e₂
termination_by structural d => d

theorem factor_complete {p : List Char} {r : Regex} :
    Factor p r → ∀ rest, followsFactor rest = true → ∃ h, factor (p ++ rest) = .ok (r, ⟨rest, h⟩)
  | .atom ha, rest, hr => by
    obtain ⟨h, e⟩ := atom_complete ha rest
    exact ⟨h, factor_of_atom e hr⟩
  | @Factor.repetition p _ c op ha hop, rest, hr => by
    obtain ⟨_, e⟩ := atom_complete ha (c :: rest)
    rw [List.append_assoc, List.singleton_append]
    exact factor_of_repetition e hop hr
termination_by structural d => d

theorem atom_complete {p : List Char} {r : Regex} :
    Atom p r → ∀ rest, ∃ h, atom (p ++ rest) = .ok (r, ⟨rest, h⟩)
  | @Atom.literal c hc, rest => by
    have h₁ : c ≠ '(' := by rintro rfl; simp [isOperator] at hc
    have h₂ : c ≠ '\\' := by rintro rfl; simp [isOperator] at hc
    have h₃ : c ≠ '.' := by rintro rfl; simp [isOperator] at hc
    rw [List.singleton_append]
    refine ⟨by simp, ?_⟩
    rw [atom.eq_def]
    simp [h₁, h₂, h₃, hc]
  | .wildcard, rest => by
    rw [List.singleton_append]
    exact ⟨by simp, by rw [atom.eq_def]; simp⟩
  | .escape c, rest =>
    ⟨by simp only [List.cons_append, List.nil_append, List.length_cons]; omega,
      by rw [atom.eq_def]; simp⟩
  | @Atom.group p _ he, rest => by
    obtain ⟨_, e⟩ := expression_complete he (')' :: rest) rfl
    rw [List.cons_append, List.append_assoc, List.singleton_append]
    exact atom_group e
termination_by structural d => d

end

/-! ## Soundness: what each rule reads is a derivation of it -/

/-- Each rule reads a derivation of itself and leaves something that may follow it. -/
theorem parser_sound :
    (∀ s x r h, expression s = .ok (x, ⟨r, h⟩) →
      ∃ q, s = q ++ r ∧ Expression q x ∧ followsExpression r = true) ∧
    (∀ s x r h, term s = .ok (x, ⟨r, h⟩) → ∃ q, s = q ++ r ∧ Term q x ∧ followsTerm r = true) ∧
    (∀ acc s x r h, moreFactors acc s = .ok (x, ⟨r, h⟩) →
      ∃ q, s = q ++ r ∧ Factors acc q x ∧ followsTerm r = true) ∧
    (∀ s x r h, factor s = .ok (x, ⟨r, h⟩) →
      ∃ q, s = q ++ r ∧ Factor q x ∧ followsFactor r = true) ∧
    (∀ s x r h, atom s = .ok (x, ⟨r, h⟩) → ∃ q, s = q ++ r ∧ Atom q x) := by
  apply expression.mutual_induct
  -- expression: the term fails
  · intro s e he _ x r h heq
    rw [expression, he] at heq
    cases heq
  -- expression: the alternative after `|` fails
  · intro s u r' e he _ _ ht _ _ x r h heq
    rw [expression, ht] at heq
    simp [he] at heq
  -- expression: `term | expression`
  · intro s u r' u' r'' _ he _ _ ht iht ihe x r h heq
    rw [expression, ht] at heq
    simp only [if_true, he, Except.ok.injEq, Prod.mk.injEq, Subtype.mk.injEq] at heq
    obtain ⟨rfl, rfl⟩ := heq
    obtain ⟨q₁, rfl, hq₁, -⟩ := iht _ _ _ ht
    obtain ⟨q₂, rfl, hq₂, hr⟩ := ihe _ _ _ he
    exact ⟨q₁ ++ '|' :: q₂, by simp, .alt hq₁ hq₂, hr⟩
  -- expression: a term before a character other than `|`
  · intro s u c r' _ hc _ ht iht x r h heq
    obtain ⟨q, rfl, hq, hr⟩ := iht _ _ _ ht
    have hf : followsExpression (c :: r') = true := by
      simp only [followsTerm, Bool.or_eq_true, beq_iff_eq] at hr
      rcases hr with rfl | rfl
      · exact (hc rfl).elim
      · rfl
    rw [expression_of_term ht hf] at heq
    simp only [Except.ok.injEq, Prod.mk.injEq, Subtype.mk.injEq] at heq
    obtain ⟨rfl, rfl⟩ := heq
    exact ⟨q, rfl, .term hq, hf⟩
  -- expression: a term at the end of the pattern
  · intro s u _ _ ht iht x r h heq
    obtain ⟨q, rfl, hq, -⟩ := iht _ _ _ ht
    rw [expression_of_term ht rfl] at heq
    simp only [Except.ok.injEq, Prod.mk.injEq, Subtype.mk.injEq] at heq
    obtain ⟨rfl, rfl⟩ := heq
    exact ⟨q, rfl, .term hq, rfl⟩
  -- term: the first factor fails
  · intro s e he _ x r h heq
    rw [term, he] at heq
    cases heq
  -- term: a later factor fails
  · intro s u r'' _ hf e he _ _ x r h heq
    rw [term, hf] at heq
    simp [he] at heq
  -- term: `factor factor*`
  · intro s u r'' _ hf t r' _ hm ihf ihm x r h heq
    rw [term, hf] at heq
    simp only [hm, Except.ok.injEq, Prod.mk.injEq, Subtype.mk.injEq] at heq
    obtain ⟨rfl, rfl⟩ := heq
    obtain ⟨q₁, rfl, hq₁, -⟩ := ihf _ _ _ hf
    obtain ⟨q₂, rfl, hq₂, hr⟩ := ihm _ _ _ hm
    exact ⟨q₁ ++ q₂, by simp, .mk hq₁ hq₂, hr⟩
  -- more factors: the end of the pattern
  · intro acc x r h heq
    rw [moreFactors.eq_def] at heq
    simp only [Except.ok.injEq, Prod.mk.injEq, Subtype.mk.injEq] at heq
    obtain ⟨rfl, rfl⟩ := heq
    exact ⟨[], rfl, .nil _, rfl⟩
  -- more factors: a `|` or a `)` ends the term
  · intro acc c cs hc x r h heq
    rw [moreFactors.eq_def] at heq
    simp only [hc, if_true, Except.ok.injEq, Prod.mk.injEq, Subtype.mk.injEq] at heq
    obtain ⟨rfl, rfl⟩ := heq
    refine ⟨[], rfl, .nil _, ?_⟩
    rcases hc with rfl | rfl <;> rfl
  -- more factors: the next factor fails
  · intro acc c cs hc hb e he _ x r h heq
    rw [moreFactors.eq_def] at heq
    simp [hc, hb, he] at heq
  -- more factors: the factors after the next fail
  · intro acc c cs hc hb f r₁ _ hf e he _ _ x r h heq
    rw [moreFactors.eq_def] at heq
    simp [hc, hb, hf, he] at heq
  -- more factors: a factor and the factors after it
  · intro acc c cs hc hb f r₁ _ hf t r' _ hm ihf ihm x r h heq
    rw [moreFactors.eq_def] at heq
    simp only [hc, hb, if_false, if_true, hf, hm, Except.ok.injEq, Prod.mk.injEq,
      Subtype.mk.injEq] at heq
    obtain ⟨rfl, rfl⟩ := heq
    obtain ⟨q₁, hq, hq₁, -⟩ := ihf _ _ _ hf
    obtain ⟨q₂, rfl, hq₂, hr⟩ := ihm _ _ _ hm
    exact ⟨q₁ ++ q₂, by simp [hq], .cons hq₁ hq₂, hr⟩
  -- more factors: a character that cannot start a factor
  · intro acc c cs hc hb x r h heq
    rw [moreFactors.eq_def] at heq
    simp [hc, hb] at heq
  -- factor: the atom fails
  · intro s e he _ x r h heq
    rw [factor, he] at heq
    cases heq
  -- factor: an atom before a character that is no repetition
  · intro s u c cs _ hop _ ha iha x r h heq
    rw [factor, ha] at heq
    simp only [hop, Except.ok.injEq, Prod.mk.injEq, Subtype.mk.injEq] at heq
    obtain ⟨rfl, rfl⟩ := heq
    obtain ⟨q, rfl, hq⟩ := iha _ _ _ ha
    exact ⟨q, rfl, .atom hq, by simp [followsFactor, hop]⟩
  -- factor: two repetitions in a row
  · intro s u c cs _ op hop hnext _ ha _ x r h heq
    rw [factor, ha] at heq
    simp [hop, hnext] at heq
  -- factor: an atom and its repetition
  · intro s u c cs _ op hop hnext _ ha iha x r h heq
    rw [factor, ha] at heq
    simp only [hop, hnext] at heq
    obtain ⟨rfl, rfl⟩ := heq
    obtain ⟨q, rfl, hq⟩ := iha _ _ _ ha
    refine ⟨q ++ [c], by simp, .repetition hq hop, ?_⟩
    simpa [followsFactor] using hnext
  -- factor: an atom at the end of the pattern
  · intro s u _ _ ha iha x r h heq
    rw [factor, ha] at heq
    simp only [Except.ok.injEq, Prod.mk.injEq, Subtype.mk.injEq] at heq
    obtain ⟨rfl, rfl⟩ := heq
    obtain ⟨q, rfl, hq⟩ := iha _ _ _ ha
    exact ⟨q, rfl, .atom hq, rfl⟩
  -- atom: the end of the pattern
  · intro x r h heq
    rw [atom.eq_def] at heq
    cases heq
  -- atom: a group whose expression fails
  · intro cs e he _ x r h heq
    rw [atom.eq_def] at heq
    simp [he] at heq
  -- atom: a group
  · intro cs u r' _ _ he ihe x r h heq
    rw [atom.eq_def] at heq
    simp only [if_true, he, Except.ok.injEq, Prod.mk.injEq, Subtype.mk.injEq] at heq
    obtain ⟨rfl, rfl⟩ := heq
    obtain ⟨q, rfl, hq, -⟩ := ihe _ _ _ he
    exact ⟨'(' :: (q ++ [')']), by simp, .group hq⟩
  -- atom: a group followed by something other than `)`
  · intro cs u c r' _ hc _ he _ x r h heq
    rw [atom.eq_def] at heq
    simp [he, hc] at heq
  -- atom: a group left open at the end of the pattern
  · intro cs u _ _ he _ x r h heq
    rw [atom.eq_def] at heq
    simp [he] at heq
  -- atom: a backslash at the end
  · intro _ x r h heq
    rw [atom.eq_def] at heq
    simp at heq
  -- atom: an escaped character
  · intro c cs _ x r h heq
    rw [atom.eq_def] at heq
    simp at heq
    obtain ⟨rfl, rfl⟩ := heq
    exact ⟨['\\', c], rfl, .escape c⟩
  -- atom: the wildcard
  · intro cs _ _ x r h heq
    rw [atom.eq_def] at heq
    simp at heq
    obtain ⟨rfl, rfl⟩ := heq
    exact ⟨['.'], rfl, .wildcard⟩
  -- atom: an operator that cannot start an atom
  · intro c cs h₁ h₂ h₃ hop x r h heq
    rw [atom.eq_def] at heq
    simp [h₁, h₂, h₃, hop] at heq
  -- atom: a literal character
  · intro c cs h₁ h₂ h₃ hop x r h heq
    rw [atom.eq_def] at heq
    simp [h₁, h₂, h₃, hop] at heq
    obtain ⟨rfl, rfl⟩ := heq
    exact ⟨[c], rfl, .literal (by simpa using hop)⟩

theorem expression_sound {s r : List Char} {x : Regex} {h : r.length < s.length}
    (e : expression s = .ok (x, ⟨r, h⟩)) :
    ∃ q, s = q ++ r ∧ Expression q x ∧ followsExpression r = true :=
  parser_sound.1 s x r h e

/-! ## Whole patterns -/

/-- `parse` reads exactly the sentences, each into the tree of its derivation. -/
theorem parse_eq_ok_iff {p : List Char} {r : Regex} : parse p = .ok r ↔ Expression p r := by
  constructor
  · intro h
    unfold parse at h
    split at h
    · cases h
    · rename_i x hx e
      obtain ⟨q, hq, hd, -⟩ := expression_sound e
      cases h
      rw [hq, List.append_nil]
      exact hd
    · cases h
  · intro hd
    have hc := expression_complete hd [] rfl
    rw [List.append_nil] at hc
    obtain ⟨h, e⟩ := hc
    unfold parse
    rw [e]

/-- A sentence has one tree. -/
theorem Expression.unique {p : List Char} {r r' : Regex} (h : Expression p r)
    (h' : Expression p r') : r = r' := by
  have e := parse_eq_ok_iff.2 h
  rw [parse_eq_ok_iff.2 h', Except.ok.injEq] at e
  exact e.symm

/-- The words of a pattern are those of the tree it is read into. -/
theorem language_iff {p w : List Char} {r : Regex} (h : parse p = .ok r) :
    Language p w ↔ r.Matches w := by
  constructor
  · rintro ⟨r', hr', hw⟩
    rw [(parse_eq_ok_iff.1 h).unique hr']
    exact hw
  · intro hw
    exact ⟨r, parse_eq_ok_iff.1 h, hw⟩

end TableGrep.Pattern
