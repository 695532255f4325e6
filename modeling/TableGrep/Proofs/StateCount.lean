import TableGrep.Proofs.SyntaxErrors

/-!
# How many states a pattern's table has

Built without compaction, the table of a pattern has two states of its own, the entry branch and
the accepting branch, and then one state per atom (a literal, `.` or an escape), per `*` and per
`+`, and two per `?` and per `|`; parentheses only group and add none
(`compile_uncompacted_size`).

The count is read off the pattern's tokens, where a backslash and the character after it are one
token, so an escaped operator is an atom. The construction spends `Regex.stateCount` states on a
syntax tree (`Regex.size_emit`), and each rule of the grammar asks for as many as its tokens say
(`Expression.stateCount_eq`, proved over derivations).
-/

namespace TableGrep

/-- The states the construction appends for a syntax tree. -/
def Regex.stateCount : Regex → Nat
  | .literal _ => 1
  | .wildcard => 1
  | .seq r s => r.stateCount + s.stateCount
  | .alt r s => r.stateCount + s.stateCount + 2
  | .star r => r.stateCount + 1
  | .plus r => r.stateCount + 1
  | .opt r => r.stateCount + 2

/-- The states a repetition adds around what it repeats. -/
def Repetition.cost : Repetition → Nat
  | .star => 1
  | .plus => 1
  | .opt => 2

theorem Repetition.stateCount_apply (op : Repetition) (r : Regex) :
    (op.apply r).stateCount = r.stateCount + op.cost := by
  cases op <;> rfl

/-- Appending the states of a syntax tree adds `stateCount` states. -/
theorem Regex.size_emit (r : Regex) (t : Table) : (r.emit t).2.size = t.size + r.stateCount := by
  induction r generalizing t with
  | literal c => simp [emit, stateCount]
  | wildcard => simp [emit, stateCount]
  | seq r s ihr ihs =>
    simp only [emit, Table.size_connect, ihs, ihr, stateCount]
    omega
  | alt r s ihr ihs =>
    simp only [emit, Table.size_connect, Table.size_addBranch, ihs, ihr, stateCount]
    omega
  | star r ih =>
    simp only [emit, Table.size_connect, Table.size_addBranch, ih, stateCount]
    omega
  | plus r ih =>
    simp only [emit, Table.size_connect, Table.size_addBranch, ih, stateCount]
    omega
  | opt r ih =>
    simp only [emit, Table.size_addBranch, Table.size_connect, ih, stateCount]
    omega

/-- The table of a syntax tree: the entry branch, the tree's states and the accepting branch. -/
theorem Regex.size_toTable (r : Regex) : r.toTable.size = r.stateCount + 2 := by
  simp only [toTable, body, Table.close, Table.size_addBranch, Table.size_connect, size_emit]
  simp [Table.empty, Table.size]
  omega

namespace Pattern

/-- A token of a pattern: a backslash and the character after it are one escaped token. -/
inductive Token where
  | plain (c : Char)
  | escaped (c : Char)
  deriving DecidableEq, Repr

/-- The tokens of a pattern. A backslash at the very end stays a plain token. -/
def tokens : List Char → List Token
  | [] => []
  | ['\\'] => [.plain '\\']
  | '\\' :: c :: rest => .escaped c :: tokens rest
  | c :: rest => .plain c :: tokens rest

/-- An atom of the grammar: a character with no meaning of its own, `.`, or an escape. -/
def Token.isAtom : Token → Bool
  | .plain c => c == '.' || !isOperator c
  | .escaped _ => true

/-- The states tokens ask for: one per atom, `*` and `+`, and two per `?` and `|`. -/
def demand (ts : List Token) : Nat :=
  ts.countP Token.isAtom + ts.count (.plain '*') + ts.count (.plain '+') +
    2 * ts.count (.plain '?') + 2 * ts.count (.plain '|')

/-! ## Tokens -/

section Tokens

variable {c : Char} {l : List Char}

@[simp] theorem tokens_escape (d : Char) : tokens ('\\' :: d :: l) = .escaped d :: tokens l :=
  rfl

theorem tokens_cons (h : c ≠ '\\') : tokens (c :: l) = .plain c :: tokens l :=
  tokens.eq_4 c l (fun h' _ => h h') (fun _ _ h' _ => h h')

/-- Text that ends between tokens is tokenized apart from what follows it. -/
theorem tokens_append {a : List Char} (h : endsInEscape a = false) (b : List Char) :
    tokens (a ++ b) = tokens a ++ tokens b := by
  fun_induction tokens a with
  | case1 => rfl
  | case2 => simp at h
  | case3 d rest ih =>
    rw [endsInEscape_escape] at h
    rw [List.cons_append, List.cons_append, tokens_escape, ih h, List.cons_append]
  | case4 d rest h₁ h₂ ih =>
    have hd : d ≠ '\\' := fun hd => by cases rest <;> simp_all
    rw [endsInEscape_cons hd] at h
    rw [List.cons_append, tokens_cons hd, ih h, List.cons_append]

theorem demand_append (a b : List Token) : demand (a ++ b) = demand a + demand b := by
  simp only [demand, List.countP_append, List.count_append]
  omega

theorem demand_literal (h : isOperator c = false) : demand [.plain c] = 1 := by
  simp only [isOperator, Bool.or_eq_false_iff, beq_eq_false_iff_ne, ne_eq] at h
  obtain ⟨⟨⟨⟨⟨⟨⟨h₁, h₂⟩, h₃⟩, h₄⟩, h₅⟩, h₆⟩, h₇⟩, h₈⟩ := h
  simp [demand, Token.isAtom, isOperator, h₁, h₂, h₃, h₄, h₅, h₆, h₇, h₈]

theorem demand_repetition {op : Repetition} (h : Repetition.ofChar? c = some op) :
    demand [.plain c] = op.cost := by
  unfold Repetition.ofChar? at h
  split at h <;> cases h <;> rfl

end Tokens

/-! ## Each rule asks for the states its tree takes -/

mutual

theorem Expression.stateCount_eq {p : List Char} {r : Regex} :
    Expression p r → r.stateCount = demand (tokens p)
  | .term ht => ht.stateCount_eq
  | @Expression.alt p q _ _ ht he => by
    rw [tokens_append ht.closed.1, tokens_cons (by decide), demand_append,
      ← List.singleton_append, demand_append, ← ht.stateCount_eq, ← he.stateCount_eq]
    have hbar : demand [.plain '|'] = 2 := by decide
    simp only [Regex.stateCount]
    omega
termination_by structural d => d

theorem Term.stateCount_eq {p : List Char} {r : Regex} : Term p r → r.stateCount = demand (tokens p)
  | .mk hf hs => by
    rw [tokens_append hf.closed.1, demand_append, ← hf.stateCount_eq, hs.stateCount_eq]
termination_by structural d => d

theorem Factors.stateCount_eq {acc : Regex} {p : List Char} {r : Regex} :
    Factors acc p r → r.stateCount = acc.stateCount + demand (tokens p)
  | .nil _ => rfl
  | .cons hf hs => by
    rw [hs.stateCount_eq, tokens_append hf.closed.1, demand_append, ← hf.stateCount_eq]
    simp only [Regex.stateCount]
    omega
termination_by structural d => d

theorem Factor.stateCount_eq {p : List Char} {r : Regex} :
    Factor p r → r.stateCount = demand (tokens p)
  | .atom ha => ha.stateCount_eq
  | .repetition ha hop => by
    rw [tokens_append ha.closed.1, tokens_cons (by rintro rfl; simp [Repetition.ofChar?] at hop),
      tokens, demand_append, demand_repetition hop, ← ha.stateCount_eq,
      Repetition.stateCount_apply]
termination_by structural d => d

theorem Atom.stateCount_eq {p : List Char} {r : Regex} : Atom p r → r.stateCount = demand (tokens p)
  | .literal hc => by
    rw [tokens_cons (by rintro rfl; simp [isOperator] at hc), tokens, demand_literal hc]
    rfl
  | .wildcard => rfl
  | .escape c => rfl
  | .group he => by
    rw [tokens_cons (by decide), tokens_append he.closed.1, tokens_cons (by decide), tokens,
      ← List.singleton_append, demand_append, demand_append, ← he.stateCount_eq]
    -- the parentheses ask for nothing
    have hopen : demand [.plain '('] = 0 := by decide
    have hclose : demand [.plain ')'] = 0 := by decide
    omega
termination_by structural d => d

end

end Pattern

open Pattern in
/-- Without compaction a pattern's table has the entry and accepting branches, one state per
atom, `*` and `+`, and two per `?` and `|`; parentheses add none. -/
theorem compile_uncompacted_size {p : String} {t : Table}
    (h : compile p { compact := false } = .ok t) :
    t.size = 2 + (tokens p.toList).countP Token.isAtom + (tokens p.toList).count (.plain '*') +
      (tokens p.toList).count (.plain '+') + 2 * (tokens p.toList).count (.plain '?') +
      2 * (tokens p.toList).count (.plain '|') := by
  obtain ⟨-, r, hp, -, -, ht⟩ := compile_cases h
  simp only [Bool.false_eq_true, ↓reduceIte] at ht
  rw [ht, Regex.size_toTable, (parse_eq_ok_iff.1 hp).stateCount_eq, demand]
  omega

/-- The pattern "a|\\*", two atoms and a `|`, has six states without compaction. -/
theorem compile_uncompacted_size_escaped_choice :
    compile "a|\\*" { compact := false } = .ok ⟨#[⟨.branch, .state 2, .state 2⟩,
        ⟨.literal 'a', .state 4, .state 4⟩, ⟨.branch, .state 1, .state 3⟩,
        ⟨.literal '*', .state 4, .state 4⟩, ⟨.branch, .state 5, .state 5⟩,
        ⟨.branch, .accept, .accept⟩]⟩ ∧
      Table.size ⟨#[⟨.branch, .state 2, .state 2⟩,
        ⟨.literal 'a', .state 4, .state 4⟩, ⟨.branch, .state 1, .state 3⟩,
        ⟨.literal '*', .state 4, .state 4⟩, ⟨.branch, .state 5, .state 5⟩,
        ⟨.branch, .accept, .accept⟩]⟩ =
        2 + (Pattern.tokens "a|\\*".toList).countP Pattern.Token.isAtom +
          (Pattern.tokens "a|\\*".toList).count (.plain '*') +
          (Pattern.tokens "a|\\*".toList).count (.plain '+') +
          2 * (Pattern.tokens "a|\\*".toList).count (.plain '?') +
          2 * (Pattern.tokens "a|\\*".toList).count (.plain '|') :=
  have h : compile "a|\\*" { compact := false } = .ok ⟨#[⟨.branch, .state 2, .state 2⟩,
      ⟨.literal 'a', .state 4, .state 4⟩, ⟨.branch, .state 1, .state 3⟩,
      ⟨.literal '*', .state 4, .state 4⟩, ⟨.branch, .state 5, .state 5⟩,
      ⟨.branch, .accept, .accept⟩]⟩ := by cbv
  ⟨h, compile_uncompacted_size h⟩

end TableGrep
