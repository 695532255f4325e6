import Mathlib
import TableGrep.Compile
import TableGrep.Proofs.Parse
import TableGrep.Proofs.Fragment
import TableGrep.Proofs.Compaction
import TableGrep.Proofs.Rounds

/-!
# What a compiled pattern finds

`compile` succeeds only on sentences of the grammar, and the table it gives, compacted or not,
accepts from state 0 exactly the words of the pattern (`compile_accepts`). With the matcher's
specification this gives the main theorem of the library, `compile_find`: on every line, the
search finds nothing exactly when no stretch of the line is a word of the pattern, and otherwise
stops at the least position where such a stretch ends.
-/
namespace TableGrep

theorem compile_cases {p : String} {config : Config} {t : Table} (h : compile p config = .ok t) :
    Pattern.balanced p.toList = true ∧ ∃ r, Pattern.parse p.toList = .ok r ∧
      r.body.firstOpen? (r.body.size - 1) = none ∧ r.toTable.defect? = none ∧
      (if config.compact then r.toTable.compact = .ok t else t = r.toTable) := by
  unfold compile at h
  simp only [bind, Except.bind] at h
  split at h
  · cases h
  · rename_i hb
    have hb' : Pattern.balanced p.toList = true := by simpa using hb
    split at h
    · cases h
    · rename_i r hr
      have hp : Pattern.parse p.toList = .ok r := by
        cases hq : Pattern.parse p.toList with
        | error e => rw [hq] at hr; cases hr
        | ok r' => rw [hq] at hr; cases hr; rfl
      refine ⟨hb', r, hp, ?_⟩
      split at h
      · cases h
      · rename_i ho
        split at h
        · cases h
        · rename_i hd
          refine ⟨Option.eq_none_iff_forall_ne_some.2 ho, Option.eq_none_iff_forall_ne_some.2 hd,
            ?_⟩
          cases hc : config.compact
          · simp only [hc] at h ⊢
            cases h
            rfl
          · simp only [hc, if_true] at h ⊢
            cases hk : r.body.close.compact with
            | error e => rw [hk] at h; cases h
            | ok t' => rw [hk] at h; cases h; exact hk

/-- A compiled table, compacted or not, accepts from state 0 exactly the words of the pattern. -/
theorem compile_accepts {p : String} {config : Config} {t : Table} (h : compile p config = .ok t)
    (w : List Char) : t.Accepts (.state 0) w ↔ Pattern.Language p.toList w := by
  obtain ⟨-, r, hp, -, -, ht⟩ := compile_cases h
  rw [Pattern.language_iff hp, ← accepts_toTable r w]
  split at ht
  · exact Table.compact_accepts ht w
  · rw [ht]

/-- The search with a compiled pattern finds nothing exactly when no stretch of the line is a
word of the pattern; otherwise it stops at the least position at which such a stretch ends. -/
theorem compile_find {p : String} {config : Config} {t : Table} (h : compile p config = .ok t)
    (l : List Char) :
    (t.find l = none ↔ ∀ j ≤ l.length, ∀ i ≤ j, ¬ Pattern.Language p.toList ((l.take j).drop i)) ∧
    ∀ m, t.find l = some m → m.stop ≤ l.length ∧
      (∃ i ≤ m.stop, Pattern.Language p.toList ((l.take m.stop).drop i)) ∧
      ∀ j < m.stop, ∀ i ≤ j, ¬ Pattern.Language p.toList ((l.take j).drop i) := by
  have hends : ∀ j, t.MatchEnds l j ↔ ∃ i ≤ j, Pattern.Language p.toList ((l.take j).drop i) :=
    fun j => by simp only [Table.MatchEnds, compile_accepts h]
  refine ⟨?_, fun m hm => ?_⟩
  · rw [Table.find_eq_none_iff]
    simp only [hends, not_exists, not_and]
  · obtain ⟨h₁, h₂, h₃⟩ := Table.find_eq_some hm
    refine ⟨h₁, (hends _).1 h₂, fun j hj i hi hw => h₃ j hj ((hends j).2 ⟨i, hi, hw⟩)⟩

/-- The search with the compiled "a|b" on the line "xb" meets the theorem above. -/
theorem compile_find_choice :
    compile "a|b" {} = .ok ⟨#[⟨.branch, .state 1, .state 2⟩, ⟨.literal 'a', .accept, .accept⟩,
        ⟨.literal 'b', .accept, .accept⟩]⟩ ∧
      (Table.find ⟨#[⟨.branch, .state 1, .state 2⟩, ⟨.literal 'a', .accept, .accept⟩,
          ⟨.literal 'b', .accept, .accept⟩]⟩ ['x', 'b'] = none ↔
        ∀ j ≤ 2, ∀ i ≤ j, ¬ Pattern.Language "a|b".toList ((['x', 'b'].take j).drop i)) ∧
      ∀ m, Table.find ⟨#[⟨.branch, .state 1, .state 2⟩, ⟨.literal 'a', .accept, .accept⟩,
          ⟨.literal 'b', .accept, .accept⟩]⟩ ['x', 'b'] = some m → m.stop ≤ 2 ∧
        (∃ i ≤ m.stop, Pattern.Language "a|b".toList ((['x', 'b'].take m.stop).drop i)) ∧
        ∀ j < m.stop, ∀ i ≤ j, ¬ Pattern.Language "a|b".toList ((['x', 'b'].take j).drop i) :=
  ⟨by cbv, @compile_find "a|b" {} _ (by cbv) ['x', 'b']⟩

/-! ## Compiling never fails inside -/

/-- The checks `compile` makes of the built table never fail. -/
theorem compile_eq (p : String) (config : Config) :
    compile p config =
      if Pattern.balanced p.toList then
        match Pattern.parse p.toList with
        | .error e => .error (.grammar e)
        | .ok r => if config.compact then r.toTable.compact.mapError .internal else .ok r.toTable
      else .error .unbalancedParens := by
  unfold compile
  cases hb : Pattern.balanced p.toList
  · simp [hb, bind, Except.bind, throw, throwThe, MonadExceptOf.throw]
  · cases hp : Pattern.parse p.toList with
    | error e => simp [hb, hp, bind, Except.bind, Except.mapError]
    | ok r =>
      have hd : r.body.close.defect? = none := (shaped_toTable r).defect?_eq_none
      simp [hb, hp, bind, Except.bind, Except.mapError, firstOpen_body r, hd, Regex.toTable, pure,
        Except.pure]

/-- With compaction or without, `compile` succeeds exactly on balanced patterns that parse. -/
theorem compile_ok_iff {p : String} {config : Config} :
    (∃ t, compile p config = .ok t) ↔
      Pattern.balanced p.toList = true ∧ ∃ r, Pattern.parse p.toList = .ok r := by
  rw [compile_eq]
  cases hb : Pattern.balanced p.toList
  · simp
  · cases hp : Pattern.parse p.toList with
    | error e => simp
    | ok r =>
      obtain ⟨t', ht'⟩ := (shaped_toTable r).compact_ok
      cases config.compact <;> simp [ht', Except.mapError]

/-- Compiling never stops with an internal error: without compaction the table is well formed,
laid out from an entry branch to a last accepting branch, and compaction of it succeeds. -/
theorem compile_never_internal (p : String) :
    (∀ config e, compile p config ≠ .error (.internal e)) ∧
    (∀ t, compile p { compact := false } = .ok t →
      t.defect? = none ∧
      (∃ s, 1 ≤ s ∧ s < t.size ∧ t.get? 0 = some ⟨.branch, .state s, .state s⟩) ∧
      t.get? (t.size - 1) = some ⟨.branch, .accept, .accept⟩ ∧
      (∀ i st, t.get? i = some st → .accept ∈ st.successors → i = t.size - 1) ∧
      ∃ t', t.compact = .ok t') ∧
    ((∃ t, compile p { compact := true } = .ok t) ↔ ∃ t, compile p { compact := false } = .ok t) := by
  refine ⟨fun config e => ?_, fun t ht => ?_, compile_ok_iff.trans compile_ok_iff.symm⟩
  · rw [compile_eq]
    cases Pattern.balanced p.toList
    · simp
    · cases hp : Pattern.parse p.toList with
      | error g => simp
      | ok r =>
        obtain ⟨t', ht'⟩ := (shaped_toTable r).compact_ok
        cases config.compact <;> simp [ht', Except.mapError]
  · obtain ⟨hb, r, hp⟩ := compile_ok_iff.1 ⟨t, ht⟩
    rw [compile_eq, hb, if_pos rfl, hp] at ht
    cases ht
    have h := shaped_toTable r
    obtain ⟨s, hs₁, hs₂, he, -⟩ := h.entry
    exact ⟨h.defect?_eq_none, ⟨s, hs₁, by omega, he⟩, h.last,
      fun i st hst hx => h.eq_last_of_accept hst hx, h.compact_ok⟩

/-- The pattern "a|b" compiled without compaction meets the theorem above. -/
theorem compile_never_internal_choice :
    compile "a|b" { compact := false } = .ok ⟨#[⟨.branch, .state 2, .state 2⟩,
        ⟨.literal 'a', .state 4, .state 4⟩, ⟨.branch, .state 1, .state 3⟩,
        ⟨.literal 'b', .state 4, .state 4⟩, ⟨.branch, .state 5, .state 5⟩,
        ⟨.branch, .accept, .accept⟩]⟩ ∧
      Table.defect? ⟨#[⟨.branch, .state 2, .state 2⟩,
        ⟨.literal 'a', .state 4, .state 4⟩, ⟨.branch, .state 1, .state 3⟩,
        ⟨.literal 'b', .state 4, .state 4⟩, ⟨.branch, .state 5, .state 5⟩,
        ⟨.branch, .accept, .accept⟩]⟩ = none ∧
      (∃ s, 1 ≤ s ∧ s < 6 ∧ Table.get? ⟨#[⟨.branch, .state 2, .state 2⟩,
        ⟨.literal 'a', .state 4, .state 4⟩, ⟨.branch, .state 1, .state 3⟩,
        ⟨.literal 'b', .state 4, .state 4⟩, ⟨.branch, .state 5, .state 5⟩,
        ⟨.branch, .accept, .accept⟩]⟩ 0 = some ⟨.branch, .state s, .state s⟩) ∧
      Table.get? ⟨#[⟨.branch, .state 2, .state 2⟩,
        ⟨.literal 'a', .state 4, .state 4⟩, ⟨.branch, .state 1, .state 3⟩,
        ⟨.literal 'b', .state 4, .state 4⟩, ⟨.branch, .state 5, .state 5⟩,
        ⟨.branch, .accept, .accept⟩]⟩ 5 = some ⟨.branch, .accept, .accept⟩ ∧
      (∀ i st, Table.get? ⟨#[⟨.branch, .state 2, .state 2⟩,
        ⟨.literal 'a', .state 4, .state 4⟩, ⟨.branch, .state 1, .state 3⟩,
        ⟨.literal 'b', .state 4, .state 4⟩, ⟨.branch, .state 5, .state 5⟩,
        ⟨.branch, .accept, .accept⟩]⟩ i = some st → .accept ∈ st.successors → i = 5) ∧
      ∃ t', Table.compact ⟨#[⟨.branch, .state 2, .state 2⟩,
        ⟨.literal 'a', .state 4, .state 4⟩, ⟨.branch, .state 1, .state 3⟩,
        ⟨.literal 'b', .state 4, .state 4⟩, ⟨.branch, .state 5, .state 5⟩,
        ⟨.branch, .accept, .accept⟩]⟩ = .ok t' :=
  ⟨by cbv, (compile_never_internal "a|b").2.1 _ (by cbv)⟩

end TableGrep
