import VeRoot.Kconfig.Parse

/-!
# Evaluating what is printed

`&&` and `||` are associative, and `m && MODULES && MODULES` is `m && MODULES`; so an expression that
has been parsed keeps its value when it is printed and parsed again.

## Main definitions

* `SameValue` — two expressions have the same value.
* `sameValue_regroup` — what the parser makes of a printed expression has the value of it.
* `eval_exprStr` — printing keeps the value.
-/

namespace Kconfig

open Unix Demand

variable {K : Config} {u : User} {rule : (c : Cell) → Query Val (Val c)} {a a' b b' e : Expr}
  {v : Tri} {tr : Bool} {s : Text}

theorem gives_and : Gives rule (K.exprValue u (.and a b)) v ↔
    Gives rule (K.exprValue u a) .n ∧ v = .n ∨ ∃ w w', w ≠ .n ∧ Gives rule (K.exprValue u a) w ∧
      Gives rule (K.exprValue u b) w' ∧ v = min w w' := by
  rw [Config.exprValue, gives_bind]
  constructor
  · rintro ⟨w, hw, h⟩
    split at h
    · next hn => exact .inl ⟨hn ▸ hw, (gives_done.mp h).symm⟩
    · next hn =>
      obtain ⟨w', hw', h⟩ := gives_bind.mp h
      exact .inr ⟨w, w', hn, hw, hw', (gives_done.mp h).symm⟩
  · rintro (⟨h, rfl⟩ | ⟨w, w', hn, hw, hw', rfl⟩)
    · exact ⟨.n, h, by rw [if_pos rfl]; exact gives_done.mpr rfl⟩
    · exact ⟨w, hw, by rw [if_neg hn]; exact gives_bind.mpr ⟨w', hw', gives_done.mpr rfl⟩⟩

theorem gives_or : Gives rule (K.exprValue u (.or a b)) v ↔
    Gives rule (K.exprValue u a) .y ∧ v = .y ∨ ∃ w w', w ≠ .y ∧ Gives rule (K.exprValue u a) w ∧
      Gives rule (K.exprValue u b) w' ∧ v = max w w' := by
  rw [Config.exprValue, gives_bind]
  constructor
  · rintro ⟨w, hw, h⟩
    split at h
    · next hn => exact .inl ⟨hn ▸ hw, (gives_done.mp h).symm⟩
    · next hn =>
      obtain ⟨w', hw', h⟩ := gives_bind.mp h
      exact .inr ⟨w, w', hn, hw, hw', (gives_done.mp h).symm⟩
  · rintro (⟨h, rfl⟩ | ⟨w, w', hn, hw, hw', rfl⟩)
    · exact ⟨.y, h, by rw [if_pos rfl]; exact gives_done.mpr rfl⟩
    · exact ⟨w, hw, by rw [if_neg hn]; exact gives_bind.mpr ⟨w', hw', gives_done.mpr rfl⟩⟩

theorem gives_not : Gives rule (K.exprValue u (.not a)) v ↔
    ∃ w, Gives rule (K.exprValue u a) w ∧ v = w.not := by
  rw [Config.exprValue, gives_bind]
  simp only [Query.pure_eq, gives_done, eq_comm]

/-- Two expressions have the same value. -/
def SameValue (K : Config) (u : User) (rule : (c : Cell) → Query Val (Val c)) (a b : Expr) : Prop :=
  ∀ v, Gives rule (K.exprValue u a) v ↔ Gives rule (K.exprValue u b) v

theorem SameValue.refl (a : Expr) : SameValue K u rule a a := fun _ => Iff.rfl

theorem SameValue.trans (h : SameValue K u rule a b) (h' : SameValue K u rule b e) :
    SameValue K u rule a e :=
  fun v => (h v).trans (h' v)

theorem SameValue.and (ha : SameValue K u rule a a') (hb : SameValue K u rule b b') :
    SameValue K u rule (.and a b) (.and a' b') := by
  intro v
  simp only [gives_and, ha _, hb _]

theorem SameValue.or (ha : SameValue K u rule a a') (hb : SameValue K u rule b b') :
    SameValue K u rule (.or a b) (.or a' b') := by
  intro v
  simp only [gives_or, ha _, hb _]

theorem sameValue_and_assoc :
    SameValue K u rule (.and a (.and b e)) (.and (.and a b) e) := by
  intro v
  simp only [gives_and]
  constructor
  · rintro (⟨ha, rfl⟩ | ⟨w, w', hn, ha, ⟨hb, rfl⟩ | ⟨x, x', hx, hb, he, rfl⟩, rfl⟩)
    · exact .inl ⟨.inl ⟨ha, trivial⟩, rfl⟩
    · exact .inl ⟨.inr ⟨w, .n, hn, ha, hb, (Tri.min_n w).symm⟩, Tri.min_n w⟩
    · refine .inr ⟨min w x, x', ?_, .inr ⟨w, x, hn, ha, hb, rfl⟩, he, (min_assoc w x x').symm⟩
      cases w <;> cases x <;> first | exact absurd rfl hn | exact absurd rfl hx | decide
  · rintro (⟨⟨ha, -⟩ | ⟨w, w', hn, ha, hb, hm⟩, rfl⟩ |
      ⟨x, x', hx, ⟨ha, rfl⟩ | ⟨w, w', hn, ha, hb, rfl⟩, he, rfl⟩)
    · exact .inl ⟨ha, rfl⟩
    · refine .inr ⟨w, .n, hn, ha, .inl ⟨?_, rfl⟩, (Tri.min_n w).symm⟩
      cases w <;> cases w' <;> first | exact absurd rfl hn | exact hb | cases hm
    · exact absurd rfl hx
    · refine .inr ⟨w, min w' x', hn, ha, .inr ⟨w', x', ?_, hb, he, rfl⟩, min_assoc w w' x'⟩
      rintro rfl
      exact hx (Tri.min_n w)

theorem sameValue_or_assoc :
    SameValue K u rule (.or a (.or b e)) (.or (.or a b) e) := by
  intro v
  simp only [gives_or]
  constructor
  · rintro (⟨ha, rfl⟩ | ⟨w, w', hn, ha, ⟨hb, rfl⟩ | ⟨x, x', hx, hb, he, rfl⟩, rfl⟩)
    · exact .inl ⟨.inl ⟨ha, trivial⟩, rfl⟩
    · exact .inl ⟨.inr ⟨w, .y, hn, ha, hb, (Tri.max_y w).symm⟩, Tri.max_y w⟩
    · refine .inr ⟨max w x, x', ?_, .inr ⟨w, x, hn, ha, hb, rfl⟩, he, (max_assoc w x x').symm⟩
      cases w <;> cases x <;> first | exact absurd rfl hn | exact absurd rfl hx | decide
  · rintro (⟨⟨ha, -⟩ | ⟨w, w', hn, ha, hb, hm⟩, rfl⟩ |
      ⟨x, x', hx, ⟨ha, rfl⟩ | ⟨w, w', hn, ha, hb, rfl⟩, he, rfl⟩)
    · exact .inl ⟨ha, rfl⟩
    · refine .inr ⟨w, .y, hn, ha, .inl ⟨?_, rfl⟩, (Tri.max_y w).symm⟩
      cases w <;> cases w' <;> first | exact absurd rfl hn | exact hb | cases hm
    · exact absurd rfl hx
    · refine .inr ⟨w, max w' x', hn, ha, .inr ⟨w', x', ?_, hb, he, rfl⟩, max_assoc w w' x'⟩
      rintro rfl
      exact hx (Tri.max_y w)

/-- The second mention of a symbol in a `&&` makes no difference. -/
theorem sameValue_and_right (a b : Expr) : SameValue K u rule (.and (.and a b) b) (.and a b) := by
  intro v
  simp only [gives_and]
  constructor
  · rintro (⟨⟨ha, -⟩ | ⟨w, w', hn, ha, hb, hm⟩, rfl⟩ |
      ⟨x, x', hx, ⟨ha, rfl⟩ | ⟨w, w', hn, ha, hb, rfl⟩, hb', rfl⟩)
    · exact .inl ⟨ha, rfl⟩
    · exact .inr ⟨w, w', hn, ha, hb, hm⟩
    · exact absurd rfl hx
    · obtain rfl := hb.unique hb'
      exact .inr ⟨w, w', hn, ha, hb, by rw [min_assoc, min_self]⟩
  · rintro (⟨ha, rfl⟩ | ⟨w, w', hn, ha, hb, rfl⟩)
    · exact .inl ⟨.inl ⟨ha, trivial⟩, rfl⟩
    · by_cases hm : min w w' = .n
      · exact .inl ⟨.inr ⟨w, w', hn, ha, hb, hm.symm⟩, hm⟩
      · exact .inr ⟨min w w', w', hm, .inr ⟨w, w', hn, ha, hb, rfl⟩, hb, by rw [min_assoc, min_self]⟩

theorem sameValue_joinAnd (a b : Expr) : SameValue K u rule (rewriteM tr (joinAnd a b))
    (.and (rewriteM tr a) (rewriteM tr b)) := by
  induction a with
  | and a₁ a₂ _ ih =>
    rw [joinAnd, rewriteM, rewriteM]
    exact ((SameValue.refl _).and ih).trans sameValue_and_assoc
  | _ => exact .refl _

theorem sameValue_joinOr (a b : Expr) : SameValue K u rule (rewriteM tr (joinOr a b))
    (.or (rewriteM tr a) (rewriteM tr b)) := by
  induction a with
  | or a₁ a₂ _ ih =>
    rw [joinOr, rewriteM, rewriteM]
    exact ((SameValue.refl _).or ih).trans sameValue_or_assoc
  | _ => exact .refl _

/-- **Regrouping and rewriting `m` once more keep the value** of what has been parsed. -/
theorem sameValue_regroup (h : e.Guarded) :
    SameValue K u rule (rewriteM true (regroup e)) e := by
  induction e with
  | atom x =>
    change SameValue K u rule (transformM true x) _
    rw [transformM, if_neg fun hx => h hx.2]
    exact .refl _
  | and a b iha ihb =>
    rcases h with ⟨rfl, rfl⟩ | ⟨ha, hb⟩
    · exact sameValue_and_right _ _
    · exact (sameValue_joinAnd _ _).trans ((iha ha).and (ihb hb))
  | or a b iha ihb => exact (sameValue_joinOr _ _).trans ((iha h.1).or (ihb h.2))
  | not a ih =>
    intro v
    rw [regroup, rewriteM, gives_not, gives_not]
    simp only [ih h _]
  | _ => exact .refl _

/-- What is accepted consists of plain symbols, and `m` is guarded. -/
theorem parseString_spec (h : parseString s = some (.ok e)) : e.Plain ∧ e.Guarded := by
  unfold parseString at h
  split at h
  · cases h
  · next tok ts ht =>
    have hts : PlainTokens ts := fun a ha => plain_of_tokenize ht a (List.mem_cons_of_mem _ ha)
    cases hp : expectExprAndEol ts with
    | error m =>
      rw [hp] at h
      cases h
    | ok e' =>
      rw [hp] at h
      cases h
      obtain ⟨⟨e₁, rest⟩, hr, he⟩ := bind_eq_ok.mp hp
      cases rest with
      | nil =>
        cases he
        exact ((parse_plain _ ts _ _ hts).1 hr).1
      | cons t rest => cases he
  · cases h

/-- **Printing keeps the value.**  If a line is accepted, the expression it stands for can be printed
and read again, and has the same value in every state of every configuration. -/
theorem eval_exprStr (h : parseString s = some (.ok e)) (choiceStr : ℕ → Text) :
    ∃ e', parseString (exprStr choiceStr e) = some (.ok e') ∧ ∀ K u v,
      Gives (Config.rule K u) (Config.exprValue K u e') v ↔ Gives (K.rule u) (K.exprValue u e) v := by
  obtain ⟨hp, hg⟩ := parseString_spec h
  exact ⟨_, parseString_exprStr hp, fun K u => sameValue_regroup hg⟩

/-- `(A && "b") && m` is printed as `A && "b" && m && MODULES`. -/
theorem eval_exprStr_sample : ∃ e', parseString (exprStr (fun _ => [])
      (.and (.and (.atom (.sym ['A'])) (.atom (.const ['b'])))
        (.and (.atom (.const ['m'])) (.atom (.sym Config.modules))))) = some (.ok e') ∧
    ∀ K u v, Gives (Config.rule K u) (Config.exprValue K u e') v ↔
      Gives (K.rule u) (K.exprValue u (.and (.and (.atom (.sym ['A'])) (.atom (.const ['b'])))
        (.and (.atom (.const ['m'])) (.atom (.sym Config.modules))))) v :=
  eval_exprStr (s := "(A && \"b\") && m".toList) rfl _

end Kconfig
