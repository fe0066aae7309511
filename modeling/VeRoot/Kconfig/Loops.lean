import VeRoot.Kconfig.Reads

/-!
# Dependency loops

A calculation that comes back to the attribute it started from does not end.  kconfiglib refuses
configurations whose properties refer to each other in a loop, where "every choice symbol depends on
every other choice symbol in a sense".  Without loops every attribute has a value, whatever the user
has set.

## Main definitions

* `Ranked`, `Loopless` — a configuration without loops.
* `depth` — the rank of an attribute.
* `Loopless.gives` — every attribute has a value.
-/

namespace Kconfig

open Unix Demand

/-- The attributes of items of one rank read each other in this order. -/
def Cell.level : Cell → ℕ
  | vis (.choice _) => 0
  | vis (.sym _) => 1
  | assignable _ => 2
  | selection _ => 2
  | tri _ => 3
  | str _ => 4

namespace Config

/-- Properties refer to items of lower rank.  A choice and its symbols have one rank; the symbols may
refer to the choice, but not to each other.  What is tristate refers to `MODULES`;
`_check_dep_loop_sym` does not look at these references. -/
structure Ranked (K : Config) (rank : Item → ℕ) : Prop where
  group : ∀ k c, K.choices[k]? = some c → ∀ x ∈ c.syms, rank (.sym x) = rank (.choice k)
  sym : ∀ x s, K.sym x = some s → ∀ e ∈ s.exprs, ∀ i ∈ e.items,
    (∃ k, s.choice = some k ∧ i = .choice k) ∨ rank i < rank (.sym x)
  choice : ∀ k c, K.choices[k]? = some c → ∀ e ∈ c.exprs, ∀ i ∈ e.items, rank i < rank (.choice k)
  sym_modules : ∀ x s, K.sym x = some s → s.origType = .tristate →
    rank (.sym modules) < rank (.sym x)
  choice_modules : ∀ k c, K.choices[k]? = some c → c.origType = .tristate →
    rank (.sym modules) < rank (.choice k)

/-- No item refers to itself, directly or through others. -/
def Loopless (K : Config) : Prop := ∃ rank, K.Ranked rank

/-- The rank of an attribute. -/
def depth (rank : Item → ℕ) (d : Cell) : ℕ := 5 * rank d.item + d.level

variable {K : Config} {A : (d : Cell) → Val d → Prop} {u : User} {rank : Item → ℕ} {j : Item}
  {x : Text} {s : Symbol} {k : ℕ} {n : ℕ}

theorem level_le (d : Cell) : d.level ≤ 4 := by
  cases d with
  | vis i => cases i <;> simp [Cell.level]
  | _ => simp [Cell.level]

/-- What has a lower rank may be read. -/
theorem Ranked.mayRead (hr : K.Ranked rank) (h : 5 * rank j + 5 ≤ n) :
    K.MayRead (fun d => depth rank d < n) j := by
  have below : ∀ d : Cell, 5 * rank d.item + 5 ≤ n → depth rank d < n := by
    intro d hd
    have := level_le d
    unfold depth
    omega
  cases j with
  | sym x => exact ⟨below _ h, below _ h⟩
  | choice k =>
    refine ⟨below _ h, fun c hc ht => below _ ?_⟩
    have := hr.choice_modules k c hc ht
    simp only [Cell.item]
    omega

/-- A symbol may read the mode of its choice. -/
theorem Ranked.mayRead_choice (hK : K.Consistent) (hr : K.Ranked rank) (hs : K.sym x = some s)
    (hk : s.choice = some k) (h : 5 * rank (.sym x) < n) :
    K.MayRead (fun d => depth rank d < n) (.choice k) := by
  obtain ⟨c, hc, hx⟩ := hK.choice_mem hs hk
  rw [hr.group k c hc x hx] at h
  refine ⟨h, fun c' hc' ht => ?_⟩
  have := hr.choice_modules k c' hc' ht
  simp only [depth, Cell.item, Cell.level]
  omega

theorem Ranked.symReads (hK : K.Consistent) (hr : K.Ranked rank) (hs : K.sym x = some s)
    (h : 5 * rank (.sym x) < n) : K.SymReads (fun d => depth rank d < n) s where
  exprs e he j hj := by
    rcases hr.sym x s hs e he j hj with ⟨k, hk, rfl⟩ | lower
    · exact hr.mayRead_choice hK hs hk h
    · exact hr.mayRead (by omega)
  modules ht := by
    have := hr.sym_modules x s hs ht
    simp only [depth, Cell.item, Cell.level]
    omega

theorem Ranked.choiceReads (hr : K.Ranked rank) (hc : K.choices[k]? = some c)
    (h : 5 * rank (.choice k) ≤ n) : K.ChoiceReads (fun d => depth rank d < n) c where
  exprs e he j hj := by
    have := hr.choice k c hc e he j hj
    exact hr.mayRead (by omega)
  modules ht := by
    have := hr.choice_modules k c hc ht
    simp only [depth, Cell.item, Cell.level]
    omega

/-- **An attribute reads attributes of lower rank only.** -/
theorem Ranked.within_rule (hK : K.Consistent) (hu : K.Selects u) (hr : K.Ranked rank) (d : Cell) :
    (K.rule u d).Within A fun d' => depth rank d' < depth rank d := by
  cases d with
  | vis i =>
    cases i with
    | sym x =>
      cases hs : K.sym x with
      | none => rw [rule, visibility, hs]; trivial
      | some s =>
        exact within_visibility_sym hs (hr.symReads hK hs (Nat.lt_succ_self _))
          fun k hk => hr.mayRead_choice hK hs hk (Nat.lt_succ_self _)
    | choice k =>
      cases hc : K.choices[k]? with
      | none => rw [rule, visibility, hc]; trivial
      | some c => exact within_visibility_choice hc (hr.choiceReads hc le_rfl)
  | tri x =>
    cases hs : K.sym x with
    | none => rw [rule, hs]; trivial
    | some s =>
      rw [rule, hs]
      refine within_triRule (hr.symReads hK hs (by simp [depth, Cell.item, Cell.level]))
        (by simp [depth, Cell.item, Cell.level]) fun k hk _ => ?_
      obtain ⟨c, hc, hx⟩ := hK.choice_mem hs hk
      simp [depth, Cell.item, Cell.level, hr.group k c hc x hx]
  | str x =>
    cases hs : K.sym x with
    | none => rw [rule, hs]; trivial
    | some s =>
      rw [rule, hs]
      exact within_strRule (hr.symReads hK hs (by simp [depth, Cell.item, Cell.level]))
        (by simp [depth, Cell.item, Cell.level]) (by simp [depth, Cell.item, Cell.level])
  | assignable i =>
    cases i with
    | sym x =>
      cases hs : K.sym x with
      | none => rw [rule, assignableRule, hs]; trivial
      | some s =>
        exact within_assignable_sym hs
          (hr.symReads hK hs (by simp [depth, Cell.item, Cell.level]))
          (by simp [depth, Cell.item, Cell.level])
    | choice k =>
      cases hc : K.choices[k]? with
      | none => rw [rule, assignableRule, hc]; trivial
      | some c =>
        exact within_assignable_choice (u := u) hc
          (hr.choiceReads hc (by simp [depth, Cell.item])) (by simp [depth, Cell.item, Cell.level])
  | selection k =>
    cases hc : K.choices[k]? with
    | none => rw [rule, selectionRule, hc]; trivial
    | some c =>
      refine within_selectionRule hK hu hc (hr.choiceReads hc (by simp [depth, Cell.item]))
        ⟨by simp [depth, Cell.item, Cell.level], fun c' hc' ht => ?_⟩ fun x hx => ?_
      · have := hr.choice_modules k c' hc' ht
        simp only [depth, Cell.item, Cell.level]
        omega
      · simp [depth, Cell.item, Cell.level, hr.group k c hc x hx]

/-- **Without loops every attribute has a value**, whatever the user has set. -/
theorem Loopless.gives (hloop : K.Loopless) (hK : K.Consistent) (hu : K.Selects u) (d : Cell) :
    ∃ v, Gives (K.rule u) (K.rule u d) v := by
  obtain ⟨rank, hr⟩ := hloop
  exact exists_gives (fun d => hr.within_rule hK hu d) d

end Config

end Kconfig
