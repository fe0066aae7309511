import VeRoot.Demand.Invalidate
import VeRoot.Kconfig.Reads

/-!
# Cached values and their invalidation

Every attribute is calculated when it is first read and then kept.  `_build_dep` registers who
depends on whom, from the expressions in the properties, and `_add_choice_deps` adds a choice to
the dependents of its symbols.  When a user value changes, `_rec_invalidate` forgets the cached
attributes of the item and walks on to the dependents that have a cached visibility.

## Main definitions

* `buildDep`, `addChoiceDeps`, `dependents` — who depends on whom.
* `WellFormed` — what finalizing the menu tree sees to.
* `covers` — the registered dependents cover whatever is read.
-/

namespace Kconfig

open Unix Demand

namespace Config

variable (K : Config)

/-- `_build_dep`: an item of an expression, with the symbol or choice that has the expression. -/
def buildDep : List (Item × Item) :=
  (K.symbols.flatMap fun p => (p.2.exprs.flatMap Expr.items).map (·, .sym p.1)) ++
    K.choices.zipIdx.flatMap fun p => (p.1.exprs.flatMap Expr.items).map (·, .choice p.2)

/-- `_add_choice_deps`: the symbols of a choice, with the choice. -/
def addChoiceDeps : List (Item × Item) :=
  K.choices.zipIdx.flatMap fun p => p.1.syms.map (.sym ·, .choice p.2)

/-- `_dependents` of an item. -/
def dependents (i : Item) : List Item :=
  (K.buildDep ++ K.addChoiceDeps).filterMap fun p => if p.1 = i then some p.2 else none

/-- The attributes, their items, and who has to hear of a change.  An invalidation of `MODULES`
invalidates everything. -/
def net : Net Cell Item where
  item := Cell.item
  flag := .vis
  item_flag _ := rfl
  dependents := K.dependents
  hub i := i = .sym modules

/-- What holds once the menu tree is finalized, if the sanity checks have nothing to say: the choices
are consistent, and a choice has been propagated to the properties of its symbols, unless what a
symbol depends on is `n` and its visibility does not read the mode of the choice either. -/
structure WellFormed : Prop extends K.Consistent where
  propagated : ∀ {x : Text} {s : Symbol} {k : ℕ}, K.sym x = some s → s.choice = some k →
    (∃ e ∈ s.exprs, .choice k ∈ e.items) ∨ s.Hidden ∧
      ∀ c, K.choices[k]? = some c → c.origType = .tristate → s.origType = .tristate

variable {K} {i j : Item} {x : Text} {s : Symbol} {k : ℕ} {c : Choice} {e : Expr} {u : User}

/-! ## Who depends on whom -/

theorem mem_dependents : j ∈ K.dependents i ↔ (i, j) ∈ K.buildDep ++ K.addChoiceDeps := by
  unfold dependents
  rw [List.mem_filterMap]
  constructor
  · rintro ⟨p, hp, h⟩
    split at h
    · next hi => rw [← hi, ← Option.some.inj h]; exact hp
    · cases h
  · exact fun h => ⟨_, h, if_pos rfl⟩

/-- A symbol depends on what its properties refer to. -/
theorem sym_mem_dependents (hs : K.sym x = some s) (he : e ∈ s.exprs) (hi : i ∈ e.items) :
    .sym x ∈ K.dependents i := by
  have hmem : (x, s) ∈ K.symbols := by
    obtain ⟨l, r, hl, -⟩ := List.lookup_eq_some_iff.mp hs
    rw [hl]
    simp
  refine mem_dependents.mpr (List.mem_append_left _ (List.mem_append_left _ ?_))
  exact List.mem_flatMap.mpr ⟨_, hmem, List.mem_map.mpr ⟨i, List.mem_flatMap.mpr ⟨e, he, hi⟩, rfl⟩⟩

/-- A choice depends on what its properties refer to. -/
theorem choice_mem_dependents (hc : K.choices[k]? = some c) (he : e ∈ c.exprs) (hi : i ∈ e.items) :
    .choice k ∈ K.dependents i := by
  refine mem_dependents.mpr (List.mem_append_left _ (List.mem_append_right _ ?_))
  exact List.mem_flatMap.mpr ⟨(c, k), List.mk_mem_zipIdx_iff_getElem?.mpr hc,
    List.mem_map.mpr ⟨i, List.mem_flatMap.mpr ⟨e, he, hi⟩, rfl⟩⟩

/-- A choice depends on its symbols. -/
theorem choice_mem_dependents_sym (hc : K.choices[k]? = some c) (hx : x ∈ c.syms) :
    .choice k ∈ K.dependents (.sym x) := by
  refine mem_dependents.mpr (List.mem_append_right _ ?_)
  exact List.mem_flatMap.mpr ⟨(c, k), List.mk_mem_zipIdx_iff_getElem?.mpr hc,
    List.mem_map.mpr ⟨x, hx, rfl⟩⟩

/-! ## What is read is registered -/

/-- A change of the cell's item reaches `i`. -/
def Reaches (K : Config) (i : Item) (d : Cell) : Prop :=
  d.item = i ∨ i ∈ K.dependents d.item ∨ d.item = .sym modules

theorem mayRead_of_mem_dependents (h : i ∈ K.dependents j) : K.MayRead (Reaches K i) j := by
  cases j with
  | sym x => exact ⟨.inr (.inl h), .inr (.inl h)⟩
  | choice k => exact ⟨.inr (.inl h), fun _ _ _ => .inr (.inr rfl)⟩

theorem symReads (hs : K.sym x = some s) : K.SymReads (Reaches K (.sym x)) s where
  exprs _ he _ hj := mayRead_of_mem_dependents (sym_mem_dependents hs he hj)
  modules _ := .inr (.inr rfl)

theorem choiceReads (hc : K.choices[k]? = some c) : K.ChoiceReads (Reaches K (.choice k)) c where
  exprs _ he _ hj := mayRead_of_mem_dependents (choice_mem_dependents hc he hj)
  modules _ := .inr (.inr rfl)

/-- A symbol depends on its choice, or is hidden. -/
theorem WellFormed.mem_dependents (hK : K.WellFormed) (hs : K.sym x = some s)
    (hk : s.choice = some k) : .sym x ∈ K.dependents (.choice k) ∨ s.Hidden ∧
      ∀ c, K.choices[k]? = some c → c.origType = .tristate → s.origType = .tristate :=
  (hK.propagated hs hk).imp_left fun ⟨_, he, hi⟩ => sym_mem_dependents hs he hi

theorem within_vis (hK : K.WellFormed) (hs : K.sym x = some s) {A : (d : Cell) → Val d → Prop} :
    (K.visibility u (.sym x)).Within A (Reaches K (.sym x)) := by
  cases hk : s.choice with
  | none => exact within_visibility_sym hs (symReads hs) fun k e => by rw [hk] at e; cases e
  | some k =>
    rcases hK.mem_dependents hs hk with hmem | ⟨hidden, ht⟩
    · refine within_visibility_sym hs (symReads hs) fun k' e => ?_
      obtain rfl := Option.some.inj (hk.symm.trans e)
      exact mayRead_of_mem_dependents hmem
    · refine within_visibility_hidden hs hidden fun k' c e hc => ?_
      obtain rfl := Option.some.inj (hk.symm.trans e)
      exact ht c hc

theorem within_tri (hK : K.WellFormed) (hs : K.sym x = some s) :
    (K.triRule u x s).Within (Answers (K.rule u)) (Reaches K (.sym x)) := by
  refine within_triRule (symReads hs) (.inl rfl) fun k hk hy => ?_
  rcases hK.mem_dependents hs hk with hmem | ⟨hidden, -⟩
  · exact .inr (.inl hmem)
  · -- a hidden symbol is never visible
    obtain ⟨t, ht⟩ := hy
    exact absurd ((yields_visibility hs hidden).of_eval ht) (by decide)

/-- A calculation that reads anything reads the visibility of its item first. -/
theorem guarded (K : Config) (u : User) (d : Cell) : (∃ v, K.rule u d = .done v) ∨
    d = .vis d.item ∨ ∃ d' q, K.rule u d = .ask d' q ∧ d'.item = d.item ∧
      (d' = .vis d.item ∨ ∃ q', K.rule u d' = .ask (.vis d.item) q') := by
  have tri : ∀ {x s}, K.sym x = some s → s.origType.isBoolTristate →
      ∃ q, K.rule u (.tri x) = .ask (.vis (.sym x)) q := by
    intro x s hs ht
    rw [rule, hs, Option.elim_some, triRule, if_pos ht]
    exact ⟨_, rfl⟩
  cases d with
  | vis i => exact .inr (.inl rfl)
  | tri x =>
    cases hs : K.sym x with
    | none => exact .inl ⟨_, by rw [rule, hs]; rfl⟩
    | some s =>
      by_cases ht : s.origType.isBoolTristate
      · obtain ⟨q, hq⟩ := tri hs ht
        exact .inr (.inr ⟨_, q, hq, rfl, .inl rfl⟩)
      · exact .inl ⟨_, by rw [rule, hs, Option.elim_some, triRule, if_neg ht]; rfl⟩
  | str x =>
    cases hs : K.sym x with
    | none => exact .inl ⟨_, by rw [rule, hs]; rfl⟩
    | some s =>
      rw [rule, hs, Option.elim_some, strRule]
      by_cases ht : s.origType.isBoolTristate
      · rw [if_pos ht]
        exact .inr (.inr ⟨.tri x, _, rfl, rfl, .inr (tri hs ht)⟩)
      · by_cases hu : s.origType = .unknown
        · rw [if_neg ht, if_pos hu]
          exact .inl ⟨_, rfl⟩
        · rw [if_neg ht, if_neg hu]
          exact .inr (.inr ⟨.vis (.sym x), _, rfl, rfl, .inl rfl⟩)
  | assignable i =>
    rw [rule]
    cases i with
    | sym x =>
      cases hs : K.sym x with
      | none => exact .inl ⟨[], by rw [assignableRule, hs]; rfl⟩
      | some s =>
        rw [assignableRule, hs]
        by_cases ht : s.origType.isBoolTristate
        · simp only [if_pos ht]
          exact .inr (.inr ⟨.vis (.sym x), _, rfl, rfl, .inl rfl⟩)
        · simp only [if_neg ht]
          exact .inl ⟨[], rfl⟩
    | choice k =>
      cases hc : K.choices[k]? with
      | none => exact .inl ⟨[], by rw [assignableRule, hc]; rfl⟩
      | some c =>
        rw [assignableRule, hc]
        exact .inr (.inr ⟨.vis (.choice k), _, rfl, rfl, .inl rfl⟩)
  | selection k =>
    rw [rule, selectionRule]
    cases hc : K.choices[k]? with
    | none => exact .inl ⟨none, rfl⟩
    | some c =>
      simp only [choiceTri, hc]
      exact .inr (.inr ⟨.vis (.choice k), _, rfl, rfl, .inl rfl⟩)

/-- **The registered dependents cover whatever is read.** -/
theorem covers (hK : K.WellFormed) (hu : K.Selects u) : K.net.Covers (K.rule u) where
  asks d := by
    have h : (K.rule u d).Within (Answers (K.rule u)) (Reaches K d.item) := by
      cases d with
      | vis i =>
        cases i with
        | sym x =>
          cases hs : K.sym x with
          | none => rw [rule, visibility, hs]; trivial
          | some s => exact within_vis hK hs
        | choice k =>
          cases hc : K.choices[k]? with
          | none => rw [rule, visibility, hc]; trivial
          | some c => exact within_visibility_choice hc (choiceReads hc)
      | tri x =>
        cases hs : K.sym x with
        | none => rw [rule, hs]; trivial
        | some s => rw [rule, hs]; exact within_tri hK hs
      | str x =>
        cases hs : K.sym x with
        | none => rw [rule, hs]; trivial
        | some s => rw [rule, hs]; exact within_strRule (symReads hs) (.inl rfl) (.inl rfl)
      | assignable i =>
        cases i with
        | sym x =>
          cases hs : K.sym x with
          | none => rw [rule, assignableRule, hs]; trivial
          | some s => exact within_assignable_sym hs (symReads hs) (.inl rfl)
        | choice k =>
          cases hc : K.choices[k]? with
          | none => rw [rule, assignableRule, hc]; trivial
          | some c => exact within_assignable_choice (u := u) hc (choiceReads hc) (.inl rfl)
      | selection k =>
        cases hc : K.choices[k]? with
        | none => rw [rule, selectionRule, hc]; trivial
        | some c =>
          exact within_selectionRule hK.toConsistent hu hc (choiceReads hc)
            ⟨.inl rfl, fun _ _ _ => .inr (.inr rfl)⟩
            fun x hx => .inr (.inl (choice_mem_dependents_sym hc hx))
    exact h.mono fun d' hd => hd.imp id (.imp id decide_eq_true)
  guarded := guarded K u

end Config

end Kconfig
