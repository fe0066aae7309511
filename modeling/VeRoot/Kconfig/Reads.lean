import VeRoot.Kconfig.Value

/-!
# What the attributes read

The calculation of an attribute reads the values of what the properties of its symbol or choice
refer to, a few attributes of the same item, and the mode of the choice that a symbol belongs to.

## Main definitions

* `Symbol.exprs`, `Choice.exprs` — the expressions in the properties.
* `Consistent`, `Selects` — the choices are consistent, and what the user has selected in them is.
* `MayRead` — what an item stands for in an expression may be read.
* `SymReads`, `ChoiceReads` — what the properties refer to may be read.
* `within_visibility_sym` … `within_selectionRule` — what each of the attributes reads.
-/

namespace Kconfig

open Unix Demand

/-- The expressions that `_build_dep` looks at for a symbol. -/
def Symbol.exprs (s : Symbol) : List Expr :=
  s.prompts ++ s.defaults.flatMap (fun p => [p.1, p.2]) ++ [s.revDep, s.weakRevDep] ++
    s.ranges.flatMap (fun r => [.atom r.1, .atom r.2.1, r.2.2]) ++ [s.directDep]

/-- The expressions that `_build_dep` looks at for a choice. -/
def Choice.exprs (c : Choice) : List Expr := c.prompts ++ c.defaults.map Prod.snd

/-- The item whose attribute a cell is. -/
def Cell.item : Cell → Item
  | vis i | assignable i => i
  | tri x | str x => .sym x
  | selection k => .choice k

/-- No prompt, or only prompts with the condition `n`, as `depends on n` leaves them. -/
def Symbol.Hidden (s : Symbol) : Prop := ∀ e ∈ s.prompts, e = .tri .n

namespace Config

/-- A choice symbol is among the symbols of its choice, and the defaults of a choice are contained
in the choice; kconfiglib warns of a default that is not. -/
structure Consistent (K : Config) : Prop where
  choice_mem : ∀ {x : Text} {s : Symbol} {k : ℕ}, K.sym x = some s → s.choice = some k →
    ∃ c, K.choices[k]? = some c ∧ x ∈ c.syms
  default_mem : ∀ {k : ℕ} {c : Choice} {a : Atom} {cond : Expr}, K.choices[k]? = some c →
    (a, cond) ∈ c.defaults → ∃ x ∈ c.syms, a = .sym x

/-- The user selections are symbols of their choices. -/
def Selects (K : Config) (u : User) : Prop :=
  ∀ k x, u.selected k = some x → ∃ c, K.choices[k]? = some c ∧ x ∈ c.syms

/-- What an item stands for in an expression may be read. -/
def MayRead (K : Config) (P : Cell → Prop) : Item → Prop
  | .sym x => P (.tri x) ∧ P (.str x)
  | .choice k => P (.vis (.choice k)) ∧
      ∀ c, K.choices[k]? = some c → c.origType = .tristate → P (.tri modules)

/-- What the properties of a symbol refer to may be read, and `MODULES` if they ask for it. -/
structure SymReads (K : Config) (P : Cell → Prop) (s : Symbol) : Prop where
  exprs : ∀ e ∈ s.exprs, ∀ j ∈ e.items, K.MayRead P j
  modules : s.origType = .tristate → P (.tri modules)

/-- What the properties of a choice refer to may be read, and `MODULES` if they ask for it. -/
structure ChoiceReads (K : Config) (P : Cell → Prop) (c : Choice) : Prop where
  exprs : ∀ e ∈ c.exprs, ∀ j ∈ e.items, K.MayRead P j
  modules : c.origType = .tristate → P (.tri modules)

variable {K : Config} {A : (d : Cell) → Val d → Prop} {P : Cell → Prop} {u : User} {x : Text}
  {s : Symbol} {k : ℕ} {c : Choice} {e : Expr} {es : List Expr} {a b : Atom} {vis : Tri} {α : Type}

/-! ## Expressions -/

theorem within_triValue (h : ∀ j ∈ a.items, K.MayRead P j) : (K.triValue a).Within A P := by
  cases a with
  | const c => trivial
  | sym x =>
    rw [triValue]
    split
    · exact ⟨(h _ List.mem_cons_self).1, fun _ _ => trivial⟩
    · trivial

theorem within_modules (h : P (.tri modules)) : (K.triValue (.sym modules)).Within A P := by
  rw [triValue]
  split
  · exact ⟨h, fun _ _ => trivial⟩
  · trivial

theorem within_strValue (h : ∀ j ∈ a.items, K.MayRead P j) : (K.strValue a).Within A P := by
  cases a with
  | const c => trivial
  | sym x =>
    rw [strValue]
    split
    · exact ⟨(h _ List.mem_cons_self).2, fun _ _ => trivial⟩
    · trivial

theorem within_choiceType (h : c.origType = .tristate → P (.tri modules)) :
    (K.choiceType c).Within A P := by
  unfold choiceType
  split
  · next ht => exact (within_modules (h ht)).bind fun v => trivial
  · trivial

theorem within_choiceTri (h : K.MayRead P (.choice k)) : (K.choiceTri u k).Within A P := by
  unfold choiceTri
  split
  · trivial
  · next c hc =>
    refine ⟨h.1, fun v _ => ?_⟩
    simp only [Query.bind]
    split
    · exact (within_choiceType (h.2 c hc)).bind fun v => trivial
    · trivial

theorem within_symToNum (h : ∀ j ∈ a.items, K.MayRead P j) : (K.symToNum a).Within A P := by
  unfold symToNum
  split
  · exact (within_triValue h).bind fun v => trivial
  · exact (within_strValue h).bind fun v => trivial

theorem within_compareText (ha : ∀ j ∈ a.items, K.MayRead P j) (hb : ∀ j ∈ b.items, K.MayRead P j) :
    (K.compareText a b).Within A P :=
  (within_strValue ha).bind fun _ => (within_strValue hb).bind fun _ => trivial

theorem within_compare (ha : ∀ j ∈ a.items, K.MayRead P j) (hb : ∀ j ∈ b.items, K.MayRead P j) :
    (K.compare a b).Within A P := by
  unfold compare
  split
  · exact within_compareText ha hb
  · refine (within_symToNum ha).bind fun v => ?_
    cases v with
    | none => exact within_compareText ha hb
    | some v =>
      refine (within_symToNum hb).bind fun w => ?_
      cases w with
      | none => exact within_compareText ha hb
      | some w => trivial

/-- **An expression reads what it refers to.** -/
theorem within_exprValue (h : ∀ j ∈ e.items, K.MayRead P j) : (K.exprValue u e).Within A P := by
  induction e with
  | atom a => exact within_triValue h
  | choice k => exact within_choiceTri (h _ List.mem_cons_self)
  | and a b iha ihb | or a b iha ihb =>
    obtain ⟨ha, hb⟩ := List.forall_mem_append.mp h
    refine (iha ha).bind fun v => ?_
    split
    · trivial
    · exact (ihb hb).bind fun w => trivial
  | not a ih => exact (ih h).bind fun v => trivial
  | rel r a b =>
    obtain ⟨ha, hb⟩ := List.forall_mem_append.mp h
    exact (within_compare ha hb).bind fun v => trivial

theorem within_maxValue (h : ∀ e ∈ es, ∀ j ∈ e.items, K.MayRead P j) :
    (K.maxValue u es).Within A P := by
  induction es with
  | nil => trivial
  | cons e es ih =>
    obtain ⟨he, hes⟩ := List.forall_mem_cons.mp h
    exact (within_exprValue he).bind fun v => (ih hes).bind fun w => trivial

theorem within_firstActive {cond : α → Expr} {ps : List α}
    (h : ∀ p ∈ ps, ∀ j ∈ (cond p).items, K.MayRead P j) :
    (K.firstActive u cond ps).Within A P := by
  induction ps with
  | nil => trivial
  | cons p ps ih =>
    obtain ⟨hp, hps⟩ := List.forall_mem_cons.mp h
    refine (within_exprValue hp).bind fun v => ?_
    split
    · exact ih hps
    · trivial

theorem yields_firstActive {cond : α → Expr} {ps : List α} :
    (K.firstActive u cond ps).Yields fun r => ∀ p ∈ r, p.1 ∈ ps := by
  induction ps with
  | nil => exact fun p hp => absurd hp (Option.not_mem_none p)
  | cons p ps ih =>
    refine .bind fun v => ?_
    split
    · exact ih.mono fun r hr q hq => List.mem_cons_of_mem _ (hr q hq)
    · intro q hq
      rw [← Option.some.inj hq]
      exact List.mem_cons_self

/-! ## Visibility -/

theorem mem_exprs_prompt (he : e ∈ s.prompts) : e ∈ s.exprs := by simp [Symbol.exprs, he]

theorem mem_exprs_revDep : s.revDep ∈ s.exprs := by simp [Symbol.exprs]

theorem mem_exprs_weakRevDep : s.weakRevDep ∈ s.exprs := by simp [Symbol.exprs]

theorem mem_exprs_directDep : s.directDep ∈ s.exprs := by simp [Symbol.exprs]

theorem mem_exprs_default {p : Expr × Expr} (hp : p ∈ s.defaults) :
    p.1 ∈ s.exprs ∧ p.2 ∈ s.exprs := by
  simp only [Symbol.exprs, List.mem_append, List.mem_flatMap]
  exact ⟨.inl (.inl (.inl (.inr ⟨p, hp, by simp⟩))), .inl (.inl (.inl (.inr ⟨p, hp, by simp⟩)))⟩

theorem mem_exprs_range {r : Atom × Atom × Expr} (hr : r ∈ s.ranges) :
    .atom r.1 ∈ s.exprs ∧ .atom r.2.1 ∈ s.exprs ∧ r.2.2 ∈ s.exprs := by
  simp only [Symbol.exprs, List.mem_append, List.mem_flatMap]
  exact ⟨.inl (.inr ⟨r, hr, by simp⟩), .inl (.inr ⟨r, hr, by simp⟩), .inl (.inr ⟨r, hr, by simp⟩)⟩

theorem within_symType (h : K.SymReads P s) (hk : ∀ k, s.choice = some k → K.MayRead P (.choice k)) :
    (K.symType u s).Within A P := by
  have hmode : (K.inYMode u s).Within A P := by
    unfold inYMode
    split
    · trivial
    · next k hc => exact (within_choiceTri (hk k hc)).bind fun v => trivial
  unfold symType
  split
  · next ht =>
    refine hmode.bind fun v => ?_
    split
    · trivial
    · exact (within_modules (h.modules ht)).bind fun v => trivial
  · trivial

theorem within_hides (hk : ∀ k, s.choice = some k → K.MayRead P (.choice k)) :
    (K.hides u s vis).Within A P := by
  unfold hides
  split
  · trivial
  · next k hc =>
    have hmode : (K.choiceTri u k).Within A P := within_choiceTri (hk k hc)
    split
    · exact hmode.bind fun v => trivial
    · split
      · exact hmode.bind fun v => trivial
      · trivial

theorem within_promoteVis {type : Query Val SymType} (h : type.Within A P) :
    (promoteVis vis type).Within A P := by
  unfold promoteVis
  split
  · exact h.bind fun v => trivial
  · trivial

theorem within_visibility_sym (hs : K.sym x = some s) (h : K.SymReads P s)
    (hk : ∀ k, s.choice = some k → K.MayRead P (.choice k)) :
    (K.visibility u (.sym x)).Within A P := by
  simp only [visibility, hs]
  refine (within_maxValue fun e he => h.exprs e (mem_exprs_prompt he)).bind fun v =>
    (within_hides hk).bind fun b => ?_
  split
  · trivial
  · exact within_promoteVis (within_symType h hk)

theorem within_visibility_choice (hc : K.choices[k]? = some c) (h : K.ChoiceReads P c) :
    (K.visibility u (.choice k)).Within A P := by
  simp only [visibility, hc]
  exact (within_maxValue fun e he => h.exprs e (List.mem_append_left _ he)).bind fun v =>
    within_promoteVis (within_choiceType h.modules)

theorem maxValue_hidden (h : ∀ e ∈ es, e = .tri .n) : K.maxValue u es = .done .n := by
  induction es with
  | nil => rfl
  | cons e es ih =>
    obtain ⟨rfl, hes⟩ := List.forall_mem_cons.mp h
    rw [maxValue, ih hes]
    rfl

/-- A hidden symbol is not visible. -/
theorem yields_visibility (hs : K.sym x = some s) (h : s.Hidden) :
    (K.visibility u (.sym x)).Yields (· = .n) := by
  simp only [visibility, hs, maxValue_hidden h, Query.done_bind]
  refine .bind fun b => ?_
  split <;> rfl

/-- A hidden symbol that is tristate if its choice is does not even read the mode of the choice. -/
theorem within_visibility_hidden (hs : K.sym x = some s) (h : s.Hidden)
    (ht : ∀ k c, s.choice = some k → K.choices[k]? = some c → c.origType = .tristate →
      s.origType = .tristate) : (K.visibility u (.sym x)).Within A P := by
  simp only [visibility, hs, maxValue_hidden h, Query.done_bind]
  have hides : (K.hides u s .n).Within A P := by
    unfold hides
    split
    · trivial
    · next k hk =>
      split
      · next mixed =>
        obtain ⟨hc, hne⟩ := mixed
        cases hck : K.choices[k]? with
        | none => simp [hck] at hc
        | some c => exact absurd (ht k c hk hck (by simpa [hck] using hc)) hne
      · rw [if_neg fun h => absurd h.2 (by decide)]
        trivial
  refine hides.bind fun b => ?_
  split <;> trivial

/-! ## Values -/

theorem within_promotes (h : K.SymReads P s) (hk : ∀ k, s.choice = some k → K.MayRead P (.choice k)) :
    (K.promotes u s).Within A P := by
  refine (within_symType h hk).bind fun t => ?_
  split
  · trivial
  · exact (within_exprValue (h.exprs _ mem_exprs_weakRevDep)).bind fun v => trivial

theorem within_defaults (h : K.SymReads P s) :
    (K.firstActive u Prod.snd s.defaults).Within A P :=
  within_firstActive fun _ hp => h.exprs _ (mem_exprs_default hp).2

theorem within_triImplied (h : K.SymReads P s) : (K.triImplied u s vis).Within A P := by
  have hdefault : (K.triDefault u s).Within A P := by
    refine (within_defaults h).bind_of_yields yields_firstActive fun r hr => ?_
    split
    · trivial
    · next p dep =>
      exact (within_exprValue (h.exprs _ (mem_exprs_default (hr _ rfl)).1)).bind fun v => trivial
  refine hdefault.bind fun v => ?_
  refine (within_exprValue (h.exprs _ mem_exprs_weakRevDep)).bind fun w => ?_
  split
  · exact (within_exprValue (h.exprs _ mem_exprs_directDep)).bind fun v => trivial
  · trivial

theorem within_triFree (h : K.SymReads P s) (hk : s.choice = none) :
    (K.triFree u x s vis).Within A P := by
  have hbase : (K.triBase u x s vis).Within A P := by
    unfold triBase
    split
    · split
      · trivial
      · exact within_triImplied h
    · exact within_triImplied h
  refine hbase.bind fun v => ?_
  refine (within_exprValue (h.exprs _ mem_exprs_revDep)).bind fun w => ?_
  dsimp only
  split
  · exact (within_promotes h fun k e => by rw [hk] at e; cases e).bind fun b => trivial
  · trivial

theorem within_triRule (h : K.SymReads P s) (hvis : P (.vis (.sym x)))
    (hsel : ∀ k, s.choice = some k → A (.vis (.sym x)) .y → P (.selection k)) :
    (K.triRule u x s).Within A P := by
  unfold triRule
  split
  · refine ⟨hvis, fun vis hv => ?_⟩
    simp only [Query.bind]
    split
    · next hk => exact within_triFree h hk
    · next k hk =>
      unfold triChoice
      split
      · next hy => exact ⟨hsel k hk (hy ▸ hv), fun _ _ => trivial⟩
      · split <;> trivial
  · trivial

theorem within_strDefault (h : K.SymReads P s) : (K.strDefault u s).Within A P := by
  refine (within_defaults h).bind_of_yields yields_firstActive fun r hr => ?_
  split
  · trivial
  · next a cond dep =>
    have ha : ∀ j ∈ a.items, K.MayRead P j := h.exprs _ (mem_exprs_default (hr _ rfl)).1
    exact (within_strValue ha).bind fun v => trivial
  · trivial

theorem within_activeRange (h : K.SymReads P s) : (K.activeRange u s).Within A P := by
  refine Query.Within.bind_of_yields (within_firstActive fun r hr =>
    h.exprs _ (mem_exprs_range hr).2.2) yields_firstActive fun r hr => ?_
  split
  · trivial
  · next low high cond dep =>
    have hmem := mem_exprs_range (hr _ rfl)
    have hlow : ∀ j ∈ low.items, K.MayRead P j := h.exprs _ hmem.1
    have hhigh : ∀ j ∈ high.items, K.MayRead P j := h.exprs _ hmem.2.1
    exact (within_strValue hlow).bind fun v => (within_strValue hhigh).bind fun w => trivial

theorem within_textRule (h : K.SymReads P s) : (K.textRule u x s vis).Within A P := by
  have hdefault : (K.textDefault u s vis).Within A P := (within_strDefault h).bind fun v => trivial
  unfold textRule
  split
  · split
    · trivial
    · exact hdefault
  · exact hdefault

theorem within_numRule (h : K.SymReads P s) : (K.numRule u x s vis).Within A P := by
  refine (within_activeRange h).bind fun range => ?_
  have hdefault : (K.numDefault u s range vis).Within A P :=
    (within_strDefault h).bind fun v => trivial
  split
  · split
    · trivial
    · exact hdefault
  · exact hdefault

theorem within_strRule (h : K.SymReads P s) (hvis : P (.vis (.sym x))) (htri : P (.tri x)) :
    (K.strRule u x s).Within A P := by
  unfold strRule
  split
  · exact ⟨htri, fun v _ => trivial⟩
  · split
    · trivial
    · refine ⟨hvis, fun vis _ => ?_⟩
      have hv : (K.textOrNum u x s vis).Within A P := by
        unfold textOrNum
        split
        · exact within_textRule h
        · exact within_numRule h
      exact hv.bind fun v => trivial

/-! ## Assignable values and selections -/

theorem within_assignable_sym (hs : K.sym x = some s) (h : K.SymReads P s)
    (hvis : P (.vis (.sym x))) : (K.assignableRule u (.sym x)).Within A P := by
  simp only [assignableRule, hs]
  split
  · refine ⟨hvis, fun vis _ => ?_⟩
    simp only [Query.bind, symAssignable]
    split
    · trivial
    · refine (within_exprValue (h.exprs _ mem_exprs_revDep)).bind fun rev => ?_
      have hw : (K.exprValue u s.weakRevDep).Within A P :=
        within_exprValue (h.exprs _ mem_exprs_weakRevDep)
      split
      · split
        · trivial
        · next hnone =>
          have hp : (K.promotes u s).Within A P := within_promotes h fun k e => by
            rw [e] at hnone
            exact absurd rfl hnone
          split
          · exact hp.bind fun b => trivial
          · trivial
          · exact hp.bind fun b => trivial
      · exact hw.bind fun v => trivial
      · trivial
      · trivial
  · trivial

theorem within_assignable_choice (hc : K.choices[k]? = some c) (h : K.ChoiceReads P c)
    (hvis : P (.vis (.choice k))) : (K.assignableRule u (.choice k)).Within A P := by
  simp only [assignableRule, hc]
  refine ⟨hvis, fun vis _ => ?_⟩
  simp only [Query.bind, choiceAssignable]
  split
  · trivial
  · refine (within_choiceType h.modules).bind fun t => ?_
    split <;> trivial
  · trivial

theorem within_atomVis (h : P (.vis (.sym x))) : (K.atomVis (.sym x)).Within A P := by
  rw [atomVis]
  split
  · exact ⟨h, fun v _ => trivial⟩
  · trivial

theorem within_firstVisible {xs : List Text} (h : ∀ x ∈ xs, P (.vis (.sym x))) :
    (K.firstVisible xs).Within A P := by
  induction xs with
  | nil => trivial
  | cons x xs ih =>
    obtain ⟨hx, hxs⟩ := List.forall_mem_cons.mp h
    refine (within_atomVis hx).bind fun v => ?_
    split
    · exact ih hxs
    · trivial

theorem within_firstDefault {ds : List (Atom × Expr)}
    (h : ∀ d ∈ ds, (∀ j ∈ d.2.items, K.MayRead P j) ∧ ∃ x, d.1 = .sym x ∧ P (.vis (.sym x))) :
    (K.firstDefault u ds).Within A P := by
  induction ds with
  | nil => trivial
  | cons d ds ih =>
    obtain ⟨a, cond⟩ := d
    obtain ⟨⟨hcond, x, rfl, hx⟩, hds⟩ := List.forall_mem_cons.mp h
    refine (within_exprValue hcond).bind fun v => ?_
    split
    · exact ih hds
    · refine (within_atomVis hx).bind fun v => ?_
      split
      · exact ih hds
      · trivial

/-- A choice reads the visibility of its own symbols only. -/
theorem within_selectionRule (hK : K.Consistent) (hu : K.Selects u) (hc : K.choices[k]? = some c)
    (h : K.ChoiceReads P c) (hmode : K.MayRead P (.choice k))
    (hvis : ∀ x ∈ c.syms, P (.vis (.sym x))) : (K.selectionRule u k).Within A P := by
  have hdefaults : (K.selectionFromDefaults u c).Within A P := by
    have hds : ∀ d ∈ c.defaults, (∀ j ∈ d.2.items, K.MayRead P j) ∧
        ∃ x, d.1 = .sym x ∧ P (.vis (.sym x)) := by
      intro d hd
      obtain ⟨x, hx, e⟩ := hK.default_mem hc hd
      exact ⟨h.exprs _ (List.mem_append_right _ (List.mem_map_of_mem hd)), x, e, hvis x hx⟩
    refine (within_firstDefault hds).bind fun v => ?_
    cases v with
    | none => exact within_firstVisible hvis
    | some x => trivial
  simp only [selectionRule, hc]
  refine (within_choiceTri hmode).bind fun v => ?_
  split
  · trivial
  · split
    · exact hdefaults
    · next x hx =>
      obtain ⟨c', hc', hmem⟩ := hu k x hx
      obtain rfl := Option.some.inj (hc.symm.trans hc')
      refine (within_atomVis (hvis x hmem)).bind fun v => ?_
      split
      · trivial
      · exact hdefaults

end Config

end Kconfig
