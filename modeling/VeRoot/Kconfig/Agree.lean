import VeRoot.Kconfig.Value

/-!
# Calculations under different user values

User values enter the calculations at four places: the mode of a choice, its selection, and the
tristate and the text value of a symbol.  If two sets of user values make no difference there, as
long as the answers are of some kind, they make none anywhere.

## Main definitions

* `exprValue_agree` and the other lemmas of its kind — only the modes matter for them.
* `rule_agree` — the four places are all.
* `User.AgreeOff`, `rule_agreeOn` — a user value that does not count.
-/

namespace Kconfig

open Unix Demand

namespace Config

variable {K : Config} {R : Query.Congr Val} {u u' : User} {k : ℕ} {c : Choice}
  {s : Symbol} {x : Text} {vis : Tri} {e : Expr} {es : List Expr} {α : Type}

section

variable (h : ∀ k, R.rel (K.choiceTri u k) (K.choiceTri u' k))

include h

theorem inYMode_agree : R.rel (K.inYMode u s) (K.inYMode u' s) := by
  unfold inYMode
  split
  · exact R.refl _
  · exact R.bind (h _) fun v => R.refl _

theorem symType_agree : R.rel (K.symType u s) (K.symType u' s) := by
  unfold symType
  split
  · exact R.bind (inYMode_agree h) fun v => R.refl _
  · exact R.refl _

theorem exprValue_agree : R.rel (K.exprValue u e) (K.exprValue u' e) := by
  induction e with
  | atom a => exact R.refl _
  | choice k => exact h _
  | and a b iha ihb | or a b iha ihb =>
    refine R.bind iha fun v => ?_
    split
    · exact R.refl _
    · exact R.bind ihb fun w => R.refl _
  | not a ih => exact R.bind ih fun v => R.refl _
  | rel r a b => exact R.refl _

theorem maxValue_agree : R.rel (K.maxValue u es) (K.maxValue u' es) := by
  induction es with
  | nil => exact R.refl _
  | cons e es ih => exact R.bind (exprValue_agree h) fun v => R.bind ih fun w => R.refl _

theorem firstActive_agree {cond : α → Expr} {ps : List α} :
    R.rel (K.firstActive u cond ps) (K.firstActive u' cond ps) := by
  induction ps with
  | nil => exact R.refl _
  | cons p ps ih =>
    refine R.bind (exprValue_agree h) fun v => ?_
    split
    · exact ih
    · exact R.refl _

theorem visibility_agree {i : Item} :
    R.rel (K.visibility u i) (K.visibility u' i) := by
  cases i with
  | sym x =>
    rw [visibility, visibility]
    split
    · exact R.refl _
    · next s _ =>
      have hhides : ∀ vis, R.rel (K.hides u s vis) (K.hides u' s vis) := by
        intro vis
        unfold hides
        split
        · exact R.refl _
        · split
          · exact R.bind (h _) fun v => R.refl _
          · split
            · exact R.bind (h _) fun v => R.refl _
            · exact R.refl _
      refine R.bind (maxValue_agree h) fun v => R.bind (hhides v) fun b => ?_
      split
      · exact R.refl _
      · unfold promoteVis
        split
        · exact R.bind (symType_agree h) fun t => R.refl _
        · exact R.refl _
  | choice k =>
    rw [visibility, visibility]
    split
    · exact R.refl _
    · exact R.bind (maxValue_agree h) fun v => R.refl _

theorem promotes_agree : R.rel (K.promotes u s) (K.promotes u' s) := by
  refine R.bind (symType_agree h) fun t => ?_
  split
  · exact R.refl _
  · exact R.bind (exprValue_agree h) fun v => R.refl _

theorem triImplied_agree : R.rel (K.triImplied u s vis) (K.triImplied u' s vis) := by
  have hdefault : R.rel (K.triDefault u s) (K.triDefault u' s) := by
    refine R.bind (firstActive_agree h) fun r => ?_
    cases r with
    | none => exact R.refl _
    | some p => exact R.bind (exprValue_agree h) fun v => R.refl _
  refine R.bind hdefault fun v => R.bind (exprValue_agree h) fun w => ?_
  split
  · exact R.bind (exprValue_agree h) fun v => R.refl _
  · exact R.refl _

theorem strDefault_agree :
    R.rel (K.strDefault u s) (K.strDefault u' s) :=
  R.bind (firstActive_agree h) fun _ => R.refl _

theorem textDefault_agree : R.rel (K.textDefault u s vis) (K.textDefault u' s vis) :=
  R.bind (strDefault_agree h) fun _ => R.refl _

theorem numDefault_agree {range : Option (ℤ × ℤ)} :
    R.rel (K.numDefault u s range vis) (K.numDefault u' s range vis) :=
  R.bind (strDefault_agree h) fun _ => R.refl _

theorem activeRange_agree : R.rel (K.activeRange u s) (K.activeRange u' s) :=
  R.bind (firstActive_agree h) fun _ => R.refl _

theorem selectionFromDefaults_agree :
    R.rel (K.selectionFromDefaults u c) (K.selectionFromDefaults u' c) := by
  refine R.bind ?_ fun _ => R.refl _
  induction c.defaults with
  | nil => exact R.refl _
  | cons d ds ih =>
    refine R.bind (exprValue_agree h) fun v => ?_
    split
    · exact ih
    · refine R.bind (R.refl _) fun w => ?_
      split
      · exact ih
      · exact R.refl _

theorem triBase_agree (hx : u.tri x = u'.tri x) :
    R.rel (K.triBase u x s vis) (K.triBase u' x s vis) := by
  unfold triBase
  rw [hx]
  split
  · split
    · exact R.refl _
    · exact triImplied_agree h
  · exact triImplied_agree h

theorem textOrNum_agree (hx : u.str x = u'.str x) :
    R.rel (K.textOrNum u x s vis) (K.textOrNum u' x s vis) := by
  unfold textOrNum
  split
  · unfold textRule
    rw [hx]
    split
    · split
      · exact R.refl _
      · exact textDefault_agree h
    · exact textDefault_agree h
  · refine R.bind (activeRange_agree h) fun range => ?_
    rw [hx]
    split
    · split
      · exact R.refl _
      · exact numDefault_agree h
    · exact numDefault_agree h

theorem selectionRule_agree (hk : u.selected k = u'.selected k) :
    R.rel (K.selectionRule u k) (K.selectionRule u' k) := by
  unfold selectionRule
  split
  · exact R.refl _
  · refine R.bind (h k) fun v => ?_
    rw [hk]
    split
    · exact R.refl _
    · split
      · exact selectionFromDefaults_agree h
      · refine R.bind (R.refl _) fun w => ?_
        split
        · exact R.refl _
        · exact selectionFromDefaults_agree h

/-- What comes after the user value of a symbol that is not in a choice. -/
theorem triFree_agree (hb : R.rel (K.triBase u x s vis) (K.triBase u' x s vis)) :
    R.rel (K.triFree u x s vis) (K.triFree u' x s vis) := by
  refine R.bind hb fun v => R.bind (exprValue_agree h) fun w => ?_
  dsimp only
  split
  · exact R.bind (promotes_agree h) fun b => R.refl _
  · exact R.refl _

theorem assignableRule_agree {i : Item} :
    R.rel (K.assignableRule u i) (K.assignableRule u' i) := by
  cases i with
  | sym x =>
    rw [assignableRule, assignableRule]
    split
    · exact R.refl _
    · split
      · refine R.bind (R.refl _) fun vis => ?_
        unfold symAssignable
        split
        · exact R.refl _
        · refine R.bind (exprValue_agree h) fun rev => ?_
          split
          · split
            · exact R.refl _
            · split
              · exact R.bind (promotes_agree h) fun b => R.refl _
              · exact R.refl _
              · exact R.bind (promotes_agree h) fun b => R.refl _
          · exact R.bind (exprValue_agree h) fun v => R.refl _
          · exact R.refl _
          · exact R.refl _
      · exact R.refl _
  | choice k => exact R.refl _

/-- **The modes, the selections and the values of the symbols are all that depends on the user.** -/
theorem rule_agree (hsel : ∀ k, R.rel (K.selectionRule u k) (K.selectionRule u' k))
    (htri : ∀ x s, K.sym x = some s → R.rel (K.triRule u x s) (K.triRule u' x s))
    (hstr : ∀ x s, K.sym x = some s → R.rel (K.strRule u x s) (K.strRule u' x s))
    (d : Cell) : R.rel (K.rule u d) (K.rule u' d) := by
  cases d with
  | vis i => exact visibility_agree h
  | tri x =>
    cases hs : K.sym x with
    | none => rw [rule, rule, hs]; exact R.refl _
    | some s => rw [rule, rule, hs]; exact htri x s hs
  | str x =>
    cases hs : K.sym x with
    | none => rw [rule, rule, hs]; exact R.refl _
    | some s => rw [rule, rule, hs]; exact hstr x s hs
  | assignable i => exact assignableRule_agree h
  | selection k => exact hsel k

end

end Config

/-! ## The same modes -/

namespace Config

variable {K : Config} {u u' : User} {s : Symbol} {e : Expr} {x : Text}

theorem choiceTri_congr (h : u.mode = u'.mode) (k : ℕ) : K.choiceTri u k = K.choiceTri u' k := by
  unfold choiceTri wantedMode
  rw [h]

/-- An expression depends on the user through the modes of choices only. -/
theorem exprValue_congr (h : u.mode = u'.mode) : K.exprValue u e = K.exprValue u' e :=
  exprValue_agree (R := .same) (choiceTri_congr h)

theorem promotes_congr (h : u.mode = u'.mode) : K.promotes u s = K.promotes u' s :=
  promotes_agree (R := .same) (choiceTri_congr h)

/-- **A user value of a symbol counts for the value of the symbol only.** -/
theorem rule_congr {d : Cell} (hm : u.mode = u'.mode) (hsel : u.selected = u'.selected)
    (htri : ∀ x, d = .tri x → u.tri x = u'.tri x) (hstr : ∀ x, d = .str x → u.str x = u'.str x) :
    K.rule u d = K.rule u' d := by
  have h := choiceTri_congr (K := K) hm
  cases d with
  | vis i => exact visibility_agree (R := .same) h
  | tri x =>
    rw [rule, rule]
    cases K.sym x with
    | none => rfl
    | some s =>
      simp only [Option.elim_some, triRule]
      split
      · refine congrArg (Query.ask (Cell.vis (.sym x))) (funext fun vis => ?_)
        simp only [Query.bind]
        split
        · exact triFree_agree (R := .same) h (triBase_agree (R := .same) h (htri x rfl))
        · unfold triChoice
          rw [htri x rfl]
      · rfl
  | str x =>
    rw [rule, rule]
    cases K.sym x with
    | none => rfl
    | some s =>
      simp only [Option.elim_some, strRule]
      split
      · rfl
      · split
        · rfl
        · refine congrArg (Query.ask (Cell.vis (.sym x))) (funext fun vis => ?_)
          exact congrArg (· >>= _) (textOrNum_agree (R := .same) h (hstr x rfl))
  | assignable i => exact assignableRule_agree (R := .same) h
  | selection k => exact selectionRule_agree (R := .same) h (congrFun hsel k)

end Config

/-! ## A user value that does not count -/

/-- The user values are the same, but for the items in `S`. -/
structure User.AgreeOff (S : Item → Prop) (u u' : User) : Prop where
  tri : ∀ x, ¬ S (.sym x) → u.tri x = u'.tri x
  str : ∀ x, ¬ S (.sym x) → u.str x = u'.str x
  mode : ∀ k, ¬ S (.choice k) → u.mode k = u'.mode k
  selected : ∀ k, ¬ S (.choice k) → u.selected k = u'.selected k

/-- None of the items is visible. -/
def Hidden (S : Item → Prop) : (d : Cell) → Val d → Prop
  | .vis i, v => S i → v = .n
  | _, _ => True

namespace Config

variable {K : Config} {S : Item → Prop} {u u' : User} {k : ℕ} {s : Symbol} {x : Text} {vis : Tri}

theorem choiceTri_agreeOn (h : u.AgreeOff S u') :
    (K.choiceTri u k).AgreeOn (Hidden S) (K.choiceTri u' k) := by
  unfold choiceTri
  split
  · exact .refl _
  · by_cases hk : S (.choice k)
    · refine .ask fun v hv => ?_
      rw [hv hk]
      simp only [Query.bind, Tri.min_n]
      exact .refl _
    · rw [wantedMode, wantedMode, h.mode k hk]
      exact .refl _

theorem triBase_n (u : User) : K.triBase u x s .n = K.triImplied u s .n := by
  unfold triBase
  split <;> rfl

/-- A symbol that is not visible has its default value. -/
theorem textOrNum_n (u : User) : K.textOrNum u x s .n =
    if s.origType = .string then K.textDefault u s .n
    else K.activeRange u s >>= fun range => K.numDefault u s range .n := by
  unfold textOrNum
  split
  · unfold textRule
    split <;> rfl
  · unfold numRule
    refine congrArg _ (funext fun range => ?_)
    split
    · rw [if_neg (by simp)]
    · rfl

theorem triRule_agreeOn (h : u.AgreeOff S u') :
    (K.triRule u x s).AgreeOn (Hidden S) (K.triRule u' x s) := by
  have hch := fun k => choiceTri_agreeOn (K := K) (k := k) h
  unfold triRule
  split
  · refine .ask fun vis hv => ?_
    simp only [Query.bind]
    split
    · refine triFree_agree (R := .agreeOn _) hch ?_
      by_cases hx : S (.sym x)
      · rw [hv hx, triBase_n, triBase_n]
        exact triImplied_agree (R := .agreeOn _) hch
      · exact triBase_agree (R := .agreeOn _) hch (h.tri x hx)
    · unfold triChoice
      by_cases hx : S (.sym x)
      · rw [hv hx]
        exact .refl _
      · rw [h.tri x hx]
        exact .refl _
  · exact .refl _

theorem textOrNum_agreeOn (h : u.AgreeOff S u') (hx : S (.sym x) → vis = .n) :
    (K.textOrNum u x s vis).AgreeOn (Hidden S) (K.textOrNum u' x s vis) := by
  have hch := fun k => choiceTri_agreeOn (K := K) (k := k) h
  by_cases hS : S (.sym x)
  · rw [hx hS, textOrNum_n, textOrNum_n]
    split
    · exact textDefault_agree (R := .agreeOn _) hch
    · exact (activeRange_agree (R := .agreeOn _) hch).bind fun range => numDefault_agree (R := .agreeOn _) hch
  · exact textOrNum_agree (R := .agreeOn _) hch (h.str x hS)

theorem strRule_agreeOn (h : u.AgreeOff S u') :
    (K.strRule u x s).AgreeOn (Hidden S) (K.strRule u' x s) := by
  unfold strRule
  split
  · exact .refl _
  · split
    · exact .refl _
    · exact .ask fun vis hv => (textOrNum_agreeOn h hv).bind fun v => .refl _

theorem selectionRule_agreeOn (h : u.AgreeOff S u') :
    (K.selectionRule u k).AgreeOn (Hidden S) (K.selectionRule u' k) := by
  by_cases hk : S (.choice k)
  · unfold selectionRule
    cases hc : K.choices[k]? with
    | none => exact .refl _
    | some c =>
      -- a choice that is not visible is in n mode
      simp only [choiceTri, hc]
      refine .ask fun v hv => ?_
      simp only [hv hk, Query.bind, Tri.min_n]
      exact .refl _
  · exact selectionRule_agree (R := .agreeOn _) (fun k => choiceTri_agreeOn h) (h.selected k hk)

/-- **The user value of a symbol or a choice that is not visible does not count.** -/
theorem rule_agreeOn (h : u.AgreeOff S u') (d : Cell) :
    (K.rule u d).AgreeOn (Hidden S) (K.rule u' d) :=
  rule_agree (R := .agreeOn _) (fun _ => choiceTri_agreeOn h) (fun _ => selectionRule_agreeOn h)
    (fun _ _ _ => triRule_agreeOn h) (fun _ _ _ => strRule_agreeOn h) d

end Config

end Kconfig
