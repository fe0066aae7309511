import VeRoot.Kconfig.Loaded
import VeRoot.Kconfig.Selection
import Mathlib.Order.MinMax

/-!
# What a file can express

A file holds the value of every symbol, whether that was set or is a default, but no modes of
choices.  The mode of a choice shows in its symbols: those that are visible have the mode as their
visibility.

## Main definitions

* `Finalized` — a configuration with its menu tree.
* `Expressible` — user values that a file can express.
* `mode_of_vis` — a visible symbol of a choice shows the mode.
* `readable` — what has been written can be read back.
-/

namespace Kconfig

open Unix Demand

/-- An expression that has a choice as a conjunct, as the prompts of its symbols do once the
dependencies have been propagated. -/
def Expr.Under (k : ℕ) : Expr → Prop
  | .choice j => j = k
  | .and a b => a.Under k ∨ b.Under k
  | .atom a => a = .const ['n']
  | _ => False

namespace Config

/-- What holds of a configuration once the menu tree is finalized: every symbol has a node, the
symbols of a choice have been propagated to, and symbols that are not written have no prompt. -/
structure Finalized (K : Config) (top : Menu) : Prop extends K.Consistent where
  node : ∀ x s, K.sym x = some s → x ∈ top.syms
  name : ∀ x ∈ top.syms, PlainName x
  title : ∀ t ∈ top.titles, PlainTitle t
  choice : ∀ k c, K.choices[k]? = some c → c.origType.isBoolTristate ∧ K.Owns k c
  under : ∀ x s k, K.sym x = some s → s.choice = some k → ∀ e ∈ s.prompts, e.Under k
  hidden : ∀ x s, K.sym x = some s → s.envVar ≠ none ∨ K.defconfigList = some x → s.prompts = []

/-- What a file can express: texts without line breaks, defaults that are not above what the user may
set, unless an imply promotes them, and modes that a symbol of the choice shows. -/
structure Expressible (K : Config) (u : User) : Prop where
  plain : ∀ x s v, K.sym x = some s → s.origType.isBoolTristate = false →
    Gives (K.rule u) (K.rule u (.str x)) (v, true) → PlainValue s.origType v
  default : ∀ x s vis rev r, K.sym x = some s → s.choice = none → u.tri x = none →
    Gives (K.rule u) (K.rule u (.vis (.sym x))) vis → vis ≠ .n →
    Gives (K.rule u) (K.exprValue u s.revDep) rev → Gives (K.rule u) (K.rule u (.tri x)) r →
      r.1 ≤ max vis rev ∨ Gives (K.rule u) (K.exprValue u s.weakRevDep) .y
  mode : ∀ k c, K.choices[k]? = some c → (u.mode k).getD .n ≤ (if c.isOptional then .n else .m) ∨
    Gives (K.rule u) (K.choiceTri u k) .n ∨
      ∃ x ∈ c.syms, ∃ r, Gives (K.rule u) (K.rule u (.tri x)) r ∧ r.1 ≠ .n

variable {K : Config} {top : Menu} {u u' : User} {x y : Text} {s : Symbol} {k : ℕ} {c : Choice}
  {v t M vis raw : Tri} {r : Tri × Bool} {e : Expr} {es : List Expr} {n m : ℕ}
  {rule : (d : Cell) → Query Val (Val d)}

/-! ## Choices and their symbols -/

/-- An expression under a choice is at most its mode. -/
theorem exprValue_under (h : e.Under k) (hv : Gives rule (K.exprValue u e) v) (hn : v ≠ .n) :
    ∃ M, Gives rule (K.choiceTri u k) M ∧ v ≤ M := by
  induction e generalizing v with
  | atom a =>
    obtain rfl : a = .const ['n'] := h
    exact absurd (gives_done.mp hv).symm hn
  | choice j =>
    obtain rfl : j = k := h
    exact ⟨v, hv, le_rfl⟩
  | and a b iha ihb =>
    obtain ⟨va, ha, hv⟩ := gives_bind.mp hv
    split at hv
    · exact absurd (gives_done.mp hv).symm hn
    · next hna =>
      obtain ⟨vb, hb, hv⟩ := gives_bind.mp hv
      obtain rfl := gives_done.mp hv
      rcases h with h | h
      · obtain ⟨M, hM, hle⟩ := iha h ha hna
        exact ⟨M, hM, (min_le_left _ _).trans hle⟩
      · have hnb : vb ≠ .n := by
          rintro rfl
          exact hn (Tri.min_n va)
        obtain ⟨M, hM, hle⟩ := ihb h hb hnb
        exact ⟨M, hM, (min_le_right _ _).trans hle⟩
  | or a b => exact h.elim
  | not a => exact h.elim
  | rel r a b => exact h.elim

theorem maxValue_under (h : ∀ e ∈ es, e.Under k) (hv : Gives rule (K.maxValue u es) v)
    (hn : v ≠ .n) : ∃ M, Gives rule (K.choiceTri u k) M ∧ v ≤ M := by
  induction es generalizing v with
  | nil => exact absurd (gives_done.mp hv).symm hn
  | cons e es ih =>
    obtain ⟨he, hes⟩ := List.forall_mem_cons.mp h
    obtain ⟨v₁, h₁, hv⟩ := gives_bind.mp hv
    obtain ⟨v₂, h₂, hv⟩ := gives_bind.mp hv
    obtain rfl := gives_done.mp hv
    rcases max_choice v₁ v₂ with hmax | hmax
    · rw [hmax] at hn ⊢
      exact exprValue_under he h₁ hn
    · rw [hmax] at hn ⊢
      exact ih hes h₂ hn

/-- The mode of a choice, from the mode that is wanted and the visibility. -/
theorem gives_choiceTri (hc : K.choices[k]? = some c) : Gives rule (K.choiceTri u k) M ↔
    ∃ vis, Gives rule (rule (.vis (.choice k))) vis ∧
      (min (wantedMode u c k) vis ≠ .m ∧ M = min (wantedMode u c k) vis ∨
        min (wantedMode u c k) vis = .m ∧ ∃ ty, Gives rule (K.choiceType c) ty ∧
          M = if ty = .bool then .y else .m) := by
  simp only [choiceTri, hc, getVis, Query.ask_bind, Query.done_bind]
  rw [gives_ask]
  refine exists_congr fun vis => and_congr_right fun _ => ?_
  split
  · next hm =>
    rw [gives_bind]
    constructor
    · rintro ⟨ty, hty, h⟩
      exact .inr ⟨hm, ty, hty, (gives_done.mp h).symm⟩
    · rintro (⟨hne, -⟩ | ⟨-, ty, hty, rfl⟩)
      · exact absurd hm hne
      · exact ⟨ty, hty, gives_done.mpr rfl⟩
  · next hm =>
    constructor
    · exact fun h => .inl ⟨hm, (gives_done.mp h).symm⟩
    · rintro (⟨-, rfl⟩ | ⟨he, -⟩)
      · exact gives_done.mpr rfl
      · exact absurd he hm

/-- A choice in m mode is tristate, and modules are enabled. -/
theorem tristate_of_mMode (hc : K.choices[k]? = some c) (ht : c.origType.isBoolTristate)
    (h : Gives rule (K.choiceTri u k) .m) :
    c.origType = .tristate ∧ ∃ w ≠ .n, Gives rule (K.triValue (.sym modules)) w := by
  obtain ⟨vis, -, ⟨hne, he⟩ | ⟨-, ty, hty, he⟩⟩ := (gives_choiceTri hc).mp h
  · exact absurd he.symm hne
  · have hty' : ty ≠ .bool := by
      rintro rfl
      cases he
    unfold choiceType at hty
    split at hty
    · next htri =>
      obtain ⟨w, hw, hty⟩ := gives_bind.mp hty
      refine ⟨htri, w, ?_, hw⟩
      rintro rfl
      exact hty' (gives_done.mp hty).symm
    · next htri =>
      obtain rfl := gives_done.mp hty
      cases hb : c.origType <;> rw [hb] at ht hty' htri <;>
        first | exact absurd rfl hty' | exact absurd rfl htri | cases ht

/-- **A visible symbol of a choice has the mode of the choice as its visibility.** -/
theorem mode_of_vis (hs : K.sym x = some s) (hk : s.choice = some k) (hc : K.choices[k]? = some c)
    (ht : c.origType.isBoolTristate) (hu : ∀ e ∈ s.prompts, e.Under k)
    (h : Gives rule (K.visibility u (.sym x)) v) (hn : v ≠ .n) : Gives rule (K.choiceTri u k) v := by
  have hvis := h
  simp only [visibility, hs] at h
  obtain ⟨raw, hraw, h⟩ := gives_bind.mp h
  obtain ⟨hid, hhid, h⟩ := gives_bind.mp h
  cases hid with
  | true => exact absurd (gives_done.mp h).symm hn
  | false =>
    simp only [Bool.false_eq_true, if_false, promoteVis] at h
    have hrn : raw ≠ .n := by
      rintro rfl
      exact hn (gives_done.mp h).symm
    obtain ⟨M, hM, hle⟩ := maxValue_under hu hraw hrn
    cases M with
    | n => exact absurd (le_antisymm hle (Tri.n_le raw)) hrn
    | y => rwa [(vis_of_yMode hs hk hM hvis).resolve_left hn]
    | m =>
      obtain rfl : raw = .m := by
        cases raw with
        | n => exact absurd rfl hrn
        | m => rfl
        | y => exact absurd hle (by decide)
      rw [if_pos rfl] at h
      obtain ⟨ty, hty, h⟩ := gives_bind.mp h
      obtain ⟨htri, w, hw, hmod⟩ := tristate_of_mMode hc ht hM
      -- in m mode only tristate symbols are visible, and they stay tristate
      have hst : s.origType = .tristate := by
        by_contra hst
        simp only [hides, hk, hc, Option.elim_some, htri, decide_true, true_and, ne_eq, hst,
          not_false_eq_true, if_true] at hhid
        obtain ⟨M', hM', hhid⟩ := gives_bind.mp hhid
        obtain rfl := hM.unique hM'
        exact absurd (gives_done.mp hhid) (by decide)
      rw [symType, if_pos hst] at hty
      obtain ⟨b, hb, hty⟩ := gives_bind.mp hty
      simp only [inYMode, hk] at hb
      obtain ⟨M', hM', hb⟩ := gives_bind.mp hb
      obtain rfl := hM.unique hM'
      obtain rfl := gives_done.mp hb
      simp only [Bool.false_eq_true, if_false, reduceCtorEq, decide_false] at hty
      obtain ⟨w', hw', hty⟩ := gives_bind.mp hty
      obtain rfl := hmod.unique hw'
      rw [if_neg hw] at hty
      obtain rfl := gives_done.mp hty
      rw [if_neg (by decide)] at h
      rwa [← gives_done.mp h]

/-- The value of a choice symbol that is not `n` is its visibility, and it is written. -/
theorem vis_of_value (hs : K.sym x = some s) (hk : s.choice = some k)
    (ht : s.origType.isBoolTristate) (h : Gives (K.rule u) (K.rule u (.tri x)) r) (hn : r.1 ≠ .n) :
    r.2 = true ∧ Gives (K.rule u) (K.rule u (.vis (.sym x))) r.1 := by
  simp only [Config.rule, hs, Option.elim_some, triRule, if_pos ht, hk] at h
  obtain ⟨vis, hvis, h⟩ := gives_ask.mp h
  change Gives (K.rule u) (triChoice u x k vis) r at h
  unfold triChoice at h
  split at h
  · next hy =>
    obtain ⟨sel, -, h⟩ := gives_ask.mp h
    obtain rfl := gives_done.mp h
    obtain rfl := hy
    refine ⟨rfl, ?_⟩
    dsimp only at hn ⊢
    split at hn
    · next hsel => rwa [if_pos hsel]
    · exact absurd rfl hn
  · next hy =>
    split at h
    · next hm =>
      obtain rfl := gives_done.mp h
      obtain rfl : vis = .m := by
        cases vis with
        | n => exact absurd rfl hm.1
        | m => rfl
        | y => exact absurd rfl hy
      exact ⟨rfl, hvis⟩
    · obtain rfl := gives_done.mp h
      exact absurd rfl hn

/-- A bool symbol is never `m`. -/
theorem ne_m_of_bool (hs : K.sym x = some s) (hb : s.origType = .bool)
    (h : Gives (K.rule u) (K.rule u (.tri x)) r) : r.1 ≠ .m := by
  cases hk : s.choice with
  | some k =>
    intro hm
    obtain ⟨-, hvis⟩ := vis_of_value hs hk (by rw [hb]; rfl) h (by rw [hm]; decide)
    rw [hm] at hvis
    exact absurd (symType_of_bool hb (symType_of_vis_m hs hvis)) (by decide)
  | none => exact ne_m_of_free hs hk hb h

/-- The text of a bool or tristate symbol. -/
theorem gives_str_tri {val : Text} {w : Bool} (hs : K.sym x = some s) (ht : s.origType.isBoolTristate)
    (h : Gives (K.rule u) (K.rule u (.str x)) (val, w)) :
    ∃ t, Gives (K.rule u) (K.rule u (.tri x)) (t, w) ∧ val = triToStr t := by
  simp only [Config.rule, hs, Option.elim_some, strRule, if_pos ht] at h
  obtain ⟨⟨t, w'⟩, hr, h⟩ := gives_ask.mp h
  obtain ⟨rfl, rfl⟩ := Prod.mk.inj (gives_done.mp h)
  exact ⟨t, hr, rfl⟩

/-! ## What is in the file -/

section File

variable {T : Table Val} (hT : T = value (K.rule u) m)

include hT

theorem gives_of_table {d : Cell} {w : Val d} (h : T d = some w) : Gives (K.rule u) (K.rule u d) w :=
  gives_rule.mpr ⟨m, hT ▸ h⟩

theorem gives_of_triEntry (h : K.triEntry T x = some t) :
    Gives (K.rule u) (K.rule u (.tri x)) (t, true) := by
  unfold triEntry at h
  split at h
  · next s val hs hv =>
    split at h
    · next ht =>
      obtain ⟨t', ht', rfl⟩ := gives_str_tri hs ht (gives_of_table hT hv)
      rw [strToTri_triToStr] at h
      rwa [← Option.some.inj h]
    · cases h
  · cases h

/-- The line of a bool or tristate symbol holds its value. -/
theorem triEntry_eq (hs : K.sym x = some s) (ht : s.origType.isBoolTristate)
    (hknown : (T (.str x)).isSome) (h : Gives (K.rule u) (K.rule u (.tri x)) r) :
    K.triEntry T x = if r.2 then some r.1 else none := by
  obtain ⟨⟨val, w⟩, hv⟩ := Option.isSome_iff_exists.mp hknown
  obtain ⟨t, ht', rfl⟩ := gives_str_tri hs ht (gives_of_table hT hv)
  obtain rfl := h.unique ht'
  cases w <;> simp [triEntry, hs, hv, ht]

/-- The line of any other symbol holds its value, if that has the right form. -/
theorem strEntry_eq {p : Text × Bool} (hs : K.sym x = some s) (ht : s.origType.isBoolTristate = false)
    (hknown : (T (.str x)).isSome) (h : Gives (K.rule u) (K.rule u (.str x)) p) :
    K.strEntry T x = if p.2 ∧ UserValue.valid s.origType (.str p.1) then some p.1 else none := by
  obtain ⟨⟨val, w⟩, hv⟩ := Option.isSome_iff_exists.mp hknown
  obtain rfl := h.unique (gives_of_table hT hv)
  cases w <;> simp [strEntry, hs, hv, ht]

/-- A symbol that is not `n` in the file shows the mode of its choice. -/
theorem mode_of_shows (hK : K.Finalized top) (h : K.Shows T k x t) :
    Gives (K.rule u) (K.choiceTri u k) t := by
  obtain ⟨s, hs, hk, he, hn⟩ := h
  obtain ⟨c, hc, hx⟩ := hK.choice_mem hs hk
  obtain ⟨hct, hown⟩ := hK.choice k c hc
  obtain ⟨s', hs', -, ht⟩ := hown x hx
  obtain rfl := Option.some.inj (hs.symm.trans hs')
  obtain ⟨-, hvis⟩ := vis_of_value hs hk ht (gives_of_triEntry hT he) hn
  exact mode_of_vis hs hk hc hct (hK.under x s k hs hk) hvis hn

/-- A symbol of a choice that is `y` in the file is the selection. -/
theorem selection_of_shows (hK : K.Finalized top) (h : K.Shows T k x .y) :
    Gives (K.rule u) (K.rule u (.selection k)) (some x) := by
  obtain ⟨s, hs, hk, he, hn⟩ := h
  obtain ⟨c, hc, hx⟩ := hK.choice_mem hs hk
  obtain ⟨s', hs', -, ht⟩ := (hK.choice k c hc).2 x hx
  obtain rfl := Option.some.inj (hs.symm.trans hs')
  have hv := gives_of_triEntry hT he
  obtain ⟨vis, hvis, hy, -⟩ := tri_spec hs hk ht hv
  obtain rfl := hvis.unique (vis_of_value hs hk ht hv hn).2
  obtain ⟨sel, hsel, e⟩ := hy rfl
  split at e
  · next hx => rwa [hx] at hsel
  · cases e

/-- A symbol of a choice that is not `n` shows a mode. -/
theorem shows_of_value (hs : K.sym x = some s) (hk : s.choice = some k)
    (ht : s.origType.isBoolTristate) (hknown : (T (.str x)).isSome)
    (h : Gives (K.rule u) (K.rule u (.tri x)) r) (hn : r.1 ≠ .n) : K.Shows T k x r.1 := by
  refine ⟨s, hs, hk, ?_, hn⟩
  rw [triEntry_eq hT hs ht hknown h, if_pos (vis_of_value hs hk ht h hn).1]

/-- **The file can be read back.** -/
theorem readable (hK : K.Finalized top) (he : K.Expressible u) : K.Readable T where
  value x s v hs hv := by
    have hv := gives_of_table hT hv
    cases ht : s.origType.isBoolTristate with
    | false => exact he.plain x s v hs ht hv
    | true =>
      obtain ⟨t, ht', rfl⟩ := gives_str_tri hs ht hv
      rw [PlainValue, if_pos ht]
      exact ⟨t, rfl, fun hb => ne_m_of_bool hs hb ht'⟩
  allowed k x t h := by
    have hmode := mode_of_shows hT hK h
    obtain ⟨s, hs, hk, -⟩ := h
    obtain ⟨c, hc, -⟩ := hK.choice_mem hs hk
    have hct := (hK.choice k c hc).1
    refine ⟨c, hc, valid_tri hct fun hb => ?_⟩
    rintro rfl
    rw [(tristate_of_mMode hc hct hmode).1] at hb
    cases hb
  agree k x x' t t' h h' := by
    obtain rfl := (mode_of_shows hT hK h).unique (mode_of_shows hT hK h')
    refine ⟨rfl, ?_⟩
    rintro rfl
    exact Option.some.inj ((selection_of_shows hT hK h).unique (selection_of_shows hT hK h'))

end File

end Config

end Kconfig
