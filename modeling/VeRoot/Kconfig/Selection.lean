import VeRoot.Kconfig.Assignable

/-!
# Choices

In y mode one of the visible symbols of a choice is selected: the one the user has selected if it
is visible, else the first default that applies, else the first visible one.  The selected symbol
is `y` and all others are `n`.

## Main definitions

* `Owns` — the symbols of a choice belong to it.
* `vis_of_yMode` — in y mode a choice symbol is visible or not.
* `selection_spec` — what is selected.
* `existsUnique_selected` — exactly one symbol is `y`.
-/

namespace Kconfig

open Unix Demand

namespace Config

/-- The symbols of a choice belong to it and are bool or tristate. -/
def Owns (K : Config) (k : ℕ) (c : Choice) : Prop :=
  ∀ x ∈ c.syms, ∃ s, K.sym x = some s ∧ s.choice = some k ∧ s.origType.isBoolTristate

variable {K : Config} {u : User} {x y : Text} {s : Symbol} {k : ℕ} {c : Choice} {v : Tri}
  {rule : (d : Cell) → Query Val (Val d)} {sel : Option Text} {xs : List Text}
  {ds : List (Atom × Expr)} {b : Bool}

/-- In y mode a choice symbol is visible or not: `m` is hidden or promoted. -/
theorem vis_of_yMode (hs : K.sym x = some s) (hk : s.choice = some k)
    (hmode : Gives rule (K.choiceTri u k) .y) (h : Gives rule (K.visibility u (.sym x)) v) :
    v = .n ∨ v = .y := by
  simp only [visibility, hs] at h
  obtain ⟨vis, -, h⟩ := gives_bind.mp h
  obtain ⟨hid, hhid, h⟩ := gives_bind.mp h
  cases hid with
  | true => exact .inl (gives_done.mp h).symm
  | false =>
    simp only [Bool.false_eq_true, if_false, promoteVis] at h
    split at h
    · next hm =>
      obtain ⟨t, ht, h⟩ := gives_bind.mp h
      refine .inr ((gives_done.mp h).symm.trans (if_pos fun htri => ?_))
      -- a tristate symbol of visibility `m` is hidden in y mode
      by_cases hty : s.origType = .tristate
      · simp only [hides, hk, hty, ne_eq, not_true_eq_false, and_false, if_false, hm, and_self,
          if_true] at hhid
        obtain ⟨v', hv', hhid⟩ := gives_bind.mp hhid
        obtain rfl := hmode.unique hv'
        exact absurd (gives_done.mp hhid) (by decide)
      · rw [symType, if_neg hty] at ht
        exact hty ((gives_done.mp ht).trans htri)
    · next hm =>
      obtain rfl := gives_done.mp h
      cases vis with
      | n => exact .inl rfl
      | m => exact absurd rfl hm
      | y => exact .inr rfl

/-! ## The selection -/

theorem gives_atomVis (hs : K.sym x = some s) (h : Gives rule (K.atomVis (.sym x)) v) :
    Gives rule (rule (.vis (.sym x))) v := by
  rw [atomVis, hs] at h
  obtain ⟨w, hw, h⟩ := gives_ask.mp h
  rwa [← gives_done.mp h]

theorem firstVisible_spec (hsyms : ∀ x ∈ xs, (K.sym x).isSome)
    (h : Gives rule (K.firstVisible xs) sel) :
    (∃ x ∈ xs, sel = some x ∧ ∃ v ≠ Tri.n, Gives rule (rule (.vis (.sym x))) v) ∨
      sel = none ∧ ∀ x ∈ xs, Gives rule (rule (.vis (.sym x))) .n := by
  induction xs with
  | nil => exact .inr ⟨(gives_done.mp h).symm, fun x hx => absurd hx List.not_mem_nil⟩
  | cons x xs ih =>
    obtain ⟨hx, hxs⟩ := List.forall_mem_cons.mp hsyms
    obtain ⟨s, hs⟩ := Option.isSome_iff_exists.mp hx
    obtain ⟨v, hv, h⟩ := gives_bind.mp h
    have hv := gives_atomVis hs hv
    split at h
    · next hn =>
      rcases ih hxs h with ⟨y, hy, hsel⟩ | ⟨hnone, hall⟩
      · exact .inl ⟨y, List.mem_cons_of_mem _ hy, hsel⟩
      · exact .inr ⟨hnone, List.forall_mem_cons.mpr ⟨hn ▸ hv, hall⟩⟩
    · next hn => exact .inl ⟨x, List.mem_cons_self, (gives_done.mp h).symm, v, hn, hv⟩

theorem firstDefault_spec (hds : ∀ d ∈ ds, ∃ x, d.1 = .sym x ∧ (K.sym x).isSome)
    (h : Gives rule (K.firstDefault u ds) sel) :
    ∀ x ∈ sel, (∃ d ∈ ds, d.1 = .sym x) ∧ ∃ v ≠ Tri.n, Gives rule (rule (.vis (.sym x))) v := by
  induction ds with
  | nil =>
    rw [← gives_done.mp h]
    exact fun x hx => absurd hx (Option.not_mem_none x)
  | cons d ds ih =>
    obtain ⟨a, cond⟩ := d
    obtain ⟨⟨y, rfl, hy⟩, hrest⟩ := List.forall_mem_cons.mp hds
    have later : Gives rule (K.firstDefault u ds) sel → ∀ x ∈ sel,
        (∃ d ∈ (Atom.sym y, cond) :: ds, d.1 = Atom.sym x) ∧
          ∃ v ≠ Tri.n, Gives rule (rule (.vis (.sym x))) v := by
      intro h x hx
      obtain ⟨⟨d, hd, e⟩, hv⟩ := ih hrest h x hx
      exact ⟨⟨d, List.mem_cons_of_mem _ hd, e⟩, hv⟩
    obtain ⟨v, -, h⟩ := gives_bind.mp h
    split at h
    · exact later h
    · obtain ⟨v, hv, h⟩ := gives_bind.mp h
      split at h
      · exact later h
      · next hn =>
        rintro x hx
        rw [← gives_done.mp h] at hx
        obtain rfl := Option.some.inj hx
        obtain ⟨s, hs⟩ := Option.isSome_iff_exists.mp hy
        exact ⟨⟨_, List.mem_cons_self, rfl⟩, v, hn, gives_atomVis hs hv⟩

/-- **What is selected is a visible symbol of the choice**; if nothing is, no symbol is visible. -/
theorem selection_spec (hK : K.Consistent) (hu : K.Selects u) (hc : K.choices[k]? = some c)
    (hown : K.Owns k c) (hmode : Gives rule (K.choiceTri u k) .y)
    (h : Gives rule (K.selectionRule u k) sel) :
    (∃ x ∈ c.syms, sel = some x ∧ ∃ v ≠ Tri.n, Gives rule (rule (.vis (.sym x))) v) ∨
      sel = none ∧ ∀ x ∈ c.syms, Gives rule (rule (.vis (.sym x))) .n := by
  have hsome : ∀ x ∈ c.syms, (K.sym x).isSome := fun x hx => by
    obtain ⟨s, hs, -⟩ := hown x hx
    rw [hs]
    rfl
  have defaults : Gives rule (K.selectionFromDefaults u c) sel →
      (∃ x ∈ c.syms, sel = some x ∧ ∃ v ≠ Tri.n, Gives rule (rule (.vis (.sym x))) v) ∨
        sel = none ∧ ∀ x ∈ c.syms, Gives rule (rule (.vis (.sym x))) .n := by
    intro h
    obtain ⟨first, hfirst, h⟩ := gives_bind.mp h
    cases first with
    | none => exact firstVisible_spec hsome h
    | some x =>
      have hmem : ∀ d ∈ c.defaults, ∃ x ∈ c.syms, d.1 = .sym x := fun d hd => hK.default_mem hc hd
      obtain ⟨⟨d, hd, e⟩, hv⟩ := firstDefault_spec (fun d hd =>
        have ⟨x, hx, e⟩ := hmem d hd
        ⟨x, e, hsome x hx⟩) hfirst x rfl
      obtain ⟨x', hx', e'⟩ := hmem d hd
      obtain rfl : x' = x := Atom.sym.inj (e'.symm.trans e)
      exact .inl ⟨x', hx', (gives_done.mp h).symm, hv⟩
  simp only [selectionRule, hc] at h
  obtain ⟨v, hv, h⟩ := gives_bind.mp h
  obtain rfl := hmode.unique hv
  rw [if_neg (by decide)] at h
  split at h
  · exact defaults h
  · next x hx =>
    obtain ⟨c', hc', hmem⟩ := hu k x hx
    obtain rfl := Option.some.inj (hc.symm.trans hc')
    obtain ⟨v, hv, h⟩ := gives_bind.mp h
    split at h
    · next hn =>
      obtain ⟨s, hs, -⟩ := hown x hmem
      exact .inl ⟨x, hmem, (gives_done.mp h).symm, v, hn, gives_atomVis hs hv⟩
    · exact defaults h

/-! ## One of them is y -/

/-- The value of a choice symbol. -/
theorem tri_spec (hs : K.sym x = some s) (hk : s.choice = some k)
    (ht : s.origType.isBoolTristate) {r : Tri × Bool}
    (h : Gives (K.rule u) (K.rule u (.tri x)) r) :
    ∃ vis, Gives (K.rule u) (K.rule u (.vis (.sym x))) vis ∧
      (vis = .y → ∃ sel, Gives (K.rule u) (K.rule u (.selection k)) sel ∧
        r.1 = if sel = some x then .y else .n) ∧
      (vis ≠ .y → r.1 ≠ .y) := by
  simp only [Config.rule, hs, Option.elim_some, triRule, if_pos ht, hk] at h
  obtain ⟨vis, hvis, h⟩ := gives_ask.mp h
  change Gives (K.rule u) (triChoice u x k vis) r at h
  unfold triChoice at h
  refine ⟨vis, hvis, fun hy => ?_, fun hy => ?_⟩
  · rw [if_pos hy] at h
    obtain ⟨sel, hsel, h⟩ := gives_ask.mp h
    exact ⟨sel, hsel, congrArg Prod.fst (gives_done.mp h).symm⟩
  · rw [if_neg hy] at h
    split at h
    · rw [← gives_done.mp h]
      intro e
      cases e
    · rw [← gives_done.mp h]
      intro e
      cases e

/-- **Exactly one symbol is `y`** in a choice that is in y mode and has a visible symbol, in every
session, and it is the selection. -/
theorem existsUnique_selected {g : Settings} (hK : K.Consistent) (hloop : K.Loopless)
    (hg : K.Reached g) (hc : K.choices[k]? = some c) (hown : K.Owns k c)
    (hmode : Gives (K.rule g.user) (K.choiceTri g.user k) .y)
    (hvis : ∃ x ∈ c.syms, ∃ v ≠ Tri.n, Gives (K.rule g.user) (K.rule g.user (.vis (.sym x))) v) :
    ∃ x ∈ c.syms, Gives (K.rule g.user) (K.rule g.user (.selection k)) (some x) ∧
      ∀ z ∈ c.syms, ∃ r, Gives (K.rule g.user) (K.rule g.user (.tri z)) r ∧ (r.1 = .y ↔ z = x) := by
  have hu := hg.selects hK
  obtain ⟨sel, hsel⟩ := hloop.gives hK hu (.selection k)
  rcases selection_spec hK hu hc hown hmode hsel with ⟨x, hx, rfl, v, hv, hvisx⟩ | ⟨-, hall⟩
  · refine ⟨x, hx, hsel, fun z hz => ?_⟩
    obtain ⟨s, hs, hk, ht⟩ := hown z hz
    obtain ⟨r, hr⟩ := hloop.gives hK hu (.tri z)
    refine ⟨r, hr, ?_⟩
    obtain ⟨vis, hvisz, hy, hne⟩ := tri_spec hs hk ht hr
    rcases vis_of_yMode hs hk hmode hvisz with rfl | rfl
    · refine iff_of_false (hne nofun) ?_
      rintro rfl
      exact hv (hvisx.unique hvisz)
    · obtain ⟨sel', hsel', e⟩ := hy rfl
      obtain rfl := hsel.unique hsel'
      rw [e]
      by_cases hzx : z = x
      · rw [if_pos (congrArg some hzx.symm)]
        exact iff_of_true rfl hzx
      · rw [if_neg fun e => hzx (Option.some.inj e).symm]
        exact iff_of_false nofun hzx
  · obtain ⟨x₀, hx₀, v₀, hv₀, hvis₀⟩ := hvis
    exact absurd (hvis₀.unique (hall x₀ hx₀)) hv₀

theorem mem_sample (hs : sample.sym x = some s) : (x, s) ∈ sample.symbols := by
  obtain ⟨l, r, hl, -⟩ := List.lookup_eq_some_iff.mp hs
  rw [hl]
  simp

/-- `WIFI` refers to `NET`, and the symbols of the choice refer to the choice only. -/
theorem loopless_sample : sample.Loopless := by
  have only : ∀ {k c}, sample.choices[k]? = some c → k = 0 ∧
      c = ⟨.bool, [.tri .y], ["GZIP".toList, "LZMA".toList], [], false⟩ := by
    intro k c hc
    obtain ⟨hk, rfl⟩ := List.getElem?_eq_some_iff.mp hc
    obtain rfl : k = 0 := by simpa [sample] using hk
    exact ⟨rfl, rfl⟩
  refine ⟨fun i => if i = .sym "WIFI".toList then 1 else 0, ⟨?_, ?_, ?_, ?_, ?_⟩⟩
  · intro k c hc x hx
    obtain ⟨rfl, rfl⟩ := only hc
    revert x
    decide
  · intro x s hs
    have hmem := mem_sample hs
    simp only [sample, List.mem_cons, Prod.mk.injEq, List.not_mem_nil, or_false] at hmem
    rcases hmem with ⟨rfl, rfl⟩ | ⟨rfl, rfl⟩ | ⟨rfl, rfl⟩ | ⟨rfl, rfl⟩
    · decide
    · refine fun e he i hi => .inr ?_
      revert e i
      decide
    · refine fun e he i hi => .inl ⟨0, rfl, ?_⟩
      revert e i
      decide
    · refine fun e he i hi => .inl ⟨0, rfl, ?_⟩
      revert e i
      decide
  · intro k c hc
    obtain ⟨rfl, rfl⟩ := only hc
    decide
  · intro x s hs ht
    have hmem := mem_sample hs
    simp only [sample, List.mem_cons, Prod.mk.injEq, List.not_mem_nil, or_false] at hmem
    rcases hmem with ⟨-, rfl⟩ | ⟨-, rfl⟩ | ⟨-, rfl⟩ | ⟨-, rfl⟩ <;> cases ht
  · intro k c hc ht
    obtain ⟨rfl, rfl⟩ := only hc
    cases ht

theorem owns_sample :
    sample.Owns 0 ⟨.bool, [.tri .y], ["GZIP".toList, "LZMA".toList], [], false⟩ :=
  List.forall_mem_cons.mpr ⟨⟨_, rfl, rfl, rfl⟩,
    List.forall_mem_cons.mpr ⟨⟨_, rfl, rfl, rfl⟩, List.forall_mem_nil _⟩⟩

/-- The network and the second of the two compressions are enabled. -/
def sampleSettings : Settings :=
  sample.apply (sample.apply .start (.setValue "NET".toList (.tri .y)))
    (.setValue "LZMA".toList (.tri .y))

theorem reached_sample : sample.Reached sampleSettings := (Reached.start.assign _).assign _

/-- One symbol of the choice is `y` when the user has selected the second one. -/
theorem selected_sample : ∃ x ∈ ["GZIP".toList, "LZMA".toList],
    Gives (sample.rule sampleSettings.user) (sample.rule sampleSettings.user (.selection 0))
      (some x) ∧
      ∀ z ∈ ["GZIP".toList, "LZMA".toList], ∃ r,
        Gives (sample.rule sampleSettings.user) (sample.rule sampleSettings.user (.tri z)) r ∧
          (r.1 = .y ↔ z = x) :=
  existsUnique_selected wellFormed_sample.toConsistent loopless_sample reached_sample rfl owns_sample
    ⟨6, rfl⟩ ⟨_, List.mem_cons_self, .y, nofun, 6, rfl⟩

end Config

end Kconfig
