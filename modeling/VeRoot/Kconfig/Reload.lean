import VeRoot.Kconfig.Keeps

/-!
# Writing and loading a configuration

A configuration that is written to a file and loaded again has the values that it had, and is written
to the same file again.

## Main definitions

* `reload_keeps` — writing and loading keeps all values.
-/

namespace Kconfig

open Unix Demand

namespace Config

variable {K : Config} {top : Menu} {u u' : User} {x y : Text} {s : Symbol} {k : ℕ} {c : Choice}
  {v t M vis raw : Tri} {r : Tri × Bool} {e : Expr} {es : List Expr} {n m : ℕ}
  {rule : (d : Cell) → Query Val (Val d)}

/-! ## The walk through the menu tree -/

section Walk

variable {R : Query.Congr Val} (h : ∀ k, R.rel (K.choiceTri u k) (K.choiceTri u' k))

include h

theorem shown_agree {dep visibility : Expr} :
    R.rel (K.shown u dep visibility) (K.shown u' dep visibility) := by
  refine R.bind (exprValue_agree h) fun v => ?_
  split
  · exact R.refl _
  · exact R.bind (exprValue_agree h) fun v => R.refl _

theorem visit_agree {item : NodeItem} {title : Text} {dep visibility : Expr} {w : Walk} :
    R.rel (K.visit u item title dep visibility w) (K.visit u' item title dep visibility w) := by
  cases item with
  | sym x => exact R.refl _
  | choice k => exact R.bind (exprValue_agree h) fun _ => R.refl _
  | menu => exact R.bind (shown_agree h) fun _ => R.refl _
  | comment => exact R.bind (exprValue_agree h) fun _ => R.refl _

theorem leave_agree {list : Menu} {item : NodeItem} {title : Text} {dep visibility : Expr} {w : Walk} :
    R.rel (K.leave u list item title dep visibility w) (K.leave u' list item title dep visibility w) := by
  unfold leave
  split
  · exact R.bind (shown_agree h) fun _ => R.refl _
  · exact R.refl _

theorem walk_agree {tree : Menu} {w : Walk} : R.rel (K.walk u tree w) (K.walk u' tree w) := by
  induction tree generalizing w with
  | nil => exact R.refl _
  | node item title dep visibility list next ihl ihn =>
    exact R.bind (visit_agree h) fun r₁ => R.bind ihl fun r₂ => R.bind (leave_agree h) fun r₃ =>
      R.bind ihn fun r₄ => R.refl _

end Walk

/-! ## What sessions lead to -/

variable {g : Settings} {text : Text}

theorem validTexts_set {value : UserValue} (hg : K.ValidTexts u) (hs : K.sym x = some s)
    (hv : value.valid s.origType) : K.ValidTexts (u.set x value) := by
  cases value with
  | tri v => exact hg
  | str t =>
    intro y s' t' hs' hy
    by_cases hyx : y = x
    · subst hyx
      obtain rfl := Option.some.inj (hs.symm.trans hs')
      obtain rfl : t = t' := by simpa [User.set] using hy
      exact hv
    · exact hg y s' t' hs' (by simpa [User.set, hyx] using hy)

/-- A user value of the wrong form is never stored. -/
theorem Reached.validTexts (h : K.Reached g) : K.ValidTexts g.user := by
  refine h.keeps (fun g op hg => ?_) fun x s t _ hx => by cases hx
  cases op with
  | read d => exact hg
  | eval e => exact hg
  | setValue x value =>
    change K.ValidTexts (K.setValue x value g).settings.user
    unfold Config.setValue
    split
    · exact hg
    · next s hs =>
      dsimp only
      split
      · exact hg
      · split
        · exact hg
        · next hv =>
          have hset := validTexts_set hg hs (Bool.eq_true_of_not_eq_false hv)
          split <;> exact hset
  | unsetValue x =>
    change K.ValidTexts (K.unsetValue x g).settings.user
    unfold Config.unsetValue
    split
    · exact hg
    · split
      · exact hg
      · intro y s t hs hy
        by_cases hyx : y = x
        · simp [User.unset, hyx] at hy
        · exact hg y s t hs (by simpa [User.unset, hyx] using hy)
  | setMode k value =>
    change K.ValidTexts (K.setMode k value g).settings.user
    unfold Config.setMode
    split
    · split
      · exact hg
      · split <;> exact hg
    · exact hg
  | unsetMode k =>
    change K.ValidTexts (K.unsetMode k g).settings.user
    unfold Config.unsetMode
    split
    · exact hg
    · split <;> exact hg

/-- **Writing a configuration and loading it keeps all attributes and the modes of all choices**,
whatever was set before the file is loaded; and writing it again gives the same file. -/
theorem reload_keeps {g₀ : Settings} {header : Text} (hK : K.Finalized top) (hg : K.Reached g)
    (hg₀ : K.Reached g₀) (he : K.Expressible g.user) (hh : K.Printed header [])
    (hw : Gives (K.rule g.user) (K.configContents g.user header top) text) :
    let u' := (K.loadConfig true text g₀).user
    (∀ d v, Gives (K.rule g.user) (K.rule g.user d) v → Gives (K.rule u') (K.rule u' d) v) ∧
      (∀ k t, Gives (K.rule g.user) (K.choiceTri g.user k) t →
        Gives (K.rule u') (K.choiceTri u' k) t) ∧
      Gives (K.rule u') (K.configContents u' header top) text := by
  intro u'
  obtain ⟨m, hm⟩ := hw
  have hT := readable rfl hK he (m := m)
  have hr : K.Reloaded g.user u' m top := ⟨hK, hg.selects hK.toConsistent, hg.validTexts, he,
    loadConfig_restores ⟨hK.name, hK.title, hT.value⟩ hT hK.node hh hg₀.validTexts hm⟩
  refine ⟨fun d v => .of_keeps (rule_keeps hr) fun n => rule_keeps hr n d,
    fun k t => .of_keeps (rule_keeps hr) fun n => choiceTri_keeps hr n k,
    .of_keeps (rule_keeps hr) (fun n => ?_) ⟨m, hm⟩⟩
  exact Query.Keeps.bind (walk_agree (R := .keeps _) (choiceTri_keeps hr n)) fun r _ _ h => h

/-- The menu tree of the sample. -/
def sampleMenu : Menu :=
  .node (.sym "NET".toList) [] (.tri .y) (.tri .y)
    (.node (.sym "WIFI".toList) [] (.atom (.sym "NET".toList)) (.tri .y) .nil .nil)
    (.node .menu "Compression".toList (.tri .y) (.tri .y)
      (.node (.choice 0) [] (.tri .y) (.tri .y)
        (.node (.sym "GZIP".toList) [] (.choice 0) (.tri .y) .nil
          (.node (.sym "LZMA".toList) [] (.choice 0) (.tri .y) .nil .nil)) .nil) .nil)

theorem finalized_sample : sample.Finalized sampleMenu where
  toConsistent := wellFormed_sample.toConsistent
  node x s hs := by
    have hmem := mem_sample hs
    simp only [sample, List.mem_cons, Prod.mk.injEq, List.not_mem_nil, or_false] at hmem
    rcases hmem with ⟨rfl, -⟩ | ⟨rfl, -⟩ | ⟨rfl, -⟩ | ⟨rfl, -⟩ <;> decide
  name := by unfold PlainName; decide
  title t ht := by
    obtain rfl : t = "Compression".toList := by simpa [sampleMenu, Menu.titles] using ht
    exact ⟨by decide, by decide, by decide⟩
  choice k c hc := by
    obtain ⟨hk, rfl⟩ := List.getElem?_eq_some_iff.mp hc
    obtain rfl : k = 0 := by simpa [sample] using hk
    exact ⟨rfl, owns_sample⟩
  under x s k hs hk e he := by
    have hmem := mem_sample hs
    simp only [sample, List.mem_cons, Prod.mk.injEq, List.not_mem_nil, or_false] at hmem
    rcases hmem with ⟨-, rfl⟩ | ⟨-, rfl⟩ | ⟨-, rfl⟩ | ⟨-, rfl⟩
    · cases hk
    · cases hk
    · obtain rfl := List.mem_singleton.mp he
      exact Option.some.inj hk
    · obtain rfl := List.mem_singleton.mp he
      exact Option.some.inj hk
  hidden x s hs h := by
    have hmem := mem_sample hs
    simp only [sample, List.mem_cons, Prod.mk.injEq, List.not_mem_nil, or_false] at hmem
    rcases hmem with ⟨-, rfl⟩ | ⟨-, rfl⟩ | ⟨-, rfl⟩ | ⟨-, rfl⟩ <;>
      exact (h.elim (fun h => h rfl) (Option.some_ne_none x).symm).elim

theorem expressible_sample : sample.Expressible sampleSettings.user where
  plain x s v hs ht := by
    have hmem := mem_sample hs
    simp only [sample, List.mem_cons, Prod.mk.injEq, List.not_mem_nil, or_false] at hmem
    rcases hmem with ⟨-, rfl⟩ | ⟨-, rfl⟩ | ⟨-, rfl⟩ | ⟨-, rfl⟩ <;> cases ht
  default x s vis rev r hs hk hx hvis hv hrev hr := by
    refine .inl ((Tri.le_y _).trans (le_max_of_le_left ?_))
    -- what is visible is visible without restrictions
    have hmem := mem_sample hs
    simp only [sample, List.mem_cons, Prod.mk.injEq, List.not_mem_nil, or_false] at hmem
    rcases hmem with ⟨rfl, rfl⟩ | ⟨rfl, rfl⟩ | ⟨-, rfl⟩ | ⟨-, rfl⟩
    · exact (Gives.unique ⟨8, rfl⟩ hvis).le
    · exact (Gives.unique ⟨8, rfl⟩ hvis).le
    · cases hk
    · cases hk
  mode k c hc := by
    refine .inl ?_
    obtain ⟨hk, rfl⟩ := List.getElem?_eq_some_iff.mp hc
    obtain rfl : k = 0 := by simpa [sample] using hk
    exact Tri.n_le _

/-- The sample is written, and loaded where the first of the two compressions was enabled. -/
theorem reload_sample :
    let text := unlines (["# Sample", "CONFIG_NET=y", "CONFIG_WIFI=y", "", "#", "# Compression", "#",
      "# CONFIG_GZIP is not set", "CONFIG_LZMA=y", "# end of Compression"].map String.toList)
    let g₀ := sample.apply .start (.setValue "GZIP".toList (.tri .y))
    let u' := (sample.loadConfig true text g₀).user
    (∀ d v, Gives (sample.rule sampleSettings.user) (sample.rule sampleSettings.user d) v →
      Gives (sample.rule u') (sample.rule u' d) v) ∧
      (∀ k t, Gives (sample.rule sampleSettings.user) (sample.choiceTri sampleSettings.user k) t →
        Gives (sample.rule u') (sample.choiceTri u' k) t) ∧
      Gives (sample.rule u') (sample.configContents u' "# Sample\n".toList sampleMenu) text :=
  reload_keeps finalized_sample reached_sample (Reached.start.assign _)
    expressible_sample (printed_line (t := "# Sample".toList) (by decide)) ⟨8, rfl⟩

end Config

end Kconfig