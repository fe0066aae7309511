import VeRoot.Kconfig.ConfigFile

/-!
# Sessions with files

The user values change by assignments and by the loading of files.

## Main definitions

* `Reached` — the settings that sessions lead to.
* `Reached.keeps` — what assignments keep holds in every session.
-/

namespace Kconfig

open Unix Demand

namespace Config

/-- The settings that assignments and the loading of files lead to, in any order. -/
inductive Reached (K : Config) : Settings → Prop
  | start : K.Reached .start
  | assign {g : Settings} (h : K.Reached g) (op : Op) : K.Reached (K.apply g op)
  | load {g : Settings} (h : K.Reached g) (replace : Bool) (text : Text) :
      K.Reached (K.loadConfig replace text g)

variable {K : Config} {P : User → Prop} {g : Settings} {text : Text}

theorem foldl_keeps {α : Type} {f : Settings → α → Settings} (hf : ∀ g a, P g.user → P (f g a).user)
    (l : List α) (h : P g.user) : P (l.foldl f g).user := by
  induction l generalizing g with
  | nil => exact h
  | cons a l ih => exact ih (hf g a h)

/-- What assignments keep, loading a file keeps. -/
theorem loadConfig_keeps (happly : ∀ g op, P g.user → P (K.apply g op).user) (replace : Bool)
    (h : P g.user) : P (K.loadConfig replace text g).user := by
  unfold loadConfig
  split
  · refine foldl_keeps (fun g k hg => ?_) _ (foldl_keeps (fun g p hg => ?_) _
      (foldl_keeps happly _ h))
    · split
      · exact hg
      · exact happly g _ hg
    · split
      · exact hg
      · exact happly g _ hg
  · exact foldl_keeps happly _ h

/-- What assignments keep holds in every session. -/
theorem Reached.keeps (happly : ∀ g op, P g.user → P (K.apply g op).user) (h₀ : P .empty)
    (h : K.Reached g) : P g.user := by
  induction h with
  | start => exact h₀
  | assign _ op ih => exact happly _ op ih
  | load _ replace text ih => exact loadConfig_keeps happly replace ih

/-- **The user selections are symbols of their choices** in every session. -/
theorem Reached.selects (hK : K.Consistent) (h : K.Reached g) : K.Selects g.user := by
  refine h.keeps (fun g op hg => ?_) fun k x hx => by cases hx
  unfold apply
  cases ha : K.assign g op with
  | none => exact hg
  | some a =>
    exact assign_selects hK hg ha

end Config

end Kconfig
