import VeRoot.Kconfig.Loops
import VeRoot.Kconfig.Reached

/-!
# Assignable values

`assignable` lists the values that a symbol would take if the user set it to them; menu interfaces
cycle through it.  It is calculated from the visibility and the selects, without trying.  Here it is
compared with what the symbol becomes when it is set.

## Main definitions

* `gives_triFree` — the value of a symbol, from its parts.
* `Becomes` — what a symbol becomes that is set.
* `assignable_iff` — `assignable` lists the values that are respected, with one exception.
* `exists_assignable` — the list and the new value exist.
-/

namespace Kconfig

open Unix Demand

namespace Config

variable {K : Config} {u u' : User} {x : Text} {s : Symbol} {L : List Tri} {v w vis rev : Tri}
  {b p : Bool} {rule : (d : Cell) → Query Val (Val d)} {base r : Tri × Bool}

/-- What becomes of a value that is `m`. -/
def settle (p : Bool) (r : Tri × Bool) : Tri × Bool := if r.1 = .m ∧ p then (.y, r.2) else r

/-- The value of a symbol that is not in a choice: what the user or a default gives, raised by the
selects, and promoted. -/
theorem gives_triFree (h : Gives rule (K.triFree u x s vis) r) :
    ∃ base rev, Gives rule (K.triBase u x s vis) base ∧ Gives rule (K.exprValue u s.revDep) rev ∧
      ((raise base rev).1 ≠ .m ∧ r = raise base rev ∨
        ∃ p, Gives rule (K.promotes u s) p ∧ r = settle p (raise base rev)) := by
  obtain ⟨base, hbase, h⟩ := gives_bind.mp h
  obtain ⟨rev, hrev, h⟩ := gives_bind.mp h
  refine ⟨base, rev, hbase, hrev, ?_⟩
  dsimp only at h
  split at h
  · next hm =>
    obtain ⟨p, hp, h⟩ := gives_bind.mp h
    refine .inr ⟨p, hp, (gives_done.mp h).symm.trans ?_⟩
    simp only [settle, hm, true_and]
  · next hm => exact .inl ⟨hm, (gives_done.mp h).symm⟩

@[simp] theorem raise_fst : (raise base rev).1 = max rev base.1 := by
  unfold raise
  split
  · rfl
  · next h => rw [not_not.mp h, Tri.n_max]

/-- A symbol of visibility `m` is a tristate symbol. -/
theorem symType_of_vis_m (hs : K.sym x = some s) (h : Gives rule (K.visibility u (.sym x)) .m) :
    Gives rule (K.symType u s) .tristate := by
  simp only [visibility, hs] at h
  obtain ⟨v, -, h⟩ := gives_bind.mp h
  obtain ⟨b, -, h⟩ := gives_bind.mp h
  cases b with
  | true => exact absurd (gives_done.mp h) (by decide)
  | false =>
    simp only [Bool.false_eq_true, if_false, promoteVis] at h
    split at h
    · obtain ⟨t, ht, h⟩ := gives_bind.mp h
      have h := gives_done.mp h
      split at h
      · cases h
      · next hne => rwa [not_not.mp hne] at ht
    · next hne => exact absurd (gives_done.mp h) hne

/-- For a symbol that is not bool, only an imply promotes. -/
theorem gives_promotes (ht : Gives rule (K.symType u s) .tristate) (h : Gives rule (K.promotes u s) p) :
    ∃ weak, Gives rule (K.exprValue u s.weakRevDep) weak ∧ p = decide (weak = .y) := by
  obtain ⟨t, ht', h⟩ := gives_bind.mp h
  obtain rfl := ht.unique ht'
  obtain ⟨weak, hweak, h⟩ := gives_bind.mp h
  exact ⟨weak, hweak, (gives_done.mp h).symm⟩

/-- What a symbol becomes that the user sets to `v`, in terms of its visibility and the selects. -/
def Becomes (rule : (d : Cell) → Query Val (Val d)) (promotes : Query Val Bool) (vis rev v w : Tri) :
    Prop :=
  max rev (min v vis) ≠ .m ∧ w = max rev (min v vis) ∨
    ∃ p, Gives rule promotes p ∧
      w = if max rev (min v vis) = .m ∧ p then .y else max rev (min v vis)

/-- A symbol of visibility `y` that is not in a choice. -/
theorem assignable_of_y (hc : s.choice = none) (hv : Gives rule (K.exprValue u s.revDep) rev)
    (hL : Gives rule (K.symAssignable u s .y) L)
    (hw : Becomes rule (K.promotes u s) .y rev v w) : v ∈ L ↔ w = v := by
  obtain ⟨rev', hrev', hL⟩ := gives_bind.mp hL
  obtain rfl := hv.unique hrev'
  simp only [hc, Option.isSome_none, Bool.false_eq_true, if_false] at hL
  unfold Becomes at hw
  rw [Tri.min_y] at hw
  cases rev with
  | n =>
    obtain ⟨p, hp, hL⟩ := gives_bind.mp hL
    obtain rfl := gives_done.mp hL
    rw [Tri.n_max] at hw
    rcases hw with ⟨hm, rfl⟩ | ⟨p', hp', rfl⟩
    · revert hm
      cases w <;> cases p <;> decide
    · obtain rfl := hp.unique hp'
      cases v <;> cases p <;> decide
  | m =>
    obtain ⟨p, hp, hL⟩ := gives_bind.mp hL
    obtain rfl := gives_done.mp hL
    rcases hw with ⟨hm, rfl⟩ | ⟨p', hp', rfl⟩
    · revert hm
      cases v <;> cases p <;> decide
    · obtain rfl := hp.unique hp'
      cases v <;> cases p <;> decide
  | y =>
    obtain rfl := gives_done.mp hL
    rcases hw with ⟨hm, rfl⟩ | ⟨p', -, rfl⟩
    · cases v <;> decide
    · cases v <;> cases p' <;> decide

/-- A symbol of visibility `m`. -/
theorem assignable_of_m (ht : Gives rule (K.symType u s) .tristate)
    (hv : Gives rule (K.exprValue u s.revDep) rev)
    (hL : Gives rule (K.symAssignable u s .m) L)
    (hw : Becomes rule (K.promotes u s) .m rev v w) :
    (v ∈ L ↔ w = v) ∨ L = [.m] ∧ w = .y ∧ Gives rule (K.exprValue u s.weakRevDep) .y := by
  obtain ⟨rev', hrev', hL⟩ := gives_bind.mp hL
  obtain rfl := hv.unique hrev'
  unfold Becomes at hw
  cases rev with
  | n =>
    obtain ⟨weak, hweak, hL⟩ := gives_bind.mp hL
    obtain rfl := gives_done.mp hL
    rw [Tri.n_max] at hw
    refine .inl ?_
    rcases hw with ⟨hm, rfl⟩ | ⟨p, hp, rfl⟩
    · revert hm
      cases v <;> cases weak <;> decide
    · obtain ⟨weak', hweak', rfl⟩ := gives_promotes ht hp
      obtain rfl := hweak.unique hweak'
      cases v <;> cases weak <;> decide
  | m =>
    obtain rfl := gives_done.mp hL
    have hmax : max Tri.m (min v .m) = .m := by cases v <;> decide
    rw [hmax] at hw
    rcases hw with ⟨hm, -⟩ | ⟨p, hp, rfl⟩
    · exact absurd rfl hm
    · -- locked to `m` by a select; an imply of `y` promotes it all the same
      obtain ⟨weak, hweak, rfl⟩ := gives_promotes ht hp
      by_cases hy : weak = .y
      · exact .inr ⟨rfl, by simp [hy], hy ▸ hweak⟩
      · refine .inl ?_
        simp [hy, eq_comm]
  | y =>
    obtain rfl := gives_done.mp hL
    refine .inl ?_
    rcases hw with ⟨hm, rfl⟩ | ⟨p, -, rfl⟩
    · cases v <;> decide
    · cases v <;> cases p <;> decide

/-- After an assignment the new value is calculated from the old values of everything else. -/
theorem gives_tri_of_set
    (h : Gives (K.rule (u.set x (.tri v))) (K.rule (u.set x (.tri v)) (.tri x)) r) :
    Gives (K.rule u) (K.rule (u.set x (.tri v)) (.tri x)) r := by
  refine Gives.of_changed (fun c hc => ?_) h
  refine rule_congr rfl rfl (fun y hy => ?_) fun _ _ => rfl
  have hne : y ≠ x := fun e => hc (e ▸ hy)
  exact (Function.update_of_ne hne ..).symm

/-- What a symbol becomes whose user value is `v`. -/
theorem assignable_of_set (hs : K.sym x = some s) (hc : s.choice = none)
    (hL : Gives (K.rule u) (K.rule u (.assignable (.sym x))) L) (hne : L ≠ [])
    (hw : Gives (K.rule (u.set x (.tri v))) (K.rule (u.set x (.tri v)) (.tri x)) (w, b)) :
    (v ∈ L ↔ w = v) ∨
      L = [.m] ∧ w = .y ∧ Gives (K.rule u) (K.exprValue u s.weakRevDep) .y := by
  have hmode : (u.set x (.tri v)).mode = u.mode := rfl
  have hset : (u.set x (.tri v)).tri x = some v := Function.update_self ..
  replace hw := gives_tri_of_set hw
  simp only [Config.rule, assignableRule, hs, Option.elim_some, triRule, hc] at hL hw
  split at hL
  · next ht =>
    rw [if_pos ht] at hw
    obtain ⟨vis, hvis, hL⟩ := gives_ask.mp hL
    obtain ⟨vis', hvis', hw⟩ := gives_ask.mp hw
    obtain rfl := hvis.unique hvis'
    change Gives (K.rule u) (K.symAssignable u s vis) L at hL
    change Gives (K.rule u) (K.triFree _ x s vis) (w, b) at hw
    by_cases hv : vis = .n
    · rw [hv] at hL
      exact absurd (gives_done.mp hL).symm hne
    · obtain ⟨base, rev, hbase, hrev, hw⟩ := gives_triFree hw
      have hbase : base.1 = min v vis := by
        unfold triBase at hbase
        rw [hset] at hbase
        simp only [if_pos hv] at hbase
        rw [← gives_done.mp hbase]
      rw [exprValue_congr hmode] at hrev
      rw [promotes_congr hmode] at hw
      -- the new value, in terms of the visibility and the selects
      have hw : Becomes (K.rule u) (K.promotes u s) vis rev v w := by
        unfold Becomes
        rw [← hbase, ← raise_fst]
        rcases hw with ⟨hm, hw⟩ | ⟨p, hp, hw⟩
        · exact .inl ⟨hm, congrArg Prod.fst hw⟩
        · refine .inr ⟨p, hp, (congrArg Prod.fst hw).trans ?_⟩
          unfold settle
          split <;> rfl
      cases vis with
      | n => exact absurd rfl hv
      | y => exact .inl (assignable_of_y hc hrev hL hw)
      | m => exact assignable_of_m (symType_of_vis_m hs hvis) hrev hL hw
  · exact absurd (gives_done.mp hL).symm hne

theorem symType_of_bool (hb : s.origType = .bool) {t : SymType} (h : Gives rule (K.symType u s) t) :
    t = .bool := by
  rw [symType, hb, if_neg (by decide)] at h
  exact (gives_done.mp h).symm

theorem promotes_of_bool (hb : s.origType = .bool) (h : Gives rule (K.promotes u s) p) : p = true := by
  obtain ⟨t, ht, h⟩ := gives_bind.mp h
  rw [if_pos (symType_of_bool hb ht)] at h
  exact (gives_done.mp h).symm

/-- A bool symbol outside of choices is never `m`. -/
theorem ne_m_of_free (hs : K.sym x = some s) (hc : s.choice = none) (hb : s.origType = .bool)
    (h : Gives (K.rule u) (K.rule u (.tri x)) r) : r.1 ≠ .m := by
  simp only [Config.rule, hs, Option.elim_some, triRule, hb, SymType.isBoolTristate, if_true, hc] at h
  obtain ⟨vis, -, h⟩ := gives_ask.mp h
  change Gives (K.rule u) (K.triFree u x s vis) r at h
  obtain ⟨base, rev, -, -, ⟨hm, rfl⟩ | ⟨p, hp, rfl⟩⟩ := gives_triFree h
  · exact hm
  · obtain rfl := promotes_of_bool hb hp
    unfold settle
    split
    · intro e
      cases e
    · next hm => exact fun e => hm ⟨e, rfl⟩

/-- `m` cannot be assigned to a bool symbol outside of choices. -/
theorem m_notMem_of_bool (hs : K.sym x = some s) (hc : s.choice = none) (hb : s.origType = .bool)
    (h : Gives (K.rule u) (K.rule u (.assignable (.sym x))) L) : .m ∉ L := by
  simp only [Config.rule, assignableRule, hs, hb, SymType.isBoolTristate, if_true] at h
  obtain ⟨vis, hvis, h⟩ := gives_ask.mp h
  change Gives (K.rule u) (K.symAssignable u s vis) L at h
  cases vis with
  | n =>
    rw [← gives_done.mp h]
    exact List.not_mem_nil
  | m => exact absurd (symType_of_bool hb (symType_of_vis_m hs hvis)) (by decide)
  | y =>
    obtain ⟨rev, -, h⟩ := gives_bind.mp h
    simp only [hc, Option.isSome_none, Bool.false_eq_true, if_false] at h
    cases rev with
    | y =>
      rw [← gives_done.mp h]
      decide
    | _ =>
      obtain ⟨p, hp, h⟩ := gives_bind.mp h
      obtain rfl := promotes_of_bool hb hp
      rw [← gives_done.mp h]
      decide

/-- `set_value` with a tristate value, outside of choices. -/
theorem user_setValue {g : Settings} {value : UserValue} (hs : K.sym x = some s)
    (hc : s.choice = none) (hv : value.ofType s.origType = .tri v) :
    (K.setValue x value g).settings.user = g.user.set x (.tri v) ∨
      UserValue.valid s.origType (.tri v) = false ∧
        (K.setValue x value g).settings.user = g.user := by
  simp only [Config.setValue, hs, hv, hc, and_true]
  split
  · next has =>
    have h : g.user.tri x = some v := by simpa [User.has] using has
    refine .inl ?_
    rw [User.set, Function.update_eq_self_iff.mpr h.symm]
    rfl
  · split
    · next invalid => exact .inr ⟨invalid, rfl⟩
    · exact .inl rfl

/-- **`assignable` lists the values that are respected.**  For a visible symbol outside of choices,
a value is in the list exactly if the symbol has it after `set_value`.  The exception is a symbol
that a select locks to `m` while an imply is `y`: `m` is listed, and the symbol becomes `y`,
whatever it is set to. -/
theorem assignable_iff {g : Settings} {value : UserValue} (hs : K.sym x = some s)
    (hc : s.choice = none) (hv : value.ofType s.origType = .tri v)
    (hL : Gives (K.rule g.user) (K.rule g.user (.assignable (.sym x))) L) (hne : L ≠ [])
    (hw : Gives (K.rule (K.setValue x value g).settings.user)
      (K.rule (K.setValue x value g).settings.user (.tri x)) (w, b)) :
    (v ∈ L ↔ w = v) ∨
      L = [.m] ∧ w = .y ∧ Gives (K.rule g.user) (K.exprValue g.user s.weakRevDep) .y := by
  rcases user_setValue (g := g) hs hc hv with e | ⟨invalid, e⟩ <;> rw [e] at hw
  · exact assignable_of_set hs hc hL hne hw
  · -- a value that is refused: `m` for a bool symbol
    by_cases ht : s.origType = .bool
    · obtain rfl : v = .m := by simpa [ht, UserValue.valid] using invalid
      exact .inl (iff_of_false (m_notMem_of_bool hs hc ht hL) (ne_m_of_free hs hc ht hw))
    · have : s.origType.isBoolTristate = false := by
        cases h : s.origType <;> simp_all [UserValue.valid, SymType.isBoolTristate]
      simp only [Config.rule, assignableRule, hs, this, Bool.false_eq_true, if_false] at hL
      exact absurd (gives_done.mp hL).symm hne

/-- **The calculations end**: without dependency loops the list and the new value exist in every
session. -/
theorem exists_assignable {g : Settings} (hK : K.Consistent) (hloop : K.Loopless)
    (hg : K.Reached g) (x : Text) (value : UserValue) :
    (∃ L, Gives (K.rule g.user) (K.rule g.user (.assignable (.sym x))) L) ∧
      ∃ r, Gives (K.rule (K.setValue x value g).settings.user)
        (K.rule (K.setValue x value g).settings.user (.tri x)) r :=
  ⟨hloop.gives hK (hg.selects hK) _, hloop.gives hK ((hg.assign (.setValue x value)).selects hK) _⟩

/-- A tristate symbol, which another one implies. -/
def tristates : Config where
  symbols :=
    [("MODULES".toList, ⟨.bool, [], [(.tri .y, .tri .y)], [], .tri .n, .tri .n, .tri .y, none, none⟩),
      ("USB".toList, ⟨.tristate, [.tri .y], [], [], .tri .n, .tri .n, .tri .y, none, none⟩)]
  choices := []
  defconfigList := none

/-- `m` can be assigned to the symbol, and is what it becomes. -/
theorem assignable_tristates : (Tri.m ∈ [Tri.n, .m, .y] ↔ Tri.m = .m) ∨
    [Tri.n, Tri.m, Tri.y] = [.m] ∧ Tri.m = .y ∧
      Gives (tristates.rule .empty) (tristates.exprValue .empty (.tri .n)) .y :=
  assignable_iff (K := tristates) (g := .start) (x := "USB".toList) (b := true) rfl rfl
    (rfl : UserValue.ofType .tristate (.str ['m']) = .tri .m) ⟨6, rfl⟩ nofun ⟨6, rfl⟩

end Config

end Kconfig
