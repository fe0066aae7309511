import VeRoot.Demand.Memo

/-!
# Forgetting what may have changed

Cells belong to items, and an item lists the items that depend on it.  When an item changes, its
cells are forgotten and the walk goes on to its dependents; but it passes over a dependent whose
flag cell is not known, and does not look behind it.  That is sound if the rule of every cell asks
the flag of its own item first: an entry that was computed from a forgotten one has its flag set.

A hub is an item everything may depend on, without being listed: a change of it forgets all.

## Main definitions

* `Net`, `Net.invalidate` — the items, and the walk along the dependents.
* `Net.Swept` — what the walk leaves behind.
* `Net.Covers` — every question is covered by a dependent, and the flag is asked first.
* `exists_invalidate` — the walk ends.
* `Supported.sweep` — what is left over is supported by the changed rules.
-/

namespace Demand

variable {Cell Item : Type} {Val : Cell → Type}

/-- Items with their cells, and who has to hear of a change of whom. -/
structure Net (Cell Item : Type) where
  item : Cell → Item
  /-- The cell that is known whenever an entry of the item rests on other entries. -/
  flag : Item → Cell
  item_flag : ∀ x, item (flag x) = x
  dependents : Item → List Item
  hub : Item → Bool

namespace Net

section

variable [DecidableEq Item]

/-- Forget the cells of one item. -/
def clear (N : Net Cell Item) (x : Item) (s : Table Val) : Table Val :=
  fun c => if N.item c = x then none else s c

/-- Forget the cells of an item, then those of its dependents that are flagged, and so on. -/
def invalidate (N : Net Cell Item) : ℕ → Item → Table Val → Option (Table Val)
  | 0, _, _ => none
  | n + 1, x, s =>
    if N.hub x then some fun _ => none
    else (N.dependents x).foldlM
      (fun s y => if (s (N.flag y)).isSome then N.invalidate n y s else some s) (N.clear x s)

end

/-- What is forgotten is forgotten by items, and no item behind one that lost an entry keeps its
flag. -/
structure Swept (N : Net Cell Item) (s s' : Table Val) : Prop where
  sub : s'.Sub s
  whole : ∀ c d, N.item c = N.item d → s' c ≠ s c → s' d = none
  onward : ∀ c y, s' c ≠ s c → y ∈ N.dependents (N.item c) → s' (N.flag y) = none
  hub : ∀ c, s' c ≠ s c → N.hub (N.item c) → ∀ d, s' d = none

/-- Every question is about the own item, about one that lists it as a dependent, or about a hub;
and a rule that asks at all asks for the flag first, maybe through another cell of its item. -/
structure Covers (N : Net Cell Item) (rule : (c : Cell) → Query Val (Val c)) : Prop where
  asks : ∀ c, (rule c).Within (Answers rule) fun d =>
    N.item d = N.item c ∨ N.item c ∈ N.dependents (N.item d) ∨ N.hub (N.item d)
  guarded : ∀ c, (∃ v, rule c = .done v) ∨ c = N.flag (N.item c) ∨
    ∃ d k, rule c = .ask d k ∧ N.item d = N.item c ∧
      (d = N.flag (N.item c) ∨ ∃ k', rule d = .ask (N.flag (N.item c)) k')

variable {N : Net Cell Item} {s s' t : Table Val} {x : Item} {n : ℕ}

/-! ## The walk -/

theorem Swept.refl (N : Net Cell Item) (s : Table Val) : N.Swept s s where
  sub := .refl s
  whole _ _ _ h := absurd rfl h
  onward _ _ h _ := absurd rfl h
  hub _ h _ := absurd rfl h

theorem Swept.trans (h : N.Swept s t) (h' : N.Swept t s') : N.Swept s s' := by
  -- an entry that is gone at the end went in the first part or in the second
  have split : ∀ c, s' c ≠ s c → t c ≠ s c ∨ s' c ≠ t c := by
    intro c hc
    rcases eq_or_ne (t c) (s c) with e | hne
    · exact .inr (e ▸ hc)
    · exact .inl hne
  refine ⟨h'.sub.trans h.sub, fun c d e hc => ?_, fun c y hc hy => ?_, fun c hc hh d => ?_⟩
  · rcases split c hc with hc | hc
    · exact h'.sub.none (h.whole c d e hc)
    · exact h'.whole c d e hc
  · rcases split c hc with hc | hc
    · exact h'.sub.none (h.onward c y hc hy)
    · exact h'.onward c y hc hy
  · rcases split c hc with hc | hc
    · exact h'.sub.none (h.hub c hc hh d)
    · exact h'.hub c hc hh d

/-- The dependents in their turn: if every step sweeps and clears its item, so do all of them. -/
theorem swept_foldlM {step : Table Val → Item → Option (Table Val)}
    (hstep : ∀ t y t', step t y = some t' → N.Swept t t' ∧ t' (N.flag y) = none) {ys : List Item}
    (h : ys.foldlM step t = some s') : N.Swept t s' ∧ ∀ y ∈ ys, s' (N.flag y) = none := by
  induction ys generalizing t with
  | nil =>
    obtain rfl := Option.some.inj h
    exact ⟨.refl N t, fun y hy => absurd hy List.not_mem_nil⟩
  | cons z ys ih =>
    obtain ⟨r, hr, h⟩ := Option.bind_eq_some_iff.mp h
    obtain ⟨hsw, hz⟩ := hstep t z r hr
    obtain ⟨hrest, hys⟩ := ih h
    refine ⟨hsw.trans hrest, fun y hy => ?_⟩
    rcases List.mem_cons.mp hy with rfl | hy
    · exact hrest.sub.none hz
    · exact hys y hy

/-- A chain of steps that sweep stays defined if every step is defined on what is left. -/
theorem exists_foldlM {step : Table Val → Item → Option (Table Val)} {ys : List Item}
    (hstep : ∀ t' y, t'.Sub t → y ∈ ys → ∃ t'', step t' y = some t'' ∧ t''.Sub t') :
    ∃ s', ys.foldlM step t = some s' := by
  induction ys generalizing t with
  | nil => exact ⟨t, rfl⟩
  | cons y ys ih =>
    obtain ⟨r, hr, hsub⟩ := hstep t y (.refl t) List.mem_cons_self
    obtain ⟨s', hs'⟩ := ih fun t' z ht' hz =>
      hstep t' z (ht'.trans hsub) (List.mem_cons_of_mem _ hz)
    exact ⟨s', by rw [List.foldlM_cons, hr]; exact hs'⟩

/-- How many of the items are flagged. -/
def flagged (N : Net Cell Item) (U : List Item) (s : Table Val) : ℕ :=
  U.countP fun y => (s (N.flag y)).isSome

theorem flagged_le {U : List Item} (h : s'.Sub s) : N.flagged U s' ≤ N.flagged U s := by
  refine List.countP_mono_left fun y _ hy => ?_
  obtain ⟨v, hv⟩ := Option.isSome_iff_exists.mp hy
  exact Option.isSome_iff_exists.mpr ⟨v, h _ v hv⟩

section Walk

variable [DecidableEq Item]

theorem clear_sub (N : Net Cell Item) (x : Item) (s : Table Val) : (N.clear x s).Sub s := by
  intro c v h
  unfold clear at h
  split at h
  · cases h
  · exact h

theorem clear_self {c : Cell} (h : N.item c = x) (s : Table Val) : N.clear x s c = none :=
  if_pos h

theorem clear_of_ne {c : Cell} (h : N.item c ≠ x) (s : Table Val) : N.clear x s c = s c :=
  if_neg h

/-- **The walk sweeps**; the item it starts from loses its cells, and its dependents their flags. -/
theorem invalidate_swept (h : N.invalidate n x s = some s') :
    N.Swept s s' ∧ (∀ c, N.item c = x → s' c = none) ∧
      ∀ y ∈ N.dependents x, s' (N.flag y) = none := by
  induction n generalizing x s s' with
  | zero => cases h
  | succ n ih =>
    rw [invalidate] at h
    split at h
    · obtain rfl := Option.some.inj h
      exact ⟨⟨fun c v h => (nomatch h), fun _ _ _ _ => rfl, fun _ _ _ _ => rfl,
        fun _ _ _ _ => rfl⟩, fun _ _ => rfl, fun _ _ => rfl⟩
    · next hx =>
      obtain ⟨hsw, hdeps⟩ := swept_foldlM (fun t y t' ht => by
        split at ht
        · exact ⟨(ih ht).1, (ih ht).2.1 _ (N.item_flag y)⟩
        · next hy =>
          obtain rfl := Option.some.inj ht
          exact ⟨.refl N t, Option.not_isSome_iff_eq_none.mp hy⟩) h
      have hself : ∀ c, N.item c = x → s' c = none :=
        fun c hc => hsw.sub.none (clear_self hc s)
      -- an entry of another item that is gone went after the first step
      have hother : ∀ c, N.item c ≠ x → s' c ≠ s c → s' c ≠ N.clear x s c := by
        intro c hc hne
        rwa [clear_of_ne hc]
      refine ⟨⟨hsw.sub.trans (N.clear_sub x s), fun c d e hc => ?_, fun c y hc hy => ?_,
        fun c hc hh => ?_⟩, hself, hdeps⟩ <;> rcases eq_or_ne (N.item c) x with hcx | hcx
      · exact hself d (e ▸ hcx)
      · exact hsw.whole c d e (hother c hcx hc)
      · exact hdeps y (hcx ▸ hy)
      · exact hsw.onward c y (hother c hcx hc) hy
      · exact absurd (hcx ▸ hh) hx
      · exact hsw.hub c (hother c hcx hc) hh

/-- Clearing a flagged item leaves fewer of them. -/
theorem flagged_clear_lt {U : List Item} (hx : x ∈ U) (h : (s (N.flag x)).isSome) :
    N.flagged U (N.clear x s) < N.flagged U s := by
  induction U with
  | nil => exact absurd hx List.not_mem_nil
  | cons y U ih =>
    have hle : N.flagged U (N.clear x s) ≤ N.flagged U s := flagged_le (N.clear_sub x s)
    rcases eq_or_ne y x with rfl | hne
    · simp only [flagged] at hle ⊢
      rw [List.countP_cons_of_neg (by simp [clear_self (N.item_flag y)]),
        List.countP_cons_of_pos (by simpa using h)]
      omega
    · have hx : x ∈ U := (List.mem_cons.mp hx).resolve_left (fun e => hne e.symm)
      have hlt := ih hx
      have e : N.clear x s (N.flag y) = s (N.flag y) := clear_of_ne (by rwa [N.item_flag]) s
      simp only [flagged, List.countP_cons, e] at hlt ⊢
      omega

/-- **The walk ends**: every step but the first takes a flag away. -/
theorem exists_invalidate {U : List Item} (hU : ∀ y ∈ U, ∀ z ∈ N.dependents y, z ∈ U)
    (hx : x ∈ U) (h : N.flagged U (N.clear x s) < n) : ∃ s', N.invalidate n x s = some s' := by
  induction n generalizing x s with
  | zero => exact absurd h (Nat.not_lt_zero _)
  | succ n ih =>
    rw [invalidate]
    split
    · exact ⟨_, rfl⟩
    · refine exists_foldlM fun t' y ht' hy => ?_
      split
      · next hflag =>
        have hyU := hU x hx y hy
        have hlt := flagged_clear_lt hyU hflag
        have hle : N.flagged U t' ≤ N.flagged U (N.clear x s) := flagged_le ht'
        obtain ⟨t'', ht''⟩ := ih hyU (s := t') (by omega)
        exact ⟨t'', ht'', (invalidate_swept ht'').1.sub⟩
      · exact ⟨t', rfl, .refl t'⟩

end Walk

end Net

/-! ## What is left over -/

section Sweep

variable {N : Net Cell Item} {s s' : Table Val} {rule rule' : (c : Cell) → Query Val (Val c)}
  {c : Cell} {v : Val c}

/-- An entry whose rule asks at all has its flag set. -/
theorem Supported.flag_ne_none (hN : N.Covers rule) (hs : Supported rule s) (e : s c = some v) :
    (∃ v, rule c = .done v) ∨ s (N.flag (N.item c)) ≠ none := by
  -- a rule that asks for `d` first was given an answer
  have asked : ∀ {c d : Cell} {v : Val c} {k}, s c = some v → rule c = .ask d k → s d ≠ none := by
    intro c d v k e hk hd
    have h := hs.eval_eq e
    rw [hk, Query.eval_ask, hd] at h
    cases h
  rcases hN.guarded c with hdone | hflag | ⟨d, k, hk, hd, hflag⟩
  · exact .inl hdone
  · exact .inr (by rw [← hflag, e]; exact Option.some_ne_none v)
  · have hsd := asked e hk
    obtain ⟨w, hw⟩ := Option.ne_none_iff_exists'.mp hsd
    rcases hflag with rfl | ⟨k', hk'⟩
    · exact .inr hsd
    · exact .inr (asked hw hk')

/-- What an entry that is left over may have been computed from is left over as well. -/
theorem Net.Swept.within (hN : N.Covers rule) (hs : Supported rule s) (h : N.Swept s s')
    (e : s' c = some v) : (rule c).Within (Answers rule) fun d => s' d = s d := by
  have kept : s' c ≠ none := by rw [e]; exact Option.some_ne_none v
  rcases hs.flag_ne_none hN (h.sub c v e) with ⟨w, hw⟩ | hflag
  · rw [hw]
    trivial
  · refine (hN.asks c).mono fun d hd => ?_
    by_contra hne
    rcases hd with hd | hd | hd
    · exact kept (h.whole d c hd hne)
    · -- the walk went on from `d` to the item of `c`, which was flagged
      have hgone := h.onward d _ hne hd
      exact kept (h.whole _ c (N.item_flag _) (by rw [hgone]; exact hflag.symm))
    · exact kept (h.hub d hne hd c)

/-- **What the walk leaves over is supported**, by the old rules and by any that give the same
results on it. -/
theorem Supported.sweep (hN : N.Covers rule) (hs : Supported rule s) (h : N.Swept s s')
    (hsame : ∀ c v (t : Table Val), s' c = some v → t.Sub s' → (rule c).eval t = some v →
      (rule' c).eval t = some v) : Supported rule' s' := by
  have hs₀ := hs
  obtain ⟨age, now, hs⟩ := hs
  refine ⟨age, now, ⟨fun c v e => hs.lt c v (h.sub c v e), fun c v e => ?_⟩⟩
  refine hsame c v _ e (s'.below_sub _ _) ?_
  rw [← hs.holds c v (h.sub c v e)]
  refine (Query.eval_congr ((h.within hN hs₀ e).mono fun d hd => ?_) fun d w hd => ?_).symm
  · simp only [Table.below, hd]
  · exact ⟨s, hs₀.eval_eq (s.below_sub _ _ d w hd)⟩

end Sweep

end Demand
