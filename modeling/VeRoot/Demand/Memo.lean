import VeRoot.Demand.Query

/-!
# A table of computed values

`fetch` looks a cell up in a table before it runs the cell's rule, and writes down what it
computed.  A table is `Supported` if every value in it follows by its rule from values that were
written down before; such a table holds plain values only, and `fetch` keeps it so.

## Main definitions

* `Query.run`, `fetch` — evaluation with a table.
* `Supported` — every known value follows by its rule from known ones.
* `Supported.value_eq` — the table holds plain values.
* `fetch_supported`, `fetch_eq_value`, `fetch_of_value` — `fetch` gives the plain value.
-/

namespace Demand

variable {Cell : Type} {Val : Cell → Type} {α : Type}

/-- Evaluate with a table that grows: `look` answers a question. -/
def Query.run (look : (c : Cell) → Table Val → Option (Val c × Table Val)) :
    Query Val α → Table Val → Option (α × Table Val)
  | .done a, s => some (a, s)
  | .ask c k, s => (look c s).bind fun r => (k r.1).run look r.2

section

variable [DecidableEq Cell]

/-- Look the cell up; if it is not there, run its rule and write the result down. -/
def fetch (rule : (c : Cell) → Query Val (Val c)) :
    ℕ → (c : Cell) → Table Val → Option (Val c × Table Val)
  | 0, _, _ => none
  | n + 1, c, s =>
    match s c with
    | some v => some (v, s)
    | none => ((rule c).run (fetch rule n) s).map fun r => (r.1, Function.update r.2 c (some r.1))

end

/-- The entries of a table that are older than `n`. -/
def Table.below (s : Table Val) (age : Cell → ℕ) (n : ℕ) : Table Val :=
  fun c => if age c < n then s c else none

theorem Table.below_sub (s : Table Val) (age : Cell → ℕ) (n : ℕ) : (s.below age n).Sub s := by
  intro c v h
  unfold Table.below at h
  split at h
  · exact h
  · cases h

/-- Every entry was written before `now`, and follows by its rule from the entries before it. -/
structure Aged (rule : (c : Cell) → Query Val (Val c)) (s : Table Val) (age : Cell → ℕ)
    (now : ℕ) : Prop where
  lt : ∀ c v, s c = some v → age c < now
  holds : ∀ c v, s c = some v → (rule c).eval (s.below age (age c)) = some v

/-- Every known value follows by its rule from values that were known before. -/
def Supported (rule : (c : Cell) → Query Val (Val c)) (s : Table Val) : Prop :=
  ∃ age now, Aged rule s age now

section Supported

variable {rule : (c : Cell) → Query Val (Val c)} {s s' : Table Val} {n m : ℕ} {c : Cell}
  {v w : Val c} {q : Query Val α} {a : α}

/-- A table that knows nothing. -/
theorem supported_empty : Supported rule (fun _ => none : Table Val) := by
  refine ⟨fun _ => 0, 0, ⟨?_, ?_⟩⟩
  · intro c v h
    cases h
  · intro c v h
    cases h

/-- A known value follows by its rule from the table. -/
theorem Supported.eval_eq (h : Supported rule s) (e : s c = some v) :
    (rule c).eval s = some v := by
  obtain ⟨age, now, h⟩ := h
  exact Query.eval_mono (s.below_sub _ _) (h.holds c v e)

/-- **The table holds plain values.** -/
theorem Supported.value_eq (h : Supported rule s) (e : s c = some v) :
    ∃ n, value rule n c = some v := by
  obtain ⟨age, now, h⟩ := h
  -- an entry of age `k` is the plain value at depth `k + 1`
  have key : ∀ k c v, s c = some v → age c < k → value rule k c = some v := by
    intro k
    induction k with
    | zero => intro c v _ hk; exact absurd hk (Nat.not_lt_zero _)
    | succ k ih =>
      intro c v e hk
      refine Query.eval_mono (fun d w hd => ?_) (h.holds c v e)
      unfold Table.below at hd
      split at hd
      · exact ih d w hd (by omega)
      · cases hd
  exact ⟨age c + 1, key _ c v e (Nat.lt_succ_self _)⟩

/-- What a question does to the table. -/
theorem Query.run_supported {look : (c : Cell) → Table Val → Option (Val c × Table Val)}
    (hlook : ∀ c s v s', Supported rule s → look c s = some (v, s') →
      Supported rule s' ∧ s.Sub s' ∧ s' c = some v)
    (hs : Supported rule s) (h : q.run look s = some (a, s')) :
    Supported rule s' ∧ s.Sub s' ∧ q.eval s' = some a := by
  induction q generalizing s with
  | done b =>
    obtain ⟨rfl, rfl⟩ := Prod.mk.inj (Option.some.inj h)
    exact ⟨hs, .refl s, rfl⟩
  | ask c k ih =>
    obtain ⟨⟨v, t⟩, hv, h⟩ := Option.bind_eq_some_iff.mp h
    obtain ⟨ht, hst, hc⟩ := hlook c s v t hs hv
    obtain ⟨hs', hts', e⟩ := ih v ht h
    refine ⟨hs', hst.trans hts', ?_⟩
    rw [Query.eval_ask, hts' c v hc]
    exact e

theorem Query.run_of_eval {look : (c : Cell) → Table Val → Option (Val c × Table Val)}
    {t : Table Val}
    (hlook : ∀ c s v s', Supported rule s → look c s = some (v, s') →
      Supported rule s' ∧ s.Sub s' ∧ s' c = some v)
    (htotal : ∀ c s v, Supported rule s → t c = some v → ∃ s', look c s = some (v, s'))
    (hs : Supported rule s) (h : q.eval t = some a) : ∃ s', q.run look s = some (a, s') := by
  induction q generalizing s with
  | done b =>
    obtain rfl := Option.some.inj h
    exact ⟨s, rfl⟩
  | ask c k ih =>
    obtain ⟨v, hv, h⟩ := Option.bind_eq_some_iff.mp h
    obtain ⟨t', ht'⟩ := htotal c s v hs hv
    obtain ⟨s', hs'⟩ := ih v (hlook c s v t' hs ht').1 h
    exact ⟨s', by rw [Query.run, ht', Option.bind_some]; exact hs'⟩

/-- What follows from the table is what follows from plain values. -/
theorem Supported.eval_value (h : Supported rule s) (e : q.eval s = some a) :
    ∃ n, q.eval (value rule n) = some a := by
  induction q with
  | done b => exact ⟨0, e⟩
  | ask c k ih =>
    obtain ⟨v, hv, e⟩ := Option.bind_eq_some_iff.mp e
    obtain ⟨n, hn⟩ := h.value_eq hv
    obtain ⟨m, hm⟩ := ih v e
    refine ⟨max n m, ?_⟩
    rw [Query.eval_ask, value_mono (Nat.le_max_left n m) c v hn]
    exact Query.eval_mono (value_mono (Nat.le_max_right n m)) hm

variable [DecidableEq Cell]

/-- Write down a value that follows from the table. -/
theorem Supported.update (h : Supported rule s) (e : (rule c).eval s = some v) :
    Supported rule (Function.update s c (some v)) ∧ s.Sub (Function.update s c (some v)) := by
  cases hc : s c with
  | some w =>
    -- the rule has given this value before
    have : w = v := Option.some.inj ((h.eval_eq hc).symm.trans e)
    rw [Function.update_eq_self_iff.mpr (by rw [hc, this])]
    exact ⟨h, .refl s⟩
  | none =>
    have hsub : s.Sub (Function.update s c (some v)) := by
      intro d w hd
      rcases eq_or_ne d c with rfl | hne
      · rw [hc] at hd; cases hd
      · rw [Function.update_of_ne hne, hd]
    obtain ⟨age, now, h⟩ := h
    refine ⟨⟨Function.update age c now, now + 1, ⟨?_, ?_⟩⟩, hsub⟩
    · intro d w hd
      rcases eq_or_ne d c with rfl | hne
      · rw [Function.update_self]; omega
      · rw [Function.update_of_ne hne] at hd ⊢
        exact Nat.lt_succ_of_lt (h.lt d w hd)
    · intro d w hd
      rcases eq_or_ne d c with rfl | hne
      · rw [Function.update_self] at hd
        obtain rfl := Option.some.inj hd
        refine Query.eval_mono (fun x z hx => ?_) e
        have hne : x ≠ d := by rintro rfl; rw [hc] at hx; cases hx
        rw [Table.below, Function.update_self, Function.update_of_ne hne,
          Function.update_of_ne hne, if_pos (h.lt x z hx), hx]
      · rw [Function.update_of_ne hne] at hd
        refine Query.eval_mono (fun x z hx => ?_) (h.holds d w hd)
        have hne' : x ≠ c := by
          rintro rfl
          rw [s.below_sub _ _ x z hx] at hc
          cases hc
        rw [Table.below] at hx ⊢
        rwa [Function.update_of_ne hne', Function.update_of_ne hne', Function.update_of_ne hne]

/-- **`fetch` keeps the table supported**, forgets nothing and writes down what it returns. -/
theorem fetch_supported (hs : Supported rule s) (h : fetch rule n c s = some (v, s')) :
    Supported rule s' ∧ s.Sub s' ∧ s' c = some v := by
  induction n generalizing c s s' with
  | zero => cases h
  | succ n ih =>
    rw [fetch] at h
    split at h
    · next w hc =>
      obtain ⟨rfl, rfl⟩ := Prod.mk.inj (Option.some.inj h)
      exact ⟨hs, .refl s, hc⟩
    · obtain ⟨⟨w, t⟩, hw, e⟩ := Option.map_eq_some_iff.mp h
      obtain ⟨rfl, rfl⟩ := Prod.mk.inj e
      obtain ⟨ht, hst, he⟩ := Query.run_supported (fun c s v s' => ih) hs hw
      obtain ⟨hu, htu⟩ := ht.update he
      exact ⟨hu, hst.trans htu, Function.update_self ..⟩

/-- What `fetch` returns is the plain value. -/
theorem fetch_eq_value (hs : Supported rule s) (h : fetch rule n c s = some (v, s')) :
    ∃ m, value rule m c = some v :=
  have ⟨hs', _, hc⟩ := fetch_supported hs h
  hs'.value_eq hc

/-- **A plain value is found**, at the depth that gives it from scratch. -/
theorem fetch_of_value (hs : Supported rule s) (h : value rule n c = some v) :
    ∃ s', fetch rule n c s = some (v, s') := by
  induction n generalizing c s with
  | zero => cases h
  | succ n ih =>
    rw [fetch]
    split
    · next w hc =>
      obtain ⟨m, hm⟩ := hs.value_eq hc
      exact ⟨s, by rw [value_unique hm h]⟩
    · obtain ⟨s', hs'⟩ := Query.run_of_eval (fun c s v s' => fetch_supported)
        (fun c s v => ih) hs h
      exact ⟨_, by rw [hs']; rfl⟩

end Supported

end Demand
