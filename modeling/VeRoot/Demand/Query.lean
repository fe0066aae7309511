import Mathlib.Data.Nat.Notation
import Mathlib.Logic.Function.Basic
import Mathlib.Order.Nat

/-!
# Values on demand

A cell has a rule: a computation that asks for the values of other cells, one after the other,
and may decide by an answer what to ask next.  The plain value of a cell is what its rule gives
when every cell it asks for is computed from scratch; `n` bounds how deep the questions nest.

## Main definitions

* `Query` — a computation that asks for cells.
* `Query.Within` — the cells a computation may ask for.
* `Answers` — the answers that rules can give.
* `Table`, `Query.eval` — the result of a computation whose answers are in a table.
* `Query.Congr` — a relation between computations that sequencing keeps.
* `Query.AgreeOn` — two computations that are the same as long as the answers are of some kind.
* `Query.Keeps` — what the one gives against a table, the other gives too.
* `value` — the plain value of a cell.
* `value_unique` — a cell has at most one plain value.
* `Gives` — what a computation gives from scratch, with the rules `gives_ask` and `gives_bind`.
* `Gives.of_changed` — a change of one rule.
* `Table.rules`, `gives_table` — a table as rules.
* `value_sub_of_keeps` — rules that give what others give.
* `exists_gives` — every cell has a value if no rule asks for cells of the same rank or a higher one.
-/

namespace Demand

variable {Cell : Type} {Val : Cell → Type} {α β : Type}

/-- A computation that asks for the values of cells. -/
inductive Query (Val : Cell → Type) (α : Type)
  | done (a : α)
  | ask (c : Cell) (k : Val c → Query Val α)

/-- The cells whose values are known. -/
abbrev Table (Val : Cell → Type) : Type := (c : Cell) → Option (Val c)

/-- Everything one table knows, the other knows as well. -/
def Table.Sub (s t : Table Val) : Prop := ∀ c v, s c = some v → t c = some v

theorem Table.Sub.refl (s : Table Val) : s.Sub s := fun _ _ h => h

theorem Table.Sub.trans {s t r : Table Val} (h : s.Sub t) (h' : t.Sub r) : s.Sub r :=
  fun c v e => h' c v (h c v e)

/-- What the larger table does not know, the smaller one does not. -/
theorem Table.Sub.none {s t : Table Val} {c : Cell} (h : s.Sub t) (e : t c = none) :
    s c = none := by
  cases hs : s c with
  | none => rfl
  | some v => rw [h c v hs] at e; cases e

namespace Query

/-- Go on with the result. -/
def bind : Query Val α → (α → Query Val β) → Query Val β
  | done a, f => f a
  | ask c k, f => ask c fun v => (k v).bind f

instance : Monad (Query Val) where
  pure := done
  bind := bind

@[simp] theorem pure_eq (a : α) : (pure a : Query Val α) = done a := rfl

@[simp] theorem done_bind (a : α) (f : α → Query Val β) : (done a >>= f) = f a := rfl

@[simp] theorem ask_bind (c : Cell) (k : Val c → Query Val α) (f : α → Query Val β) :
    (ask c k >>= f) = ask c fun v => k v >>= f := rfl

/-- Ask for one cell. -/
def get (c : Cell) : Query Val (Val c) := ask c done

@[simp] theorem get_bind (c : Cell) (f : Val c → Query Val β) : (get c >>= f) = ask c f := rfl

/-- Every cell that may be asked for has the property, as long as the answers are among those
in `A`. -/
def Within (A : (c : Cell) → Val c → Prop) (P : Cell → Prop) : Query Val α → Prop
  | done _ => True
  | ask c k => P c ∧ ∀ v, A c v → (k v).Within A P

section Within

variable {A : (c : Cell) → Val c → Prop} {P Q : Cell → Prop} {q : Query Val α}

@[simp] theorem within_done (a : α) : (done a : Query Val α).Within A P := trivial

@[simp] theorem within_get {c : Cell} : (get c : Query Val (Val c)).Within A P ↔ P c :=
  ⟨And.left, fun h => ⟨h, fun _ _ => trivial⟩⟩

theorem Within.bind {f : α → Query Val β} (h : q.Within A P) (hf : ∀ a, (f a).Within A P) :
    (q >>= f).Within A P := by
  induction q with
  | done a => exact hf a
  | ask c k ih => exact ⟨h.1, fun v hv => ih v (h.2 v hv)⟩

theorem Within.mono (h : q.Within A P) (hPQ : ∀ c, P c → Q c) : q.Within A Q := by
  induction q with
  | done a => trivial
  | ask c k ih => exact ⟨hPQ c h.1, fun v hv => ih v (h.2 v hv)⟩

/-- Every result, whatever the answers are, has the property. -/
def Yields (R : α → Prop) : Query Val α → Prop
  | done a => R a
  | ask _ k => ∀ v, (k v).Yields R

/-- What follows has to be looked at only for the results that there can be. -/
theorem Within.bind_of_yields {R : α → Prop} {f : α → Query Val β} (h : q.Within A P)
    (hR : q.Yields R) (hf : ∀ a, R a → (f a).Within A P) : (q >>= f).Within A P := by
  induction q with
  | done a => exact hf a hR
  | ask c k ih => exact ⟨h.1, fun v hv => ih v (h.2 v hv) (hR v)⟩

theorem Yields.mono {R S : α → Prop} (h : q.Yields R) (hRS : ∀ a, R a → S a) : q.Yields S := by
  induction q with
  | done a => exact hRS a h
  | ask c k ih => exact fun v => ih v (h v)

theorem Yields.bind {R : β → Prop} {f : α → Query Val β} (hf : ∀ a, (f a).Yields R) :
    (q >>= f).Yields R := by
  induction q with
  | done a => exact hf a
  | ask c k ih => exact ih

end Within

/-- The result when the answers are in the table; `none` if one is missing. -/
def eval (t : Table Val) : Query Val α → Option α
  | done a => some a
  | ask c k => (t c).bind fun v => (k v).eval t

section Eval

variable {s t : Table Val} {q : Query Val α} {a : α}

@[simp] theorem eval_done (a : α) : (done a : Query Val α).eval t = some a := rfl

@[simp] theorem eval_get (c : Cell) : (get c : Query Val (Val c)).eval t = t c := by
  simp [get, eval]

theorem eval_ask (c : Cell) (k : Val c → Query Val α) :
    (ask c k).eval t = (t c).bind fun v => (k v).eval t := rfl

@[simp] theorem eval_bind (q : Query Val α) (f : α → Query Val β) :
    (q >>= f).eval t = (q.eval t).bind fun a => (f a).eval t := by
  induction q with
  | done a => rfl
  | ask c k ih =>
    rw [ask_bind, eval_ask, eval_ask, Option.bind_assoc]
    exact congrArg _ (funext ih)

theorem eval_mono (h : s.Sub t) (e : q.eval s = some a) : q.eval t = some a := by
  induction q with
  | done b => exact e
  | ask c k ih =>
    obtain ⟨v, hv, e⟩ := Option.bind_eq_some_iff.mp e
    rw [eval_ask, h c v hv]
    exact ih v e

theorem Yields.of_eval {R : α → Prop} (h : q.Yields R) (e : q.eval s = some a) : R a := by
  induction q with
  | done b => exact Option.some.inj e ▸ h
  | ask c k ih =>
    obtain ⟨v, -, e⟩ := Option.bind_eq_some_iff.mp e
    exact ih v (h v) e

/-- Only the answers to the questions that may come up matter. -/
theorem eval_congr {A : (c : Cell) → Val c → Prop} (h : q.Within A fun c => s c = t c)
    (hs : ∀ c v, s c = some v → A c v) : q.eval s = q.eval t := by
  induction q with
  | done a => rfl
  | ask c k ih =>
    rw [eval_ask, eval_ask, ← h.1]
    cases hc : s c with
    | none => rfl
    | some v => exact ih v (h.2 v (hs c v hc))

end Eval

/-- A relation between computations that sequencing keeps. -/
structure Congr (Val : Cell → Type) where
  rel : ∀ {α : Type}, Query Val α → Query Val α → Prop
  refl : ∀ {α : Type} (q : Query Val α), rel q q
  bind : ∀ {α β : Type} {q q' : Query Val α} {f f' : α → Query Val β}, rel q q' →
    (∀ a, rel (f a) (f' a)) → rel (q >>= f) (q' >>= f')

/-- Equality as a congruence. -/
def Congr.same : Congr Val :=
  ⟨Eq, fun _ => rfl, fun h hf => h ▸ congrArg (_ >>= ·) (funext hf)⟩

/-- What the first computation gives against a table, the second gives too; it may ask less. -/
def Keeps (T : Table Val) (q q' : Query Val α) : Prop := ∀ a, q.eval T = some a → q'.eval T = some a

theorem Keeps.bind {T : Table Val} {q q' : Query Val α} {f f' : α → Query Val β} (h : Keeps T q q')
    (hf : ∀ a, q.eval T = some a → Keeps T (f a) (f' a)) : Keeps T (q >>= f) (q' >>= f') := by
  intro b hb
  rw [eval_bind] at hb ⊢
  obtain ⟨a, ha, hb⟩ := Option.bind_eq_some_iff.mp hb
  rw [h a ha]
  exact hf a ha b hb

/-- Both ask the same question first. -/
theorem Keeps.ask {T : Table Val} {c : Cell} {k k' : Val c → Query Val α}
    (h : ∀ v, T c = some v → Keeps T (k v) (k' v)) : Keeps T (Query.ask c k) (Query.ask c k') := by
  intro a ha
  rw [eval_ask] at ha ⊢
  obtain ⟨v, hv, ha⟩ := Option.bind_eq_some_iff.mp ha
  rw [hv]
  exact h v hv a ha

/-- `Keeps` as a congruence. -/
def Congr.keeps (T : Table Val) : Congr Val :=
  ⟨Keeps T, fun _ _ h => h, fun h hf => h.bind fun a _ => hf a⟩

/-- The two computations ask the same questions and give the same results, as long as the answers
are among those in `A`. -/
def AgreeOn (A : (c : Cell) → Val c → Prop) : Query Val α → Query Val α → Prop
  | done a, done b => a = b
  | ask c k, q => ∃ k', q = ask c k' ∧ ∀ v, A c v → (k v).AgreeOn A (k' v)
  | done _, ask _ _ => False

section AgreeOn

variable {A : (c : Cell) → Val c → Prop} {q q' : Query Val α} {s : Table Val}

theorem AgreeOn.refl (q : Query Val α) : q.AgreeOn A q := by
  induction q with
  | done a => rfl
  | ask c k ih => exact ⟨k, rfl, fun v _ => ih v⟩

theorem AgreeOn.bind {f f' : α → Query Val β} (h : q.AgreeOn A q')
    (hf : ∀ a, (f a).AgreeOn A (f' a)) : (q >>= f).AgreeOn A (q' >>= f') := by
  induction q generalizing q' with
  | done a =>
    cases q' with
    | done b => obtain rfl : a = b := h; exact hf a
    | ask c k => exact h.elim
  | ask c k ih =>
    obtain ⟨k', rfl, h⟩ := h
    exact ⟨_, rfl, fun v hv => ih v (h v hv)⟩

/-- Both ask the same question first. -/
theorem AgreeOn.ask {c : Cell} {k k' : Val c → Query Val α}
    (h : ∀ v, A c v → (k v).AgreeOn A (k' v)) : (Query.ask c k).AgreeOn A (Query.ask c k') :=
  ⟨k', rfl, h⟩

/-- **Against a table of such answers the results are the same.** -/
theorem AgreeOn.eval_eq (h : q.AgreeOn A q') (hs : ∀ c v, s c = some v → A c v) :
    q.eval s = q'.eval s := by
  induction q generalizing q' with
  | done a =>
    cases q' with
    | done b => obtain rfl : a = b := h; rfl
    | ask c k => exact h.elim
  | ask c k ih =>
    obtain ⟨k', rfl, h⟩ := h
    rw [eval_ask, eval_ask]
    cases hc : s c with
    | none => rfl
    | some v => exact ih v (h v (hs c v hc))

/-- `AgreeOn` as a congruence. -/
def Congr.agreeOn (A : (c : Cell) → Val c → Prop) : Congr Val := ⟨AgreeOn A, AgreeOn.refl, AgreeOn.bind⟩

end AgreeOn

end Query

/-! ## Plain values -/

section Value

variable {rule : (c : Cell) → Query Val (Val c)} {n m : ℕ} {c : Cell} {v w : Val c}

/-- The value of a cell, computed from scratch with questions nested at most `n` deep. -/
def value (rule : (c : Cell) → Query Val (Val c)) : ℕ → Table Val
  | 0 => fun _ => none
  | n + 1 => fun c => (rule c).eval (value rule n)

theorem value_sub_succ (n : ℕ) : (value rule n).Sub (value rule (n + 1)) := by
  induction n with
  | zero => intro c v h; cases h
  | succ n ih => exact fun c v h => Query.eval_mono ih h

theorem value_mono (h : n ≤ m) : (value rule n).Sub (value rule m) := by
  induction h with
  | refl => exact .refl _
  | step _ ih => exact ih.trans (value_sub_succ _)

/-- **A cell has at most one plain value**, however deep the questions may nest. -/
theorem value_unique (h : value rule n c = some v) (h' : value rule m c = some w) : v = w := by
  have e := value_mono (Nat.le_max_left n m) c v h
  have e' := value_mono (Nat.le_max_right n m) c w h'
  exact Option.some.inj (e.symm.trans e')

end Value

/-! ## What a computation gives -/

section Gives

variable {rule rule' : (c : Cell) → Query Val (Val c)} {n m : ℕ} {c d : Cell} {v w : Val c}
  {q : Query Val α} {f : α → Query Val β} {a b : α}

/-- The result of a computation when every cell it asks for is computed from scratch. -/
def Gives (rule : (c : Cell) → Query Val (Val c)) (q : Query Val α) (a : α) : Prop :=
  ∃ n, q.eval (value rule n) = some a

/-- The plain value of a cell is what its rule gives. -/
theorem gives_rule : Gives rule (rule c) v ↔ ∃ n, value rule n c = some v := by
  constructor
  · rintro ⟨n, h⟩
    exact ⟨n + 1, h⟩
  · rintro ⟨n, h⟩
    exact ⟨n, value_sub_succ n c v h⟩

@[simp] theorem gives_done : Gives rule (.done a) b ↔ a = b :=
  ⟨fun ⟨_, h⟩ => Option.some.inj h, fun h => ⟨0, congrArg some h⟩⟩

theorem gives_ask {k : Val c → Query Val α} :
    Gives rule (.ask c k) a ↔ ∃ v, Gives rule (rule c) v ∧ Gives rule (k v) a := by
  constructor
  · rintro ⟨n, h⟩
    obtain ⟨v, hv, h⟩ := Option.bind_eq_some_iff.mp h
    exact ⟨v, gives_rule.mpr ⟨n, hv⟩, n, h⟩
  · rintro ⟨v, hv, n, h⟩
    obtain ⟨m, hm⟩ := gives_rule.mp hv
    refine ⟨max m n, ?_⟩
    rw [Query.eval_ask, value_mono (Nat.le_max_left m n) c v hm]
    exact Query.eval_mono (value_mono (Nat.le_max_right m n)) h

theorem gives_bind {b : β} :
    Gives rule (q >>= f) b ↔ ∃ a, Gives rule q a ∧ Gives rule (f a) b := by
  constructor
  · rintro ⟨n, h⟩
    rw [Query.eval_bind] at h
    obtain ⟨a, ha, h⟩ := Option.bind_eq_some_iff.mp h
    exact ⟨a, ⟨n, ha⟩, n, h⟩
  · rintro ⟨a, ⟨m, hm⟩, n, h⟩
    refine ⟨max m n, ?_⟩
    rw [Query.eval_bind, Query.eval_mono (value_mono (Nat.le_max_left m n)) hm]
    exact Query.eval_mono (value_mono (Nat.le_max_right m n)) h

/-- The answers that rules can give, whatever they are told themselves. -/
def Answers (rule : (c : Cell) → Query Val (Val c)) (c : Cell) (v : Val c) : Prop :=
  ∃ t, (rule c).eval t = some v

/-- A computation that asks only for cells that have values gives a result. -/
theorem Query.Within.gives (h : q.Within (Answers rule) fun c => ∃ v, Gives rule (rule c) v) :
    ∃ a, Gives rule q a := by
  induction q with
  | done a => exact ⟨a, gives_done.mpr rfl⟩
  | ask c k ih =>
    obtain ⟨⟨v, hv⟩, h⟩ := h
    obtain ⟨n, hn⟩ := id hv
    obtain ⟨a, ha⟩ := ih v (h v ⟨_, hn⟩)
    exact ⟨a, gives_ask.mpr ⟨v, hv, ha⟩⟩

/-- **Every cell has a value** if the cells can be ranked so that every rule asks for cells of
lower rank only. -/
theorem exists_gives {rank : Cell → ℕ}
    (h : ∀ c, (rule c).Within (Answers rule) fun d => rank d < rank c) (c : Cell) :
    ∃ v, Gives rule (rule c) v := by
  induction hn : rank c using Nat.strong_induction_on generalizing c with
  | _ n ih =>
    subst hn
    exact ((h c).mono fun d hd => ih _ hd d rfl).gives

/-- A computation gives at most one result. -/
theorem Gives.unique (h : Gives rule q a) (h' : Gives rule q b) : a = b := by
  obtain ⟨n, hn⟩ := h
  obtain ⟨m, hm⟩ := h'
  have e := Query.eval_mono (value_mono (Nat.le_max_left n m)) hn
  exact Option.some.inj (e.symm.trans (Query.eval_mono (value_mono (Nat.le_max_right n m)) hm))

/-- **A cell does not depend on itself**: when only the rule of one cell is changed, what it gives
follows from the values the other cells had before. -/
theorem Gives.of_changed {w : Val d} (hr : ∀ c ≠ d, rule c = rule' c)
    (h : Gives rule' (rule' d) w) : Gives rule (rule' d) w := by
  classical
  -- at the least depth at which the rule gives something, the cell itself is not known
  obtain ⟨n, hn, hleast⟩ : ∃ n, (rule' d).eval (value rule' n) = some w ∧
      ∀ m ≤ n, value rule' m d = none := by
    have hex : ∃ n, value rule' n d ≠ none := by
      obtain ⟨n, hn⟩ := gives_rule.mp h
      exact ⟨n, by rw [hn]; exact Option.some_ne_none w⟩
    have hpos : Nat.find hex ≠ 0 := fun e => Nat.find_spec hex (by rw [e]; rfl)
    obtain ⟨n, hn⟩ := Nat.exists_eq_succ_of_ne_zero hpos
    refine ⟨n, ?_, fun m hm => not_not.mp (Nat.find_min hex (by omega))⟩
    obtain ⟨w', hw'⟩ := Option.ne_none_iff_exists'.mp (Nat.find_spec hex)
    obtain ⟨m, hm⟩ := gives_rule.mp h
    rw [hn] at hw'
    rw [value_unique hm hw']
    exact hw'
  refine ⟨n, Query.eval_mono ?_ hn⟩
  -- so up to this depth the rules in use are the unchanged ones
  have key : ∀ m ≤ n, (value rule' m).Sub (value rule m) := by
    intro m
    induction m with
    | zero => intro _ c v hv; cases hv
    | succ m ih =>
      intro hm c v hv
      have hne : c ≠ d := by
        rintro rfl
        rw [hleast _ hm] at hv
        cases hv
      show (rule c).eval (value rule m) = some v
      rw [hr c hne]
      exact Query.eval_mono (ih (by omega)) hv
  exact key n le_rfl

/-- The rules that look the answers up in a table. -/
def Table.rules (T : Table Val) (c : Cell) : Query Val (Val c) := (T c).elim (.get c) .done

theorem value_table (T : Table Val) (n : ℕ) : value T.rules (n + 1) = T := by
  have unknown : ∀ n c, T c = none → value T.rules n c = none := by
    intro n c hc
    induction n with
    | zero => rfl
    | succ n ih => simpa [value, Table.rules, hc] using ih
  funext c
  cases hc : T c with
  | none => exact unknown _ c hc
  | some v => simp [value, Table.rules, hc]

/-- **What a computation gives against a table**. -/
theorem gives_table {T : Table Val} : Gives T.rules q a ↔ q.eval T = some a := by
  constructor
  · rintro ⟨n, h⟩
    rw [← value_table T n]
    exact Query.eval_mono (value_sub_succ n) h
  · exact fun h => ⟨1, by rwa [value_table]⟩

/-- What a computation gives against values that are computed from scratch. -/
theorem Gives.of_table (h : Gives (value rule n).rules q a) : Gives rule q a := ⟨n, gives_table.mp h⟩

theorem Gives.of_table_rules (h : Gives (value rule n).rules ((value rule n).rules c) v) :
    Gives rule (rule c) v := by
  obtain ⟨m, hm⟩ := gives_rule.mp h
  have hm := value_sub_succ m c v hm
  rw [value_table] at hm
  exact gives_rule.mpr ⟨n, hm⟩

/-- A value that is known at some depth is what its rule gives against the values at that depth. -/
theorem gives_value (h : value rule n c = some v) : Gives (value rule n).rules (rule c) v := by
  cases n with
  | zero => cases h
  | succ n => exact gives_table.mpr (Query.eval_mono (value_sub_succ n) h)

/-- **If the rules give against any answers what other rules give, all values are kept.** -/
theorem value_sub_of_keeps (h : ∀ n c, Query.Keeps (value rule n) (rule c) (rule' c)) (n : ℕ) :
    (value rule n).Sub (value rule' n) := by
  induction n with
  | zero => intro c v hv; cases hv
  | succ n ih => exact fun c v hv => Query.eval_mono ih (h n c v hv)

/-- What a computation gives with the one rules, one that keeps it gives with the others. -/
theorem Gives.of_keeps {q' : Query Val α} (h : ∀ n c, Query.Keeps (value rule n) (rule c) (rule' c))
    (hq : ∀ n, Query.Keeps (value rule n) q q') (hv : Gives rule q a) : Gives rule' q' a := by
  obtain ⟨n, hn⟩ := hv
  exact ⟨n, Query.eval_mono (value_sub_of_keeps h n) (hq n a hn)⟩

end Gives

end Demand
