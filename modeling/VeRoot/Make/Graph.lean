import Mathlib.Logic.Relation
import Mathlib.Data.Nat.Init
import Mathlib.Order.Nat
import Mathlib.Data.Set.Finite.Basic

/-!
# Rules and the prerequisite graph

A makefile, once read, is a list of rules.  A rule names its targets, its normal
prerequisites and, behind the `|`, its order-only prerequisites.  Both kinds
order the build; only the normal kind can make a target out of date.

Rules with an empty target list are legal and say nothing, which is what GNU make
does with a target list that expanded to nothing.

## Main definitions

* `Rule` — one rule; a makefile is a `List (Rule ν)`.
* `Normal`, `OrderOnly`, `Prereq` — the edges a list of rules generates.
* `Dangling` — a prerequisite that no rule makes.
* `Acyclic` — no node is a prerequisite of itself.
* `Firm` — an edge which lies on no cycle, so that make cannot drop it.
* `acyclic_of_fibres`, `acyclic_of_rank` — the two ways acyclicity is proved.
-/

namespace Make

variable {ν β : Type*}

/-- One rule, `targets : normal | orderOnly`. -/
structure Rule (ν : Type*) where
  /-- The nodes the rule is about. -/
  targets : List ν
  /-- Prerequisites left of the `|`. -/
  normal : List ν := []
  /-- Prerequisites right of the `|`. -/
  orderOnly : List ν := []
  deriving DecidableEq, Repr

/-- Some rule makes `b` a normal prerequisite of `a`. -/
def Normal (G : List (Rule ν)) (a b : ν) : Prop := ∃ r ∈ G, a ∈ r.targets ∧ b ∈ r.normal

/-- Some rule makes `b` an order-only prerequisite of `a`. -/
def OrderOnly (G : List (Rule ν)) (a b : ν) : Prop := ∃ r ∈ G, a ∈ r.targets ∧ b ∈ r.orderOnly

/-- `b` is a prerequisite of `a`, of either kind. -/
def Prereq (G : List (Rule ν)) (a b : ν) : Prop := Normal G a b ∨ OrderOnly G a b

/-- Some rule has `a` among its targets, so make knows how to update `a`. -/
def IsTarget (G : List (Rule ν)) (a : ν) : Prop := ∃ r ∈ G, a ∈ r.targets

/-- Some rule asks for `b` and none says how to make it.  Unless there is a file of
that name, make stops with `No rule to make target`. -/
def Dangling (G : List (Rule ν)) (b : ν) : Prop :=
  (∃ r ∈ G, b ∈ r.normal ∨ b ∈ r.orderOnly) ∧ ¬ IsTarget G b

instance [DecidableEq ν] (G : List (Rule ν)) (a b : ν) : Decidable (Normal G a b) :=
  inferInstanceAs (Decidable (∃ r ∈ G, _))

instance [DecidableEq ν] (G : List (Rule ν)) (a b : ν) : Decidable (OrderOnly G a b) :=
  inferInstanceAs (Decidable (∃ r ∈ G, _))

instance [DecidableEq ν] (G : List (Rule ν)) (a b : ν) : Decidable (Prereq G a b) :=
  inferInstanceAs (Decidable (_ ∨ _))

instance [DecidableEq ν] (G : List (Rule ν)) (a : ν) : Decidable (IsTarget G a) :=
  inferInstanceAs (Decidable (∃ r ∈ G, _))

instance [DecidableEq ν] (G : List (Rule ν)) (b : ν) : Decidable (Dangling G b) :=
  inferInstanceAs (Decidable ((∃ r ∈ G, _) ∧ _))

/-! ## Edges of a concatenation -/

theorem normal_append {G H : List (Rule ν)} {a b : ν} :
    Normal (G ++ H) a b ↔ Normal G a b ∨ Normal H a b := by
  simp only [Normal, List.mem_append, or_and_right, exists_or]

theorem orderOnly_append {G H : List (Rule ν)} {a b : ν} :
    OrderOnly (G ++ H) a b ↔ OrderOnly G a b ∨ OrderOnly H a b := by
  simp only [OrderOnly, List.mem_append, or_and_right, exists_or]

theorem isTarget_append {G H : List (Rule ν)} {a : ν} :
    IsTarget (G ++ H) a ↔ IsTarget G a ∨ IsTarget H a := by
  simp only [IsTarget, List.mem_append, or_and_right, exists_or]

@[simp] theorem not_normal_nil {a b : ν} : ¬ Normal [] a b := by simp [Normal]
@[simp] theorem not_orderOnly_nil {a b : ν} : ¬ OrderOnly [] a b := by simp [OrderOnly]
@[simp] theorem not_isTarget_nil {a : ν} : ¬ IsTarget [] a := by simp [IsTarget]

theorem normal_cons {r : Rule ν} {G : List (Rule ν)} {a b : ν} :
    Normal (r :: G) a b ↔ (a ∈ r.targets ∧ b ∈ r.normal) ∨ Normal G a b := by
  simp [Normal]

theorem orderOnly_cons {r : Rule ν} {G : List (Rule ν)} {a b : ν} :
    OrderOnly (r :: G) a b ↔ (a ∈ r.targets ∧ b ∈ r.orderOnly) ∨ OrderOnly G a b := by
  simp [OrderOnly]

theorem isTarget_cons {r : Rule ν} {G : List (Rule ν)} {a : ν} :
    IsTarget (r :: G) a ↔ a ∈ r.targets ∨ IsTarget G a := by
  simp [IsTarget]

theorem normal_flatMap {ι : Type*} {l : List ι} {f : ι → List (Rule ν)} {a b : ν} :
    Normal (l.flatMap f) a b ↔ ∃ x ∈ l, Normal (f x) a b := by
  simp only [Normal, List.mem_flatMap]
  grind

theorem orderOnly_flatMap {ι : Type*} {l : List ι} {f : ι → List (Rule ν)} {a b : ν} :
    OrderOnly (l.flatMap f) a b ↔ ∃ x ∈ l, OrderOnly (f x) a b := by
  simp only [OrderOnly, List.mem_flatMap]
  grind

theorem normal_map {ι : Type*} {l : List ι} {f : ι → Rule ν} {a b : ν} :
    Normal (l.map f) a b ↔ ∃ x ∈ l, a ∈ (f x).targets ∧ b ∈ (f x).normal := by
  simp [Normal]

theorem orderOnly_map {ι : Type*} {l : List ι} {f : ι → Rule ν} {a b : ν} :
    OrderOnly (l.map f) a b ↔ ∃ x ∈ l, a ∈ (f x).targets ∧ b ∈ (f x).orderOnly := by
  simp [OrderOnly]

theorem isTarget_flatMap {ι : Type*} {l : List ι} {f : ι → List (Rule ν)} {a : ν} :
    IsTarget (l.flatMap f) a ↔ ∃ x ∈ l, IsTarget (f x) a := by
  simp only [IsTarget, List.mem_flatMap]
  grind

theorem isTarget_map {ι : Type*} {l : List ι} {f : ι → Rule ν} {a : ν} :
    IsTarget (l.map f) a ↔ ∃ x ∈ l, a ∈ (f x).targets := by
  simp [IsTarget]

theorem isTarget_ite {c : Prop} [Decidable c] {G H : List (Rule ν)} {a : ν} :
    IsTarget (if c then G else H) a ↔ (c ∧ IsTarget G a) ∨ (¬ c ∧ IsTarget H a) := by
  by_cases h : c <;> simp [h]

theorem normal_ite {c : Prop} [Decidable c] {G H : List (Rule ν)} {a b : ν} :
    Normal (if c then G else H) a b ↔ (c ∧ Normal G a b) ∨ (¬ c ∧ Normal H a b) := by
  by_cases h : c <;> simp [h]

theorem orderOnly_ite {c : Prop} [Decidable c] {G H : List (Rule ν)} {a b : ν} :
    OrderOnly (if c then G else H) a b ↔ (c ∧ OrderOnly G a b) ∨ (¬ c ∧ OrderOnly H a b) := by
  by_cases h : c <;> simp [h]

/-- More rules only add edges. -/
theorem Normal.mono {G H : List (Rule ν)} {a b : ν} (h : G ⊆ H) (e : Normal G a b) :
    Normal H a b := by
  obtain ⟨r, hr, hab⟩ := e
  exact ⟨r, h hr, hab⟩

theorem OrderOnly.mono {G H : List (Rule ν)} {a b : ν} (h : G ⊆ H) (e : OrderOnly G a b) :
    OrderOnly H a b := by
  obtain ⟨r, hr, hab⟩ := e
  exact ⟨r, h hr, hab⟩

theorem Prereq.mono {G H : List (Rule ν)} {a b : ν} (h : G ⊆ H) (e : Prereq G a b) :
    Prereq H a b :=
  e.imp (Normal.mono h) (OrderOnly.mono h)

theorem IsTarget.mono {G H : List (Rule ν)} {a : ν} (h : G ⊆ H) (e : IsTarget G a) :
    IsTarget H a := by
  obtain ⟨r, hr, ha⟩ := e
  exact ⟨r, h hr, ha⟩

/-- What holds of every edge can be checked rule by rule. -/
theorem forall_prereq {G : List (Rule ν)} {P : ν → ν → Prop} :
    (∀ a b, Prereq G a b → P a b) ↔
      ∀ r ∈ G, ∀ a ∈ r.targets, ∀ b ∈ r.normal ++ r.orderOnly, P a b := by
  constructor
  · intro h r hr a ha b hb
    rcases List.mem_append.mp hb with hb | hb
    · exact h a b (.inl ⟨r, hr, ha, hb⟩)
    · exact h a b (.inr ⟨r, hr, ha, hb⟩)
  · rintro h a b (⟨r, hr, ha, hb⟩ | ⟨r, hr, ha, hb⟩) <;>
      exact h r hr a ha b (by simp [hb])

/-! ## Cycles -/

/-- No node reaches itself. -/
def Acyclic (E : ν → ν → Prop) : Prop := ∀ a, ¬ Relation.TransGen E a a

/-- An edge on no cycle.  GNU make drops an edge only when it closes a cycle, so
firm edges order every build. -/
def Firm (E : ν → ν → Prop) (a b : ν) : Prop := E a b ∧ ¬ Relation.TransGen E b a

/-- The firm edges have no cycle. -/
theorem acyclic_firm (E : ν → ν → Prop) : Acyclic (Firm E) := by
  intro a h
  obtain ⟨b, e, path⟩ := Relation.TransGen.head'_iff.mp h
  rcases Relation.reflTransGen_iff_eq_or_transGen.mp path with rfl | path
  · exact e.2 (.single e.1)
  · exact e.2 (Relation.TransGen.mono (fun _ _ h => h.1) _ _ path)

/-- **Acyclicity by projection.**  Every edge either follows a relation without
cycles downstairs or stays in its fibre, and the fibres have no cycle. -/
theorem acyclic_of_fibres {E : ν → ν → Prop} (g : ν → β) (R : β → β → Prop)
    (hR : Acyclic R) (hE : ∀ a b, E a b → R (g a) (g b) ∨ g a = g b)
    (hfib : Acyclic fun a b => E a b ∧ g a = g b) : Acyclic E := by
  have split : ∀ a b, Relation.TransGen E a b → Relation.TransGen R (g a) (g b) ∨
      (g a = g b ∧ Relation.TransGen (fun a b => E a b ∧ g a = g b) a b) := by
    intro a b h
    induction h with
    | single e =>
      rcases hE _ _ e with hr | hg
      · exact .inl (.single hr)
      · exact .inr ⟨hg, .single ⟨e, hg⟩⟩
    | tail _ e ih =>
      rcases ih, hE _ _ e with ⟨ih | ⟨hg', ih⟩, hr | hg⟩
      · exact .inl (ih.tail hr)
      · exact .inl (hg ▸ ih)
      · exact .inl (hg' ▸ .single hr)
      · exact .inr ⟨hg'.trans hg, ih.tail ⟨e, hg⟩⟩
  intro a h
  rcases split a a h with h | ⟨-, h⟩
  · exact hR _ h
  · exact hfib _ h

/-- The order on ranks has no cycle. -/
theorem acyclic_gt : Acyclic (fun m n : ℕ => n < m) := by
  have lt : ∀ m n, Relation.TransGen (fun m n : ℕ => n < m) m n → n < m := by
    intro m n h
    induction h with
    | single h => exact h
    | tail _ h ih => omega
  exact fun n h => lt_irrefl n (lt n n h)

/-- **Acyclicity by rank.**  No edge raises the rank and no level has a cycle. -/
theorem acyclic_of_rank {E : ν → ν → Prop} (r : ν → ℕ)
    (hE : ∀ a b, E a b → r b < r a ∨ r a = r b)
    (hlevel : Acyclic fun a b => E a b ∧ r a = r b) : Acyclic E :=
  acyclic_of_fibres r (fun m n => n < m) acyclic_gt hE hlevel

/-- A rank that every edge lowers leaves no room for a cycle. -/
theorem acyclic_of_rank_lt {E : ν → ν → Prop} (r : ν → ℕ) (hE : ∀ a b, E a b → r b < r a) :
    Acyclic E := by
  refine acyclic_of_rank r (fun a b e => .inl (hE a b e)) fun a h => ?_
  obtain ⟨b, ⟨e, heq⟩, -⟩ := Relation.TransGen.head'_iff.mp h
  exact absurd (hE a b e) (by omega)

/-- Along a path no rank is gained. -/
theorem rank_le_of_path {E : ν → ν → Prop} {r : ν → ℕ} (hE : ∀ a b, E a b → r b ≤ r a)
    {a b : ν} (h : Relation.TransGen E a b) : r b ≤ r a := by
  induction h with
  | single e => exact hE _ _ e
  | tail _ e ih => exact (hE _ _ e).trans ih

/-- An edge that loses rank is firm, whatever cycles the levels have. -/
theorem firm_of_rank_lt {E : ν → ν → Prop} {r : ν → ℕ} (hE : ∀ a b, E a b → r b ≤ r a)
    {a b : ν} (e : E a b) (h : r b < r a) : Firm E a b :=
  ⟨e, fun back => absurd (rank_le_of_path hE back) (not_le.mpr h)⟩

/-! ## Paths -/

/-- A path that starts inside `P` and ends outside leaves it by some edge. -/
theorem exists_edge_leaving {E : ν → ν → Prop} {P : ν → Prop} {a b : ν}
    (h : Relation.ReflTransGen E a b) (ha : P a) (hb : ¬ P b) :
    ∃ c d, P c ∧ ¬ P d ∧ E c d ∧ Relation.ReflTransGen E d b := by
  induction h using Relation.ReflTransGen.head_induction_on with
  | refl => exact absurd ha hb
  | @head a c e rest ih =>
    by_cases hc : P c
    · exact ih hc
    · exact ⟨a, c, ha, hc, e, rest⟩

/-- A makefile mentions finitely many nodes, so a node has finitely many descendants. -/
theorem finite_descendants (G : List (Rule ν)) (a : ν) :
    {b | Relation.ReflTransGen (Prereq G) a b}.Finite := by
  refine ((List.finite_toSet (G.flatMap fun r => r.normal ++ r.orderOnly)).insert a).subset ?_
  intro b h
  rcases Relation.ReflTransGen.cases_tail h with rfl | ⟨c, -, e⟩
  · exact .inl rfl
  · rcases e with ⟨r, hr, -, hb⟩ | ⟨r, hr, -, hb⟩ <;>
      exact .inr (List.mem_flatMap.mpr ⟨r, hr, by simp [hb]⟩)

end Make
