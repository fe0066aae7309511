import VeRoot.Kconfig.Assign
import VeRoot.Kconfig.Cache

/-!
# Sessions

A session is a sequence of reads and assignments on one configuration, as a menu interface or a
script makes them.  Its state is the settings and the cached attributes.  The session without a
cache calculates every attribute that is read from scratch; both give the same results.

`n` bounds the nesting of calculations and of invalidations, as Python's recursion limit does.

## Main definitions

* `Op`, `Out` — what a session does, and what it sees.
* `run` — a session.
* `plainRun` — the same session without a cache.
* `run_iff_plainRun` — the main result.
-/

namespace Kconfig

open Unix Demand

/-- A step of a session. -/
inductive Op
  | read (d : Cell)
  | eval (e : Expr)
  | setValue (x : Text) (value : UserValue)
  | unsetValue (x : Text)
  | setMode (k : ℕ) (value : UserValue)
  | unsetMode (k : ℕ)

/-- What a step returns. -/
inductive Out
  | cell (d : Cell) (v : Val d)
  | tri (v : Tri)
  | accepted (b : Bool)

/-- The settings and the cached attributes. -/
structure State where
  settings : Settings
  cache : Table Val

namespace Config

variable (K : Config)

/-- A fresh configuration, with nothing cached. -/
def initial : State := ⟨.start, fun _ => none⟩

/-- The assignment that a step makes. -/
def assign (g : Settings) : Op → Option Assigned
  | .read _ | .eval _ => none
  | .setValue x value => K.setValue x value g
  | .unsetValue x => K.unsetValue x g
  | .setMode k value => K.setMode k value g
  | .unsetMode k => K.unsetMode k g

/-- Invalidate an item, if there is one to invalidate. -/
def forget (n : ℕ) (stale : Option Item) (s : Table Val) : Option (Table Val) :=
  stale.elim (some s) fun i => K.net.invalidate n i s

/-- One step. -/
def step (n : ℕ) (st : State) (op : Op) : Option (Out × State) :=
  match op with
  | .read d => (fetch (K.rule st.settings.user) n d st.cache).map fun r =>
      (.cell d r.1, { st with cache := r.2 })
  | .eval e => ((K.exprValue st.settings.user e).run (fetch (K.rule st.settings.user) n)
      st.cache).map fun r => (.tri r.1, { st with cache := r.2 })
  | op => (K.assign st.settings op).bind fun a => (K.forget n a.stale st.cache).map fun s =>
      (.accepted a.accepted, ⟨a.settings, s⟩)

/-- A session. -/
def run (n : ℕ) : List Op → State → Option (List Out × State)
  | [], st => some ([], st)
  | op :: ops, st => (K.step n st op).bind fun r => (run n ops r.2).map fun q => (r.1 :: q.1, q.2)

/-- One step without a cache. -/
def plainStep (n : ℕ) (g : Settings) (op : Op) : Option (Out × Settings) :=
  match op with
  | .read d => (value (K.rule g.user) n d).map fun v => (.cell d v, g)
  | .eval e => ((K.exprValue g.user e).eval (value (K.rule g.user) n)).map fun v => (.tri v, g)
  | op => (K.assign g op).map fun a => (.accepted a.accepted, a.settings)

/-- A session without a cache. -/
def plainRun (n : ℕ) : List Op → Settings → Option (List Out × Settings)
  | [], g => some ([], g)
  | op :: ops, g => (K.plainStep n g op).bind fun r =>
      (plainRun n ops r.2).map fun q => (r.1 :: q.1, q.2)

variable {K} {g g' : Settings} {a : Assigned} {op : Op} {ops : List Op} {o : Out}
  {outs : List Out} {st st' : State} {n m : ℕ} {s s' : Table Val} {x : Text} {sy : Symbol} {k : ℕ}
  {u u' : User}

/-! ## What an assignment changes -/

/-- What an assignment may change: the user values of items in `S`, each of which is invalidated,
depends on what is invalidated, or is a hidden symbol. -/
structure Confined (K : Config) (S : Item → Prop) (u u' : User) (stale : Option Item) : Prop where
  agree : u.AgreeOff S u'
  reached : ∀ i, S i → (∃ j ∈ stale, i = j ∨ i ∈ K.dependents j) ∨
    ∃ x sy, i = .sym x ∧ K.sym x = some sy ∧ sy.Hidden

theorem Confined.refl (K : Config) (u : User) : K.Confined (fun _ => False) u u none where
  agree := ⟨fun _ _ => rfl, fun _ _ => rfl, fun _ _ => rfl, fun _ _ => rfl⟩
  reached _ h := h.elim

/-- The settings of a symbol have changed. -/
theorem reached_sym (hs : K.sym x = some sy) (i : Item) (hi : i = .sym x) :
    (∃ j ∈ staleIfPrompt x sy, i = j ∨ i ∈ K.dependents j) ∨
      ∃ x sy, i = .sym x ∧ K.sym x = some sy ∧ sy.Hidden := by
  unfold staleIfPrompt
  split
  · next hp => exact .inr ⟨x, sy, hi, hs, fun e he => by rw [hp] at he; cases he⟩
  · exact .inl ⟨_, rfl, .inl hi⟩

theorem set_agreeOff (u : User) (x : Text) (value : UserValue) :
    u.AgreeOff (· = .sym x) (u.set x value) := by
  have hne : ∀ y, Item.sym y ≠ .sym x → y ≠ x := fun y hy e => hy (e ▸ rfl)
  cases value with
  | tri v => exact ⟨fun y hy => (Function.update_of_ne (hne y hy) ..).symm, fun _ _ => rfl,
      fun _ _ => rfl, fun _ _ => rfl⟩
  | str t => exact ⟨fun _ _ => rfl, fun y hy => (Function.update_of_ne (hne y hy) ..).symm,
      fun _ _ => rfl, fun _ _ => rfl⟩

theorem selected_set (u : User) (x : Text) (value : UserValue) :
    (u.set x value).selected = u.selected := by
  cases value <;> rfl

/-- After every assignment the user selections are symbols of their choices. -/
theorem assign_selects (hK : K.Consistent) (hu : K.Selects g.user) (h : K.assign g op = some a) :
    K.Selects a.settings.user := by
  cases op with
  | read d => cases h
  | eval e => cases h
  | setValue x value =>
    obtain rfl := Option.some.inj h
    unfold setValue
    cases hs : K.sym x with
    | none => exact hu
    | some sy =>
      have hset : K.Selects (g.user.set x (value.ofType sy.origType)) := fun l y hy =>
        hu l y (by rwa [← selected_set g.user x])
      dsimp only
      split
      · exact hu
      · split
        · exact hu
        · split
          · next _ k hk hv =>
            intro l y hy
            rcases eq_or_ne l k with rfl | hl
            · obtain rfl : x = y := by simpa [User.select] using hy
              exact hK.choice_mem hs hk
            · exact hset l y (by simpa [User.select, Function.update_of_ne hl] using hy)
          · exact hset
  | unsetValue x =>
    obtain rfl := Option.some.inj h
    unfold unsetValue
    split
    · exact hu
    · split <;> exact hu
  | setMode k value =>
    obtain rfl := Option.some.inj h
    unfold setMode
    split
    · split
      · exact hu
      · split <;> exact hu
    · exact hu
  | unsetMode k =>
    obtain rfl := Option.some.inj h
    unfold unsetMode
    split
    · exact hu
    · split
      · exact hu
      · intro l y hy
        rcases eq_or_ne l k with rfl | hl
        · simp [User.unsetChoice] at hy
        · exact hu l y (by simpa [User.unsetChoice, Function.update_of_ne hl] using hy)

/-- **Every assignment is confined** to what it invalidates. -/
theorem assign_confined (hK : K.WellFormed) (h : K.assign g op = some a) :
    ∃ S, K.Confined S g.user a.settings.user a.stale := by
  have hsym : ∀ y x : Text, Item.sym y ≠ .sym x → y ≠ x := fun y x hy e => hy (e ▸ rfl)
  have hchoice : ∀ l k : ℕ, Item.choice l ≠ .choice k → l ≠ k := fun l k hl e => hl (e ▸ rfl)
  cases op with
  | read d => cases h
  | eval e => cases h
  | setValue x value =>
    obtain rfl := Option.some.inj h
    unfold setValue
    cases hs : K.sym x with
    | none => exact ⟨_, .refl K _⟩
    | some sy =>
      dsimp only
      split
      · exact ⟨_, .refl K _⟩
      · split
        · exact ⟨_, .refl K _⟩
        · split
          · next _ k hk hv =>
            rw [hv]
            refine ⟨fun i => i = .sym x ∨ i = .choice k, ⟨?_, ?_⟩⟩
            · have hx := set_agreeOff g.user x (.tri .y)
              refine ⟨fun y hy => hx.tri y fun e => hy (.inl e),
                fun y hy => hx.str y fun e => hy (.inl e), fun _ _ => rfl, fun l hl => ?_⟩
              exact (Function.update_of_ne (hchoice l k fun e => hl (.inr e)) ..).symm
            · rintro i (rfl | rfl)
              · rcases hK.mem_dependents hs hk with hmem | ⟨hidden, -⟩
                · exact .inl ⟨_, rfl, .inr hmem⟩
                · exact .inr ⟨x, sy, rfl, hs, hidden⟩
              · exact .inl ⟨_, rfl, .inl rfl⟩
          · exact ⟨_, set_agreeOff g.user x _, reached_sym hs⟩
  | unsetValue x =>
    obtain rfl := Option.some.inj h
    unfold unsetValue
    cases hs : K.sym x with
    | none => exact ⟨_, .refl K _⟩
    | some sy =>
      dsimp only
      split
      · exact ⟨_, .refl K _⟩
      · refine ⟨_, ⟨fun y hy => ?_, fun y hy => ?_, fun _ _ => rfl, fun _ _ => rfl⟩, reached_sym hs⟩
        · exact (Function.update_of_ne (hsym y x hy) ..).symm
        · exact (Function.update_of_ne (hsym y x hy) ..).symm
  | setMode k value =>
    obtain rfl := Option.some.inj h
    unfold setMode
    split
    · split
      · exact ⟨_, .refl K _⟩
      · split
        · exact ⟨_, .refl K _⟩
        · refine ⟨(· = .choice k), ⟨fun _ _ => rfl, fun _ _ => rfl, fun l hl => ?_, fun _ _ => rfl⟩,
            fun i hi => .inl ⟨_, rfl, .inl hi⟩⟩
          exact (Function.update_of_ne (hchoice l k hl) ..).symm
    · exact ⟨_, .refl K _⟩
  | unsetMode k =>
    obtain rfl := Option.some.inj h
    unfold unsetMode
    split
    · exact ⟨_, .refl K _⟩
    · split
      · exact ⟨_, .refl K _⟩
      · refine ⟨(· = .choice k), ⟨fun _ _ => rfl, fun _ _ => rfl, fun l hl => ?_, fun l hl => ?_⟩,
          fun i hi => .inl ⟨_, rfl, .inl hi⟩⟩
        · exact (Function.update_of_ne (hchoice l k hl) ..).symm
        · exact (Function.update_of_ne (hchoice l k hl) ..).symm

/-- What is left in the cache is supported under the new settings. -/
theorem Confined.supported {S : Item → Prop} {stale : Option Item} (hK : K.WellFormed)
    (hu : K.Selects u) (h : K.Confined S u u' stale) (hs : Supported (K.rule u) s)
    (hf : K.forget n stale s = some s') : Supported (K.rule u') s' := by
  have hN := covers hK hu
  -- the cache is swept, and the item and its dependents have no visibility any more
  have hswept : K.net.Swept s s' ∧ ∀ j ∈ stale, ∀ i, i = j ∨ i ∈ K.dependents j →
      s' (.vis i) = none := by
    cases stale with
    | none =>
      obtain rfl := Option.some.inj hf
      exact ⟨.refl _ _, fun j hj => by cases hj⟩
    | some j =>
      obtain ⟨hsw, hself, hdeps⟩ := Net.invalidate_swept hf
      refine ⟨hsw, fun j' hj' i hi => ?_⟩
      obtain rfl := Option.some.inj hj'
      rcases hi with rfl | hi
      · exact hself _ rfl
      · exact hdeps i hi
  obtain ⟨hsw, hgone⟩ := hswept
  have hs' : Supported (K.rule u) s' := hs.sweep hN hsw fun c v t _ _ e => e
  refine hs.sweep hN hsw fun d v t _ ht e => ?_
  rw [← (rule_agreeOn h.agree d).eval_eq]
  · exact e
  · intro d' v' hd'
    have hd' := ht d' v' hd'
    cases d' with
    | vis i =>
      intro hi
      rcases h.reached i hi with ⟨j, hj, hij⟩ | ⟨x, sy, rfl, hx, hidden⟩
      · rw [hgone j hj i hij] at hd'
        cases hd'
      · exact (yields_visibility hx hidden).of_eval (hs'.eval_eq hd')
    | _ => trivial

/-! ## Sessions -/

/-- The cache is supported, and the user selections are symbols of their choices. -/
structure Sound (K : Config) (st : State) : Prop where
  selects : K.Selects st.settings.user
  supported : Supported (K.rule st.settings.user) st.cache

theorem sound_initial (K : Config) : K.Sound initial where
  selects _ _ h := by cases h
  supported := supported_empty

/-- A step that assigns. -/
theorem step_of_assign (h : K.assign st.settings op = some a) :
    K.step n st op = (K.forget n a.stale st.cache).map fun s =>
      (.accepted a.accepted, ⟨a.settings, s⟩) := by
  cases op with
  | read d => cases h
  | eval e => cases h
  | _ => simp only [step, h, Option.bind_some]

/-- **A step keeps the state sound**, and does what the step without a cache does. -/
theorem step_sound (hK : K.WellFormed) (h : K.Sound st) (e : K.step n st op = some (o, st')) :
    K.Sound st' ∧ ∃ m, K.plainStep m st.settings op = some (o, st'.settings) := by
  have assigned : ∀ a s', K.assign st.settings op = some a → K.forget n a.stale st.cache = some s' →
      K.Sound ⟨a.settings, s'⟩ := by
    intro a s' ha hs'
    obtain ⟨S, hS⟩ := assign_confined hK ha
    exact ⟨assign_selects hK.toConsistent h.selects ha, hS.supported hK h.selects h.supported hs'⟩
  cases op with
  | read d =>
    obtain ⟨⟨v, s⟩, hv, e⟩ := Option.map_eq_some_iff.mp e
    obtain ⟨rfl, rfl⟩ := Prod.mk.inj e
    obtain ⟨m, hm⟩ := fetch_eq_value h.supported hv
    exact ⟨⟨h.selects, (fetch_supported h.supported hv).1⟩, m, by rw [plainStep, hm]; rfl⟩
  | eval e' =>
    obtain ⟨⟨v, s⟩, hv, e⟩ := Option.map_eq_some_iff.mp e
    obtain ⟨rfl, rfl⟩ := Prod.mk.inj e
    obtain ⟨hs, -, he⟩ := Query.run_supported (fun c s v s' => fetch_supported) h.supported hv
    obtain ⟨m, hm⟩ := hs.eval_value he
    exact ⟨⟨h.selects, hs⟩, m, by rw [plainStep, hm]; rfl⟩
  | _ =>
    rw [step_of_assign rfl] at e
    obtain ⟨s', hs', e⟩ := Option.map_eq_some_iff.mp e
    obtain ⟨rfl, rfl⟩ := Prod.mk.inj e
    exact ⟨assigned _ s' rfl hs', 0, rfl⟩

/-- A deeper nesting does no harm. -/
theorem plainStep_mono {r : Out × Settings} (hnm : n ≤ m) (h : K.plainStep n g op = some r) :
    K.plainStep m g op = some r := by
  cases op with
  | read d =>
    obtain ⟨v, hv, rfl⟩ := Option.map_eq_some_iff.mp h
    rw [plainStep, value_mono hnm d v hv]
    rfl
  | eval e =>
    obtain ⟨v, hv, rfl⟩ := Option.map_eq_some_iff.mp h
    rw [plainStep, Query.eval_mono (value_mono hnm) hv]
    rfl
  | _ => exact h

theorem plainRun_mono {r : List Out × Settings} (hnm : n ≤ m) (h : K.plainRun n ops g = some r) :
    K.plainRun m ops g = some r := by
  induction ops generalizing g r with
  | nil => exact h
  | cons op ops ih =>
    obtain ⟨q, hq, h⟩ := Option.bind_eq_some_iff.mp h
    obtain ⟨p, hp, rfl⟩ := Option.map_eq_some_iff.mp h
    rw [plainRun, plainStep_mono hnm hq, Option.bind_some, ih hp]
    rfl

theorem run_sound (hK : K.WellFormed) (h : K.Sound st)
    (e : K.run n ops st = some (outs, st')) :
    K.Sound st' ∧ ∃ m, K.plainRun m ops st.settings = some (outs, st'.settings) := by
  induction ops generalizing st outs with
  | nil =>
    obtain ⟨rfl, rfl⟩ := Prod.mk.inj (Option.some.inj e)
    exact ⟨h, 0, rfl⟩
  | cons op ops ih =>
    obtain ⟨⟨o, st₁⟩, hstep, e⟩ := Option.bind_eq_some_iff.mp e
    obtain ⟨⟨outs₁, st₂⟩, hrun, e⟩ := Option.map_eq_some_iff.mp e
    obtain ⟨rfl, rfl⟩ := Prod.mk.inj e
    obtain ⟨h₁, m, hm⟩ := step_sound hK h hstep
    obtain ⟨h₂, m', hm'⟩ := ih h₁ hrun
    refine ⟨h₂, max m m', ?_⟩
    rw [plainRun, plainStep_mono (Nat.le_max_left m m') hm, Option.bind_some,
      plainRun_mono (Nat.le_max_right m m') hm']
    rfl

/-! ## Every session without a cache can be had with one -/

/-- All symbols and choices. -/
def items (K : Config) : List Item :=
  K.symbols.map (.sym ·.1) ++ (List.range K.choices.length).map .choice

theorem mem_items_of_mem_dependents {i j : Item} (h : j ∈ K.dependents i) : j ∈ K.items := by
  have h := mem_dependents.mp h
  unfold buildDep addChoiceDeps at h
  simp only [List.mem_append, List.mem_flatMap, List.mem_map, Prod.mk.injEq] at h
  have choice : ∀ p ∈ K.choices.zipIdx, Item.choice p.2 ∈ K.items := by
    intro p hp
    obtain ⟨c, k⟩ := p
    have hk := List.mk_mem_zipIdx_iff_getElem?.mp hp
    have hlt : k < K.choices.length := (List.getElem?_eq_some_iff.mp hk).1
    exact List.mem_append_right _ (List.mem_map_of_mem (List.mem_range.mpr hlt))
  rcases h with (⟨p, hp, _, -, -, rfl⟩ | ⟨p, hp, _, -, -, rfl⟩) | ⟨p, hp, _, -, -, rfl⟩
  · exact List.mem_append_left _ (List.mem_map_of_mem hp)
  · exact choice p hp
  · exact choice p hp

theorem mem_items_sym (hs : K.sym x = some sy) : .sym x ∈ K.items := by
  obtain ⟨l, r, hl, -⟩ := List.lookup_eq_some_iff.mp hs
  exact List.mem_append_left _ (List.mem_map.mpr ⟨(x, sy), by rw [hl]; simp, rfl⟩)

theorem mem_items_choice {c : Choice} (hc : K.choices[k]? = some c) : .choice k ∈ K.items :=
  List.mem_append_right _
    (List.mem_map_of_mem (List.mem_range.mpr (List.getElem?_eq_some_iff.mp hc).1))

/-- What an assignment invalidates is a symbol or a choice of the configuration. -/
theorem mem_items_of_stale (hK : K.WellFormed) {i : Item} (h : K.assign g op = some a)
    (hi : i ∈ a.stale) : i ∈ K.items := by
  have prompt : ∀ {x sy}, K.sym x = some sy → i ∈ staleIfPrompt x sy → i ∈ K.items := by
    intro x sy hs hi
    unfold staleIfPrompt at hi
    split at hi
    · cases hi
    · obtain rfl := Option.some.inj hi
      exact mem_items_sym hs
  cases op with
  | read d => cases h
  | eval e => cases h
  | setValue x value =>
    obtain rfl := Option.some.inj h
    unfold setValue at hi
    cases hs : K.sym x with
    | none => rw [hs] at hi; cases hi
    | some sy =>
      rw [hs] at hi
      dsimp only at hi
      split at hi
      · cases hi
      · split at hi
        · cases hi
        · split at hi
          · next _ k hk _ =>
            obtain rfl := Option.some.inj hi
            obtain ⟨c, hc, -⟩ := hK.choice_mem hs hk
            exact mem_items_choice hc
          · exact prompt hs hi
  | unsetValue x =>
    obtain rfl := Option.some.inj h
    unfold unsetValue at hi
    cases hs : K.sym x with
    | none => rw [hs] at hi; cases hi
    | some sy =>
      rw [hs] at hi
      dsimp only at hi
      split at hi
      · cases hi
      · exact prompt hs hi
  | setMode k value =>
    obtain rfl := Option.some.inj h
    unfold setMode at hi
    split at hi
    · next c v hc _ =>
      split at hi
      · cases hi
      · split at hi
        · cases hi
        · obtain rfl := Option.some.inj hi
          exact mem_items_choice hc
    · cases hi
  | unsetMode k =>
    obtain rfl := Option.some.inj h
    unfold unsetMode at hi
    split at hi
    · cases hi
    · next c hc =>
      split at hi
      · cases hi
      · obtain rfl := Option.some.inj hi
        exact mem_items_choice hc

theorem exists_forget (hK : K.WellFormed) (hn : K.items.length < n) (h : K.assign g op = some a)
    (s : Table Val) : ∃ s', K.forget n a.stale s = some s' := by
  cases hi : a.stale with
  | none => exact ⟨s, rfl⟩
  | some i =>
    refine Net.exists_invalidate (U := K.items)
      (fun y _ z hz => mem_items_of_mem_dependents hz) (mem_items_of_stale hK h hi) ?_
    exact lt_of_le_of_lt List.countP_le_length hn

/-- **What a step does without a cache, it does with one.** -/
theorem exists_step (hK : K.WellFormed) (hn : K.items.length < n) (h : K.Sound st)
    (e : K.plainStep n st.settings op = some (o, g')) :
    ∃ s, K.step n st op = some (o, ⟨g', s⟩) := by
  have assigned : ∀ a, K.assign st.settings op = some a →
      (Out.accepted a.accepted, a.settings) = (o, g') →
      ∃ s, K.step n st op = some (o, ⟨g', s⟩) := by
    intro a ha e
    obtain ⟨rfl, rfl⟩ := Prod.mk.inj e
    obtain ⟨s, hs⟩ := exists_forget hK hn ha st.cache
    exact ⟨s, by rw [step_of_assign ha, hs]; rfl⟩
  cases op with
  | read d =>
    obtain ⟨v, hv, e⟩ := Option.map_eq_some_iff.mp e
    obtain ⟨rfl, rfl⟩ := Prod.mk.inj e
    obtain ⟨s, hs⟩ := fetch_of_value h.supported hv
    exact ⟨s, by rw [step, hs]; rfl⟩
  | eval e' =>
    obtain ⟨v, hv, e⟩ := Option.map_eq_some_iff.mp e
    obtain ⟨rfl, rfl⟩ := Prod.mk.inj e
    obtain ⟨s, hs⟩ := Query.run_of_eval (fun c s v s' => fetch_supported)
      (fun c s v => fetch_of_value) h.supported hv
    exact ⟨s, by rw [step, hs]; rfl⟩
  | _ => exact assigned _ rfl (Option.some.inj e)

theorem exists_run (hK : K.WellFormed) (hn : K.items.length < n) (h : K.Sound st)
    (e : K.plainRun n ops st.settings = some (outs, g')) :
    ∃ s, K.run n ops st = some (outs, ⟨g', s⟩) := by
  induction ops generalizing st outs with
  | nil =>
    obtain ⟨rfl, rfl⟩ := Prod.mk.inj (Option.some.inj e)
    exact ⟨st.cache, rfl⟩
  | cons op ops ih =>
    obtain ⟨⟨o, g₁⟩, hstep, e⟩ := Option.bind_eq_some_iff.mp e
    obtain ⟨⟨outs₁, g₂⟩, hrun, e⟩ := Option.map_eq_some_iff.mp e
    obtain ⟨rfl, rfl⟩ := Prod.mk.inj e
    obtain ⟨s₁, hs₁⟩ := exists_step hK hn h hstep
    obtain ⟨s₂, hs₂⟩ := ih (step_sound hK h hs₁).1 hrun
    exact ⟨s₂, by rw [run, hs₁, Option.bind_some, hs₂]; rfl⟩

/-- **A session sees the same values with a cache as without one.**  Whatever is read, set, unset
and read again, in whatever order: no cached value is ever stale. -/
theorem run_iff_plainRun (hK : K.WellFormed) (ops : List Op) (outs : List Out) (g : Settings) :
    (∃ n s, K.run n ops initial = some (outs, ⟨g, s⟩)) ↔
      ∃ n, K.plainRun n ops .start = some (outs, g) := by
  constructor
  · rintro ⟨n, s, h⟩
    exact (run_sound hK (sound_initial K) h).2
  · rintro ⟨n, h⟩
    obtain ⟨s, hs⟩ := exists_run hK (Nat.lt_succ_of_le (Nat.le_max_left _ n))
      (sound_initial K) (plainRun_mono (Nat.le_succ_of_le (Nat.le_max_right K.items.length n)) h)
    exact ⟨_, s, hs⟩

/-- A symbol, one that depends on it, and a choice of two symbols. -/
def sample : Config where
  symbols :=
    [("NET".toList, ⟨.bool, [.tri .y], [], [], .tri .n, .tri .n, .tri .y, none, none⟩),
      ("WIFI".toList, ⟨.bool, [.atom (.sym "NET".toList)], [(.tri .y, .atom (.sym "NET".toList))], [],
        .tri .n, .tri .n, .atom (.sym "NET".toList), none, none⟩),
      ("GZIP".toList, ⟨.bool, [.choice 0], [], [], .tri .n, .tri .n, .choice 0, some 0, none⟩),
      ("LZMA".toList, ⟨.bool, [.choice 0], [], [], .tri .n, .tri .n, .choice 0, some 0, none⟩)]
  choices := [⟨.bool, [.tri .y], ["GZIP".toList, "LZMA".toList], [], false⟩]
  defconfigList := none

theorem wellFormed_sample : sample.WellFormed := by
  have cases : ∀ {x s k}, sample.sym x = some s → s.choice = some k →
      k = 0 ∧ x ∈ ["GZIP".toList, "LZMA".toList] ∧ .choice 0 ∈ s.prompts := by
    intro x s k hs hk
    obtain ⟨l, r, hl, -⟩ := List.lookup_eq_some_iff.mp hs
    have hmem : (x, s) ∈ sample.symbols := by rw [hl]; simp
    simp only [sample, List.mem_cons, Prod.mk.injEq, List.not_mem_nil, or_false] at hmem
    rcases hmem with ⟨-, rfl⟩ | ⟨-, rfl⟩ | ⟨rfl, rfl⟩ | ⟨rfl, rfl⟩
    · cases hk
    · cases hk
    · exact ⟨(Option.some.inj hk).symm, by decide, by decide⟩
    · exact ⟨(Option.some.inj hk).symm, by decide, by decide⟩
  refine ⟨⟨fun hs hk => ?_, fun hc ha => ?_⟩, fun hs hk => ?_⟩
  · obtain ⟨rfl, hx, -⟩ := cases hs hk
    exact ⟨_, rfl, hx⟩
  · have hmem := List.mem_of_getElem? hc
    simp only [sample, List.mem_singleton] at hmem
    obtain rfl := hmem
    cases ha
  · obtain ⟨rfl, -, he⟩ := cases hs hk
    exact .inl ⟨.choice 0, mem_exprs_prompt he, List.mem_cons_self⟩

/-- `WIFI` follows `NET` when that is set and unset, although it has been read before. -/
theorem run_sample : ∃ g n s, sample.run n [.setValue "NET".toList (.tri .y),
      .read (.tri "WIFI".toList), .setValue "LZMA".toList (.str ['y']), .read (.selection 0),
      .setValue "NET".toList (.str ['n']), .read (.tri "WIFI".toList)] initial =
    some ([.accepted true, .cell (.tri "WIFI".toList) (.y, true), .accepted true,
      .cell (.selection 0) (some "LZMA".toList), .accepted true,
      .cell (.tri "WIFI".toList) (.n, false)], ⟨g, s⟩) :=
  ⟨_, (run_iff_plainRun wellFormed_sample _ _ _).mpr ⟨6, rfl⟩⟩

end Config

end Kconfig
