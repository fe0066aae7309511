import VeRoot.Kconfig.Written

/-!
# What is loaded

Reading a file back sets each symbol to what its line says, and each choice to the mode that its symbols
show.  What the file does not mention is unset.

## Main definitions

* `triEntry`, `strEntry` — the user value that the line of a symbol makes.
* `Shows` — a symbol of a choice that shows the mode.
* `Loads` — what reading the lines of some symbols changes.
* `Restores`, `loadConfig_restores` — the user values after loading.
-/

namespace Kconfig

open Unix Demand

namespace Config

/-- The tristate value in the line of a symbol. -/
def triEntry (K : Config) (T : Table Val) (x : Text) : Option Tri :=
  match K.sym x, T (.str x) with
  | some s, some (v, true) => if s.origType.isBoolTristate then strToTri v else none
  | _, _ => none

/-- The text in the line of a symbol, if it is accepted. -/
def strEntry (K : Config) (T : Table Val) (x : Text) : Option Text :=
  match K.sym x, T (.str x) with
  | some s, some (v, true) =>
    if s.origType.isBoolTristate = false ∧ UserValue.valid s.origType (.str v) then some v else none
  | _, _ => none

/-- A symbol of a choice that is not `n` in the file. -/
def Shows (K : Config) (T : Table Val) (k : ℕ) (x : Text) (t : Tri) : Prop :=
  ∃ s, K.sym x = some s ∧ s.choice = some k ∧ K.triEntry T x = some t ∧ t ≠ .n

/-- User values have the form that the type asks for. -/
def ValidTexts (K : Config) (u : User) : Prop :=
  ∀ x s t, K.sym x = some s → u.str x = some t → UserValue.valid s.origType (.str t)

/-- What holds of the values when a file is read back: the types of the choices allow the values of
their symbols, and the symbols of a choice agree on its mode. -/
structure Readable (K : Config) (T : Table Val) : Prop where
  value : ∀ x s v, K.sym x = some s → T (.str x) = some (v, true) → PlainValue s.origType v
  allowed : ∀ k x t, K.Shows T k x t → ∃ c, K.choices[k]? = some c ∧ UserValue.valid c.origType (.tri t)
  agree : ∀ k x x' t t', K.Shows T k x t → K.Shows T k x' t' → t = t' ∧ (t = .y → x = x')

variable {K : Config} {T : Table Val} {g g' : Settings} {x : Text} {s : Symbol} {t : Tri} {v : Text}
  {k : ℕ} {c : Choice} {xs : List Text}

/-! ## One line -/

/-- The settings after a line about a bool or tristate symbol. -/
def setTri (x : Text) (choice : Option ℕ) (t : Tri) (g : Settings) : Settings where
  user :=
    { tri := Function.update g.user.tri x (some t)
      str := g.user.str
      mode := match choice with
        | some k => if t = .n then g.user.mode else Function.update g.user.mode k (some t)
        | none => g.user.mode
      selected := match choice with
        | some k => if t = .y then Function.update g.user.selected k (some x) else g.user.selected
        | none => g.user.selected }
  wasSet := Function.update g.wasSet x true
  choiceWasSet := match choice with
    | some k => if t = .n then g.choiceWasSet else Function.update g.choiceWasSet k true
    | none => g.choiceWasSet

theorem triToStr_eq (t : Tri) : ∃ c, triToStr t = [c] ∧ strToTri [c] = some t ∧ (c = 'n' ↔ t = .n) := by
  cases t <;> exact ⟨_, rfl, rfl, by decide⟩

theorem valid_tri {ty : SymType} (ht : ty.isBoolTristate) (hb : ty = .bool → t ≠ .m) :
    UserValue.valid ty (.tri t) = true := by
  cases ty with
  | bool => exact decide_eq_true (hb rfl)
  | tristate => rfl
  | _ => cases ht

theorem apply_setMode (hc : K.choices[k]? = some c) (hv : UserValue.valid c.origType (.tri t)) :
    K.apply g (.setMode k (.str (triToStr t))) =
      { g.markChoice k with user := { g.user with mode := Function.update g.user.mode k (some t) } } := by
  have hval : UserValue.ofType .tristate (.str (triToStr t)) = .tri t := by cases t <;> rfl
  simp only [apply, assign, Option.elim_some, setMode, hc, hval]
  split
  · next h =>
    have h' : Function.update g.user.mode k (some t) = g.user.mode := by
      rw [← h, Function.update_eq_self]
    rw [h']
    rfl
  · rw [if_neg (by rw [hv]; decide)]

theorem apply_setValue (hs : K.sym x = some s) (ht : s.origType.isBoolTristate)
    (hb : s.origType = .bool → t ≠ .m) : K.apply g (.setValue x (.str (triToStr t))) =
      { g with
        user := { g.user with
          tri := Function.update g.user.tri x (some t)
          selected := match s.choice with
            | some k => if t = .y then Function.update g.user.selected k (some x) else g.user.selected
            | none => g.user.selected }
        wasSet := Function.update g.wasSet x true
        choiceWasSet := match s.choice with
          | some k => if t = .y then Function.update g.choiceWasSet k true else g.choiceWasSet
          | none => g.choiceWasSet } := by
  have hval : UserValue.ofType s.origType (.str (triToStr t)) = .tri t := by
    simp only [UserValue.ofType, ht, if_true, strToTri_triToStr, Option.elim_some]
  simp only [apply, assign, Option.elim_some, setValue, hs, hval]
  split
  · next h =>
    obtain ⟨h, hch⟩ := h
    have h' : Function.update g.user.tri x (some t) = g.user.tri := by
      rw [← of_decide_eq_true h, Function.update_eq_self]
    rw [h', hch]
    rfl
  · rw [if_neg (by rw [valid_tri ht hb]; decide)]
    split
    · next k hk e =>
      obtain rfl := UserValue.tri.inj e
      rw [hk]
      rfl
    · next hne =>
      cases hk : s.choice with
      | none => rfl
      | some k =>
        have hy : t ≠ .y := by
          rintro rfl
          exact hne k hk rfl
        simp only [if_neg hy]
        rfl

/-- The line of a bool or tristate symbol. -/
theorem foldl_valueOps_tri (hs : K.sym x = some s) (ht : s.origType.isBoolTristate)
    (hb : s.origType = .bool → t ≠ .m)
    (hc : ∀ k, s.choice = some k → t ≠ .n →
      ∃ c, K.choices[k]? = some c ∧ UserValue.valid c.origType (.tri t)) :
    (valueOps x s (triToStr t)).foldl K.apply g = setTri x s.choice t g := by
  obtain ⟨c, hstr, hacc⟩ := acceptsFirst_triToStr ht hb
  obtain ⟨c', hstr', -, hn⟩ := triToStr_eq t
  obtain rfl : c' = c := List.singleton_inj.mp (hstr'.symm.trans hstr)
  rw [valueOps, if_pos ht, hstr, assignOps, if_pos ht]
  rw [if_pos hacc, ← hstr]
  cases hk : s.choice with
  | none =>
    dsimp only
    rw [List.foldl_cons, List.foldl_nil, apply_setValue hs ht hb, hk]
    rfl
  | some k =>
    dsimp only
    by_cases hz : t = .n
    · rw [if_neg (not_not.mpr (hn.mpr hz))]
      rw [List.foldl_cons, List.foldl_nil, apply_setValue hs ht hb, hk, hz]
      rfl
    · rw [if_pos fun e => hz (hn.mp e)]
      obtain ⟨c, hc, hv⟩ := hc k hk hz
      rw [List.foldl_cons, List.foldl_cons, List.foldl_nil, apply_setMode hc hv,
        apply_setValue hs ht hb, hk]
      unfold setTri
      simp only [if_neg hz, Settings.markChoice]
      by_cases hy : t = .y
      · simp only [if_pos hy, Function.update_idem]
      · simp only [if_neg hy]

/-- The line of any other symbol. -/
theorem foldl_valueOps_str (hs : K.sym x = some s) (ht : s.origType.isBoolTristate = false)
    (hg : K.ValidTexts g.user) : (valueOps x s v).foldl K.apply g =
      if UserValue.valid s.origType (.str v) then
        { g.mark x with user := { g.user with str := Function.update g.user.str x (some v) } }
      else g := by
  have hval : UserValue.ofType s.origType (.str v) = .str v := by
    simp only [UserValue.ofType, ht, Bool.false_eq_true, if_false]
  rw [valueOps, if_neg (by rw [ht]; decide), List.foldl_cons, List.foldl_nil]
  simp only [apply, assign, Option.elim_some, setValue, hs, hval]
  split
  · next h =>
    obtain ⟨h, -⟩ := h
    have h := of_decide_eq_true h
    have h' : Function.update g.user.str x (some v) = g.user.str := by
      rw [← h, Function.update_eq_self]
    rw [if_pos (hg x s v hs h), h']
    rfl
  · cases hv : UserValue.valid s.origType (.str v) with
    | false => rfl
    | true =>
      simp only [Bool.true_eq_false, if_false, if_true]
      split
      · next e => cases e
      · rfl

/-! ## All lines -/

/-- What reading the lines of some symbols changes. -/
structure Loads (K : Config) (T : Table Val) (xs : List Text) (g g' : Settings) : Prop where
  tri : ∀ x, g'.user.tri x = (if x ∈ xs then K.triEntry T x else none).or (g.user.tri x)
  str : ∀ x, g'.user.str x = (if x ∈ xs then K.strEntry T x else none).or (g.user.str x)
  wasSet : ∀ x, g'.wasSet x = true ↔
    g.wasSet x = true ∨ x ∈ xs ∧ (K.triEntry T x ≠ none ∨ K.strEntry T x ≠ none)
  shows : ∀ k x t, x ∈ xs → K.Shows T k x t →
    g'.user.mode k = some t ∧ g'.choiceWasSet k = true ∧ (t = .y → g'.user.selected k = some x)
  rest : ∀ k, (∀ x ∈ xs, ∀ t, ¬ K.Shows T k x t) → g'.user.mode k = g.user.mode k ∧
    g'.user.selected k = g.user.selected k ∧ g'.choiceWasSet k = g.choiceWasSet k
  valid : K.ValidTexts g'.user

variable {ys : List Text} {g₁ : Settings}

/-- A line that is not there. -/
theorem loads_idle (hg : K.ValidTexts g.user) (ht : ∀ x ∈ xs, K.triEntry T x = none)
    (hs : ∀ x ∈ xs, K.strEntry T x = none) : K.Loads T xs g g where
  tri x := by
    split
    · next hx => rw [ht x hx]; rfl
    · rfl
  str x := by
    split
    · next hx => rw [hs x hx]; rfl
    · rfl
  wasSet x := ⟨.inl, fun h => h.elim id fun ⟨hx, h⟩ =>
    absurd h (by rw [ht x hx, hs x hx]; simp)⟩
  shows k x t hx := by
    rintro ⟨s, -, -, h, -⟩
    rw [ht x hx] at h
    cases h
  rest k _ := ⟨rfl, rfl, rfl⟩
  valid := hg

theorem Loads.trans (hT : K.Readable T) (h : K.Loads T xs g g₁) (h' : K.Loads T ys g₁ g')
    (hd : ∀ x ∈ xs, x ∉ ys) : K.Loads T (xs ++ ys) g g' where
  tri x := by
    rw [h'.tri, h.tri]
    by_cases hx : x ∈ xs
    · rw [if_neg (hd x hx), if_pos hx, if_pos (List.mem_append_left _ hx)]
      rfl
    · by_cases hy : x ∈ ys <;> simp [hx, hy]
  str x := by
    rw [h'.str, h.str]
    by_cases hx : x ∈ xs
    · rw [if_neg (hd x hx), if_pos hx, if_pos (List.mem_append_left _ hx)]
      rfl
    · by_cases hy : x ∈ ys <;> simp [hx, hy]
  wasSet x := by
    rw [h'.wasSet, h.wasSet, List.mem_append]
    tauto
  shows k x t hx hsh := by
    by_cases hy : ∃ y ∈ ys, ∃ t', K.Shows T k y t'
    · -- the last symbol that shows the mode is among the later ones
      obtain ⟨y, hy, t', hsh'⟩ := hy
      obtain ⟨rfl, heq⟩ := hT.agree k x y t t' hsh hsh'
      obtain ⟨hm, hw, hsel⟩ := h'.shows k y t hy hsh'
      exact ⟨hm, hw, fun e => by rw [heq e, hsel e]⟩
    · have hno : ∀ y ∈ ys, ∀ t', ¬ K.Shows T k y t' := fun y hy' t' hsh' => hy ⟨y, hy', t', hsh'⟩
      obtain ⟨hm, hsel, hw⟩ := h'.rest k hno
      rw [hm, hsel, hw]
      rcases List.mem_append.mp hx with hx | hx
      · exact h.shows k x t hx hsh
      · exact absurd hsh (hno x hx t)
  rest k hno := by
    obtain ⟨hm, hsel, hw⟩ := h.rest k fun x hx => hno x (List.mem_append_left _ hx)
    obtain ⟨hm', hsel', hw'⟩ := h'.rest k fun x hx => hno x (List.mem_append_right _ hx)
    exact ⟨hm'.trans hm, hsel'.trans hsel, hw'.trans hw⟩
  valid := h'.valid

theorem loads_tri (hT : K.Readable T) (hg : K.ValidTexts g.user) (hs : K.sym x = some s)
    (hv : T (.str x) = some (triToStr t, true)) (ht : s.origType.isBoolTristate)
    (hb : s.origType = .bool → t ≠ .m) :
    K.Loads T [x] g ((valueOps x s (triToStr t)).foldl K.apply g) := by
  have he : K.triEntry T x = some t := by
    simp only [triEntry, hs, hv, ht, if_true, strToTri_triToStr]
  have he' : K.strEntry T x = none := by
    simp only [strEntry, hs, hv, ht, Bool.true_eq_false, false_and, if_false]
  have hsh : ∀ k, s.choice = some k → t ≠ .n → K.Shows T k x t := fun k hk hz => ⟨s, hs, hk, he, hz⟩
  rw [foldl_valueOps_tri hs ht hb fun k hk hz => hT.allowed k x t (hsh k hk hz)]
  refine ⟨fun y => ?_, fun y => ?_, fun y => ?_, fun k y t' hy h => ?_, fun k hno => ?_, hg⟩
  · rcases eq_or_ne y x with rfl | hy
    · simp [setTri, he]
    · simp [setTri, hy]
  · rcases eq_or_ne y x with rfl | hy
    · simp [setTri, he']
    · simp [setTri, hy]
  · rcases eq_or_ne y x with rfl | hy
    · simp [setTri, he]
    · simp [setTri, hy]
  · obtain rfl := List.mem_singleton.mp hy
    obtain ⟨s', hs', hk, he₁, hz⟩ := h
    obtain rfl := Option.some.inj (hs.symm.trans hs')
    obtain rfl := Option.some.inj (he.symm.trans he₁)
    simp only [setTri, hk, if_neg hz, Function.update_self, true_and]
    intro hy
    rw [if_pos hy, Function.update_self]
  · unfold setTri
    cases hk : s.choice with
    | none => exact ⟨rfl, rfl, rfl⟩
    | some j =>
      by_cases hz : t = .n
      · rw [hz]
        exact ⟨rfl, rfl, rfl⟩
      · have hj : k ≠ j := by
          rintro rfl
          exact hno x List.mem_cons_self t (hsh k hk hz)
        simp only [if_neg hz, Function.update_of_ne hj, true_and, and_true]
        split
        · exact Function.update_of_ne hj ..
        · rfl

theorem loads_str (hg : K.ValidTexts g.user) (hs : K.sym x = some s)
    (hv : T (.str x) = some (v, true)) (ht : s.origType.isBoolTristate = false) :
    K.Loads T [x] g ((valueOps x s v).foldl K.apply g) := by
  have he : K.triEntry T x = none := by
    simp only [triEntry, hs, hv, ht, Bool.false_eq_true, if_false]
  rw [foldl_valueOps_str hs ht hg]
  split
  · next hval =>
    have he' : K.strEntry T x = some v := by
      simp only [strEntry, hs, hv, ht, hval, and_self, if_true]
    refine ⟨fun y => ?_, fun y => ?_, fun y => ?_, fun k y t' hy h => ?_, fun k hno => ⟨rfl, rfl, rfl⟩,
      fun y s' t hs' h => ?_⟩
    · rcases eq_or_ne y x with rfl | hy
      · simp [he]
      · simp [hy]
    · rcases eq_or_ne y x with rfl | hy
      · simp [he']
      · simp [hy]
    · rcases eq_or_ne y x with rfl | hy
      · simp [Settings.mark, he']
      · simp [Settings.mark, hy]
    · obtain rfl := List.mem_singleton.mp hy
      obtain ⟨s', -, -, he₁, -⟩ := h
      rw [he] at he₁
      cases he₁
    · rcases eq_or_ne y x with rfl | hy
      · obtain rfl := Option.some.inj (hs.symm.trans hs')
        obtain rfl : v = t := by simpa using h
        exact hval
      · exact hg y s' t hs' (by simpa [hy] using h)
  · next hval =>
    have he' : K.strEntry T x = none := by
      simp only [strEntry, hs, hv]
      exact if_neg fun h => hval h.2
    exact loads_idle hg (by simpa using he) (by simpa using he')

theorem loads_one (hT : K.Readable T) (hg : K.ValidTexts g.user) (x : Text) :
    K.Loads T [x] g ((K.symOps T x).foldl K.apply g) := by
  have idle : K.symOps T x = [] → K.triEntry T x = none → K.strEntry T x = none →
      K.Loads T [x] g ((K.symOps T x).foldl K.apply g) := fun h ht hs =>
    h ▸ loads_idle hg (by simpa using ht) (by simpa using hs)
  cases hs : K.sym x with
  | none => exact idle (by simp [symOps, hs]) (by simp [triEntry, hs]) (by simp [strEntry, hs])
  | some s =>
    cases hv : T (.str x) with
    | none =>
      exact idle (by simp [symOps, hs, hv]) (by simp [triEntry, hs, hv]) (by simp [strEntry, hs, hv])
    | some r =>
      obtain ⟨v, write⟩ := r
      cases write with
      | false =>
        exact idle (by simp [symOps, hs, hv]) (by simp [triEntry, hs, hv])
          (by simp [strEntry, hs, hv])
      | true =>
        have hops : K.symOps T x = valueOps x s v := by simp [symOps, hs, hv]
        rw [hops]
        cases ht : s.origType.isBoolTristate with
        | true =>
          have hp := hT.value x s v hs hv
          rw [PlainValue, if_pos ht] at hp
          obtain ⟨t, rfl, hb⟩ := hp
          exact loads_tri hT hg hs hv ht hb
        | false => exact loads_str hg hs hv ht

theorem loads_all (hT : K.Readable T) (hg : K.ValidTexts g.user) (hn : xs.Nodup) :
    K.Loads T xs g ((xs.flatMap (K.symOps T)).foldl K.apply g) := by
  induction xs generalizing g with
  | nil => exact loads_idle hg (fun _ h => absurd h List.not_mem_nil) fun _ h => absurd h List.not_mem_nil
  | cons x xs ih =>
    obtain ⟨hx, hxs⟩ := List.nodup_cons.mp hn
    rw [List.flatMap_cons, List.foldl_append]
    have h := loads_one hT hg x
    refine h.trans hT (ih h.valid hxs) fun y hy => ?_
    rwa [List.mem_singleton.mp hy]

/-! ## What is not in the file -/

theorem apply_unsetValue (hs : (K.sym x).isSome) :
    K.apply g (.unsetValue x) = { g with user := g.user.unset x } := by
  obtain ⟨s, hs⟩ := Option.isSome_iff_exists.mp hs
  simp only [apply, assign, Option.elim_some, unsetValue, hs]
  split
  · next h =>
    obtain ⟨ht, hv⟩ := h
    have ht' : Function.update g.user.tri x none = g.user.tri := by rw [← ht, Function.update_eq_self]
    have hv' : Function.update g.user.str x none = g.user.str := by rw [← hv, Function.update_eq_self]
    rw [User.unset, ht', hv']
  · rfl

theorem apply_unsetMode (hk : k < K.choices.length) :
    K.apply g (.unsetMode k) = { g with user := g.user.unsetChoice k } := by
  have hc : K.choices[k]? = some K.choices[k] := List.getElem?_eq_getElem hk
  simp only [apply, assign, Option.elim_some, unsetMode, hc]
  split
  · next h =>
    obtain ⟨hm, hv⟩ := h
    have hm' : Function.update g.user.mode k none = g.user.mode := by rw [← hm, Function.update_eq_self]
    have hv' : Function.update g.user.selected k none = g.user.selected := by
      rw [← hv, Function.update_eq_self]
    rw [User.unsetChoice, hm', hv']
  · rfl

/-- Nothing is left of what is in a list and has not been set. -/
def cleared {α β : Type} [DecidableEq α] (set : α → Bool) (l : List α) (f : α → Option β) (a : α) :
    Option β :=
  if set a = false ∧ a ∈ l then none else f a

section Cleared

variable {α β : Type} [DecidableEq α] {set : α → Bool} {a : α} {l : List α} {f : α → Option β}

theorem cleared_nil : cleared set [] f = f := by
  funext a
  simp [cleared]

theorem cleared_cons_of_set (h : set a = true) : cleared set (a :: l) f = cleared set l f := by
  funext b
  rcases eq_or_ne b a with rfl | hb
  · simp [cleared, h]
  · simp [cleared, hb]

theorem cleared_cons_of_unset (h : set a = false) :
    cleared set (a :: l) f = cleared set l (Function.update f a none) := by
  funext b
  rcases eq_or_ne b a with rfl | hb
  · simp [cleared, h]
  · simp [cleared, hb]

theorem cleared_of_set (h : set a = true) : cleared set l f a = f a := by
  rw [cleared, if_neg fun h' => by rw [h] at h'; exact absurd h'.1 (by decide)]

theorem cleared_of_unset (h : set a = false) (ha : a ∈ l) : cleared set l f a = none := if_pos ⟨h, ha⟩

end Cleared

/-- Unset the symbols of a list. -/
theorem foldl_unsetValue {l : List (Text × Symbol)} (hl : ∀ p ∈ l, (K.sym p.1).isSome) :
    l.foldl (fun g p => if g.wasSet p.1 then g else K.apply g (.unsetValue p.1)) g =
      { g with
        user := { g.user with
          tri := cleared g.wasSet (l.map Prod.fst) g.user.tri
          str := cleared g.wasSet (l.map Prod.fst) g.user.str } } := by
  induction l generalizing g with
  | nil => rw [List.map_nil, cleared_nil, cleared_nil]; rfl
  | cons p l ih =>
    obtain ⟨hp, hl⟩ := List.forall_mem_cons.mp hl
    rw [List.foldl_cons, ih hl, List.map_cons]
    cases hw : g.wasSet p.1 with
    | true =>
      rw [cleared_cons_of_set hw, cleared_cons_of_set hw]
      rfl
    | false =>
      rw [cleared_cons_of_unset hw, cleared_cons_of_unset hw, if_neg (by decide), apply_unsetValue hp]
      rfl

/-- Unset the choices of a list. -/
theorem foldl_unsetMode {l : List ℕ} (hl : ∀ k ∈ l, k < K.choices.length) :
    l.foldl (fun g k => if g.choiceWasSet k then g else K.apply g (.unsetMode k)) g =
      { g with
        user := { g.user with
          mode := cleared g.choiceWasSet l g.user.mode
          selected := cleared g.choiceWasSet l g.user.selected } } := by
  induction l generalizing g with
  | nil => rw [cleared_nil, cleared_nil]; rfl
  | cons j l ih =>
    obtain ⟨hj, hl⟩ := List.forall_mem_cons.mp hl
    rw [List.foldl_cons, ih hl]
    cases hw : g.choiceWasSet j with
    | true =>
      rw [cleared_cons_of_set hw, cleared_cons_of_set hw]
      rfl
    | false =>
      rw [cleared_cons_of_unset hw, cleared_cons_of_unset hw, if_neg (by decide), apply_unsetMode hj]
      rfl

/-! ## After loading -/

/-- The user values are those in the file. -/
structure Restores (K : Config) (T : Table Val) (u : User) : Prop where
  known : ∀ x s, K.sym x = some s → (T (.str x)).isSome
  tri : ∀ x s, K.sym x = some s → s.origType.isBoolTristate → u.tri x = K.triEntry T x
  str : ∀ x s, K.sym x = some s → s.origType.isBoolTristate = false → u.str x = K.strEntry T x
  shows : ∀ k x t, K.Shows T k x t → u.mode k = some t ∧ (t = .y → u.selected k = some x)
  rest : ∀ k, k < K.choices.length → (∀ x t, ¬ K.Shows T k x t) → u.mode k = none ∧ u.selected k = none

/-- **Loading what has been written restores the user values**, whatever was set before. -/
theorem loadConfig_restores {u : User} {header text : Text} {top : Menu} (hm : K.Writable T top)
    (hT : K.Readable T) (hnode : ∀ x s, K.sym x = some s → x ∈ top.syms) (hh : K.Printed header [])
    (hg : K.ValidTexts g.user) (h : (K.configContents u header top).eval T = some text) :
    K.Restores T (K.loadConfig true text g).user := by
  obtain ⟨xs, hn, hmem, hsome, hops⟩ := written_spec hm hh h
  have hL := loads_all (g := clearMarks g) hT hg hn
  rw [loadConfig, if_pos rfl, hops]
  set g' := (xs.flatMap (K.symOps T)).foldl K.apply (clearMarks g)
  have hdef : ∀ p ∈ K.symbols, (K.sym p.1).isSome := fun p hp =>
    List.lookup_isSome_iff.mpr ⟨p, hp, beq_self_eq_true _⟩
  rw [unsetRest, foldl_unsetValue hdef, foldl_unsetMode fun k hk => List.mem_range.mp hk]
  have hin : ∀ x s, K.sym x = some s → x ∈ K.symbols.map Prod.fst ∧ x ∈ xs := fun x s hs => by
    refine ⟨?_, hmem x (hnode x s hs)⟩
    obtain ⟨l, r, hl, -⟩ := List.lookup_eq_some_iff.mp hs
    rw [hl]
    simp
  have hwas : ∀ x, g'.wasSet x = true ↔ x ∈ xs ∧ (K.triEntry T x ≠ none ∨ K.strEntry T x ≠ none) :=
    fun x => (hL.wasSet x).trans ⟨fun h => h.resolve_left (by simp [clearMarks]), .inr⟩
  refine ⟨fun x s hs => hsome x (hin x s hs).2, fun x s hs ht => ?_, fun x s hs ht => ?_,
    fun k x t hsh => ?_, fun k hk hno => ?_⟩
  · obtain ⟨hxk, hxs⟩ := hin x s hs
    have hnone : K.strEntry T x = none := by
      unfold strEntry
      split
      · next hs' _ =>
        obtain rfl := Option.some.inj (hs.symm.trans hs')
        rw [if_neg (by simp [ht])]
      · rfl
    dsimp only
    cases he : K.triEntry T x with
    | none =>
      have hw : g'.wasSet x = false := by
        by_contra hw
        simpa [he, hnone] using (hwas x).mp (Bool.eq_true_of_not_eq_false hw)
      exact cleared_of_unset hw hxk
    | some t =>
      have hw : g'.wasSet x = true := (hwas x).mpr ⟨hxs, .inl (by simp [he])⟩
      rw [cleared_of_set hw, hL.tri x, if_pos hxs, he]
      rfl
  · obtain ⟨hxk, hxs⟩ := hin x s hs
    have hnone : K.triEntry T x = none := by
      unfold triEntry
      split
      · next hs' _ =>
        obtain rfl := Option.some.inj (hs.symm.trans hs')
        rw [if_neg (by simp [ht])]
      · rfl
    dsimp only
    cases he : K.strEntry T x with
    | none =>
      have hw : g'.wasSet x = false := by
        by_contra hw
        simpa [he, hnone] using (hwas x).mp (Bool.eq_true_of_not_eq_false hw)
      exact cleared_of_unset hw hxk
    | some t =>
      have hw : g'.wasSet x = true := (hwas x).mpr ⟨hxs, .inr (by simp [he])⟩
      rw [cleared_of_set hw, hL.str x, if_pos hxs, he]
      rfl
  · obtain ⟨s, hs, -⟩ := id hsh
    obtain ⟨hmode, hw, hsel⟩ := hL.shows k x t (hin x s hs).2 hsh
    dsimp only
    rw [cleared_of_set hw, cleared_of_set hw]
    exact ⟨hmode, hsel⟩
  · obtain ⟨-, -, hw⟩ := hL.rest k fun x _ t => hno x t
    have hw : g'.choiceWasSet k = false := hw
    dsimp only
    exact ⟨cleared_of_unset hw (List.mem_range.mpr hk), cleared_of_unset hw (List.mem_range.mpr hk)⟩

end Config

end Kconfig
