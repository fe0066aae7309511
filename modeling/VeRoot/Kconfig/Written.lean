import VeRoot.Kconfig.ConfigFile

/-!
# What is written

The walk through the menu tree writes a line for every symbol once, and between the lines comments
that set nothing.

## Main definitions

* `Walked` — what a part of the walk has written.
* `PlainTitle` — a title that does not look like an assignment.
* `walk_spec` — the walk.
* `written_spec` — what the whole file sets.
-/

namespace Kconfig

open Unix Demand

/-- The symbols in a menu tree. -/
def Menu.syms : Menu → List Text
  | nil => []
  | node (.sym x) _ _ _ list next => x :: (list.syms ++ next.syms)
  | node _ _ _ _ list next => list.syms ++ next.syms

/-- The titles of the menus and comments in a menu tree. -/
def Menu.titles : Menu → List Text
  | nil => []
  | node .menu title _ _ list next | node .comment title _ _ list next =>
    title :: (list.titles ++ next.titles)
  | node _ _ _ _ list next => list.titles ++ next.titles

/-- A title that does not look like an assignment. -/
def PlainTitle (t : Text) : Prop :=
  '\n' ∉ t ∧ '\r' ∉ t ∧ unsetMatch (rstrip ('#' :: ' ' :: t)) = none

namespace Config

/-- What the line of a symbol sets, if it has one. -/
def symOps (K : Config) (T : Table Val) (x : Text) : List Op :=
  match K.sym x, T (.str x) with
  | some s, some (v, true) => valueOps x s v
  | _, _ => []

/-- What a part of the walk has written, from one state to another: some symbols have been visited for
the first time, those of the part among them. -/
def Walked (K : Config) (T : Table Val) (w : Walk) (t : Text) (w' : Walk) (names : List Text) :
    Prop :=
  ∃ xs : List Text, w'.visited = xs.reverse ++ w.visited ∧ xs.Nodup ∧
    (∀ x ∈ xs, x ∉ w.visited ∧ (T (.str x)).isSome) ∧ (∀ x ∈ names, x ∈ w'.visited) ∧
      K.Printed t (xs.flatMap (K.symOps T))

variable {K : Config} {u : User} {T : Table Val} {w w' w₁ : Walk} {t a b title : Text}
  {names names' : List Text} {item : NodeItem} {dep visibility : Expr} {x : Text}

/-- A text that sets nothing. -/
theorem walked_text (h : K.Printed t []) (hw : w'.visited = w.visited) : K.Walked T w t w' [] :=
  ⟨[], hw, List.nodup_nil, fun _ h => absurd h List.not_mem_nil,
    fun _ h => absurd h List.not_mem_nil, h⟩

theorem Walked.trans (h : K.Walked T w a w₁ names) (h' : K.Walked T w₁ b w' names') :
    K.Walked T w (a ++ b) w' (names ++ names') := by
  obtain ⟨xs, hv, hn, hx, hm, hp⟩ := h
  obtain ⟨ys, hv', hn', hy, hm', hp'⟩ := h'
  refine ⟨xs ++ ys, ?_, ?_, ?_, ?_, ?_⟩
  · rw [hv', hv, List.reverse_append, List.append_assoc]
  · refine List.nodup_append.mpr ⟨hn, hn', fun x hxs y hys => ?_⟩
    rintro rfl
    exact (hy x hys).1 (by rw [hv]; simp [hxs])
  · intro x hxy
    rcases List.mem_append.mp hxy with hxs | hys
    · exact hx x hxs
    · exact ⟨fun hm => (hy x hys).1 (by rw [hv]; simp [hm]), (hy x hys).2⟩
  · intro x hxn
    rcases List.mem_append.mp hxn with hxs | hys
    · rw [hv']
      exact List.mem_append_right _ (hm x hxs)
    · exact hm' x hys
  · rw [List.flatMap_append]
    exact hp.append hp'

/-! ## Comments -/

theorem after_eq_none {p : Text} (h : p.isPrefixOf t = false) : after p (rstrip t) = none := by
  unfold after
  rw [if_neg]
  intro hp
  have hp' := List.isPrefixOf_iff_prefix.mpr
    ((List.isPrefixOf_iff_prefix.mp hp).trans (List.rdropWhile_prefix _ _))
  rw [h] at hp'
  cases hp'

/-- A comment that is not about a symbol sets nothing. -/
theorem lineOps_comment (h : unsetMatch (rstrip ('#' :: t)) = none) :
    K.lineOps (rstrip ('#' :: t)) = [] := by
  have hset : setMatch (rstrip ('#' :: t)) = none := by
    rw [setMatch, after_eq_none rfl]
    rfl
  rw [lineOps, hset, h]
  rfl

theorem printed_heading (h : PlainTitle title) :
    K.Printed ("\n#\n# ".toList ++ title ++ "\n#\n".toList) [] := by
  obtain ⟨hn, hr, ht⟩ := h
  have hempty : K.Printed ([] ++ ['\n']) [] := printed_line (by decide)
  have hash : K.Printed (['#'] ++ ['\n']) [] := printed_line (by decide)
  have hline := printed_line (K := K) (t := '#' :: ' ' :: title) (by simp [hn, hr])
  rw [lineOps_comment ht] at hline
  have h := ((hempty.append hash).append hline).append hash
  simpa using h

theorem printed_end (h : PlainTitle title) :
    K.Printed ("# end of ".toList ++ title ++ ['\n']) [] := by
  obtain ⟨hn, hr, -⟩ := h
  have hline := printed_line (K := K) (t := "# end of ".toList ++ title) (by simp [hn, hr])
  have hnone : unsetMatch (rstrip ("# end of ".toList ++ title)) = none := by
    rw [unsetMatch, after_eq_none rfl]
    rfl
  have hcomment : K.lineOps (rstrip ("# end of ".toList ++ title)) = [] := lineOps_comment hnone
  rwa [hcomment] at hline

/-! ## The walk -/

/-- What holds of the values and the names when the file is written. -/
structure Writable (K : Config) (T : Table Val) (m : Menu) : Prop where
  name : ∀ x ∈ m.syms, PlainName x
  title : ∀ t ∈ m.titles, PlainTitle t
  value : ∀ x s v, K.sym x = some s → T (.str x) = some (v, true) → PlainValue s.origType v

theorem eval_bind_eq_some {α β : Type} {q : Query Val α} {f : α → Query Val β} {v : β} :
    (q >>= f).eval T = some v ↔ ∃ r, q.eval T = some r ∧ (f r).eval T = some v := by
  rw [Query.eval_bind, Option.bind_eq_some_iff]

theorem PlainValue.noNewline {ty : SymType} {val : Text} (h : PlainValue ty val) :
    '\n' ∉ val ∧ '\r' ∉ val := by
  unfold PlainValue at h
  split at h
  · obtain ⟨v, rfl, -⟩ := h
    cases v <;> decide
  · exact ⟨h.1, h.2.1⟩

theorem notMem_escape_of {c : Char} (hb : c ≠ '\\') (h : c ∉ t) : c ∉ escape t := by
  induction t with
  | nil => exact List.not_mem_nil
  | cons d t ih =>
    obtain ⟨hd, ht⟩ := List.ne_and_not_mem_of_not_mem_cons h
    rw [escape_cons]
    split
    · simp [hb, hd, ih ht]
    · simp [hd, ih ht]

theorem valueLine_plain {ty : SymType} {val : Text} (hx : PlainName x) (hv : PlainValue ty val) :
    '\n' ∉ valueLine ty x val ∧ '\r' ∉ valueLine ty x val := by
  obtain ⟨hn, hr⟩ := hv.noNewline
  obtain ⟨-, -, -, hxn, hxr⟩ := hx
  have hp : '\n' ∉ configPrefix ∧ '\r' ∉ configPrefix := by decide
  have hs : '\n' ∉ notSet ∧ '\r' ∉ notSet := by decide
  have he := notMem_escape_of (c := '\n') (by decide) hn
  have he' := notMem_escape_of (c := '\r') (by decide) hr
  unfold valueLine
  split
  · split
    · simp [hn, hr, hxn, hxr, hp]
    · simp [hxn, hxr, hp, hs]
  · split
    · simp [hxn, hxr, hp, he, he']
    · simp [hn, hr, hxn, hxr, hp]

/-- The line of a symbol. -/
theorem configString_spec (hx : PlainName x)
    (hval : ∀ s v, K.sym x = some s → T (.str x) = some (v, true) → PlainValue s.origType v)
    (h : (K.configString x).eval T = some t) :
    (T (.str x)).isSome ∧ K.Printed t (K.symOps T x) := by
  obtain ⟨⟨v, write⟩, hv, h⟩ := eval_bind_eq_some.mp h
  have hv : T (.str x) = some (v, write) := by simpa [getStr, Query.eval] using hv
  refine ⟨by rw [hv]; rfl, ?_⟩
  unfold symOps
  rw [hv]
  cases write with
  | false =>
    obtain rfl := Option.some.inj h
    cases K.sym x <;> exact .nil
  | true =>
    obtain rfl := Option.some.inj h
    cases hs : K.sym x with
    | none => exact .nil
    | some s =>
      have hplain := hval s v hs hv
      have hline := printed_line (K := K) (valueLine_plain hx hplain)
      rwa [lineOps_valueLine hs hx hplain] at hline

theorem visit_spec {r : Text × Walk} (hK : ∀ x, item = .sym x → PlainName x)
    (ht : item = .menu ∨ item = .comment → PlainTitle title)
    (hval : ∀ x s v, K.sym x = some s → T (.str x) = some (v, true) → PlainValue s.origType v)
    (h : (K.visit u item title dep visibility w).eval T = some r) :
    K.Walked T w r.1 r.2 (match item with | .sym x => [x] | _ => []) := by
  cases item with
  | sym x =>
    simp only [visit] at h
    split at h
    · next hm =>
      obtain rfl := Option.some.inj h
      exact ⟨[], rfl, List.nodup_nil, fun _ h => absurd h List.not_mem_nil,
        fun y hy => List.mem_singleton.mp hy ▸ List.contains_iff_mem.mp hm, .nil⟩
    · next hm =>
      have hm : x ∉ w.visited := fun hx => hm (List.contains_iff_mem.mpr hx)
      obtain ⟨t, htext, h⟩ := eval_bind_eq_some.mp h
      obtain ⟨hsome, hp⟩ := configString_spec (hK x rfl) (hval x) htext
      have hnew : ∀ w', w'.visited = x :: w.visited → K.Printed r.1 (K.symOps T x) → r.2 = w' →
          K.Walked T w r.1 r.2 [x] := by
        rintro w' hw' hpr rfl
        refine ⟨[x], hw', by simp, ?_, ?_, by simpa using hpr⟩
        · intro y hy
          obtain rfl := List.mem_singleton.mp hy
          exact ⟨hm, hsome⟩
        · intro y hy
          rw [hw', List.mem_singleton.mp hy]
          exact List.mem_cons_self
      split at h
      · next he =>
        obtain rfl := Option.some.inj h
        exact hnew _ rfl (he ▸ hp) rfl
      · obtain rfl := Option.some.inj h
        refine hnew _ rfl ?_ rfl
        dsimp only
        split
        · have hempty : K.Printed ([] ++ ['\n']) [] := printed_line (by decide)
          exact hempty.append hp
        · exact hp
  | choice k =>
    obtain ⟨_, -, h⟩ := eval_bind_eq_some.mp h
    obtain rfl := Option.some.inj h
    exact walked_text .nil rfl
  | menu =>
    obtain ⟨b, -, h⟩ := eval_bind_eq_some.mp h
    cases b with
    | true =>
      obtain rfl := Option.some.inj h
      exact walked_text (printed_heading (ht (.inl rfl))) rfl
    | false =>
      obtain rfl := Option.some.inj h
      exact walked_text .nil rfl
  | comment =>
    obtain ⟨v, -, h⟩ := eval_bind_eq_some.mp h
    split at h
    · obtain rfl := Option.some.inj h
      exact walked_text (printed_heading (ht (.inr rfl))) rfl
    · obtain rfl := Option.some.inj h
      exact walked_text .nil rfl

theorem leave_spec {list : Menu} {r : Text × Walk} (ht : item = .menu → PlainTitle title)
    (h : (K.leave u list item title dep visibility w).eval T = some r) :
    K.Walked T w r.1 r.2 [] := by
  unfold leave at h
  split at h
  · obtain ⟨b, -, h⟩ := eval_bind_eq_some.mp h
    cases b with
    | true =>
      obtain rfl := Option.some.inj h
      exact walked_text (printed_end (ht rfl)) rfl
    | false =>
      obtain rfl := Option.some.inj h
      exact walked_text .nil rfl
  · obtain rfl := Option.some.inj h
    exact walked_text .nil rfl

/-- **The walk visits every symbol of the tree once**, and writes its line. -/
theorem walk_spec {m : Menu} {r : Text × Walk} (hm : K.Writable T m)
    (h : (K.walk u m w).eval T = some r) : K.Walked T w r.1 r.2 m.syms := by
  induction m generalizing w r with
  | nil =>
    obtain rfl := Option.some.inj h
    exact walked_text .nil rfl
  | node item title dep visibility list next ihl ihn =>
    obtain ⟨⟨t₁, w₁⟩, h₁, h⟩ := eval_bind_eq_some.mp h
    obtain ⟨⟨t₂, w₂⟩, h₂, h⟩ := eval_bind_eq_some.mp h
    obtain ⟨⟨t₃, w₃⟩, h₃, h⟩ := eval_bind_eq_some.mp h
    obtain ⟨⟨t₄, w₄⟩, h₄, h⟩ := eval_bind_eq_some.mp h
    obtain rfl := Option.some.inj h
    have ht : item = .menu ∨ item = .comment → PlainTitle title := by
      rintro (rfl | rfl) <;> exact hm.title title List.mem_cons_self
    have htitles : ∀ t ∈ list.titles ++ next.titles, PlainTitle t := by
      intro t hmem
      refine hm.title t ?_
      cases item <;> simp only [Menu.titles] <;> first | exact hmem | exact List.mem_cons_of_mem _ hmem
    have hsub : ∀ x ∈ list.syms ++ next.syms, PlainName x := by
      intro x hx
      refine hm.name x ?_
      cases item <;> simp only [Menu.syms] <;> first | exact hx | exact List.mem_cons_of_mem _ hx
    have hl : K.Writable T list := ⟨fun x hx => hsub x (List.mem_append_left _ hx),
      fun t ht => htitles t (List.mem_append_left _ ht), hm.value⟩
    have hn : K.Writable T next := ⟨fun x hx => hsub x (List.mem_append_right _ hx),
      fun t ht => htitles t (List.mem_append_right _ ht), hm.value⟩
    have w₁₁ := visit_spec (fun x e => hm.name x (by rw [e]; exact List.mem_cons_self)) ht hm.value h₁
    have w₁₂ := ihl hl h₂
    have w₁₃ := leave_spec (fun e => ht (.inl e)) h₃
    have w₁₄ := ihn hn h₄
    have hall := ((w₁₁.trans w₁₂).trans w₁₃).trans w₁₄
    cases item <;> simpa [Menu.syms] using hall

/-- **What a configuration file sets**: each of the symbols in the tree once, to what its line says. -/
theorem written_spec {header text : Text} {top : Menu} (hm : K.Writable T top)
    (hh : K.Printed header []) (h : (K.configContents u header top).eval T = some text) :
    ∃ xs : List Text, xs.Nodup ∧ (∀ x ∈ top.syms, x ∈ xs) ∧ (∀ x ∈ xs, (T (.str x)).isSome) ∧
      K.fileOps text = xs.flatMap (K.symOps T) := by
  obtain ⟨⟨t, w⟩, ht, h⟩ := eval_bind_eq_some.mp h
  obtain rfl := Option.some.inj h
  obtain ⟨xs, hv, hn, hx, hmem, hp⟩ := walk_spec hm ht
  refine ⟨xs, hn, fun x hxs => ?_, fun x hxs => (hx x hxs).2, (hh.append hp).fileOps_eq⟩
  have h := hmem x hxs
  rw [hv] at h
  simpa using h

end Config

end Kconfig
