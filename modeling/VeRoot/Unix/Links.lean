import VeRoot.Unix.Path
import Mathlib.Data.List.DropRight
import Mathlib.Order.Lattice.Nat

/-!
# Symbolic links

A lookup walks through a tree of directories, files and symbolic links, component by component.
The text of a link takes the place of the component that named it, and begins at the root if it is
absolute.  A link that leads to itself leads nowhere; how many links a lookup may follow is not
bounded here.

## Main definitions

* `DirEntry`, `Tree` — the entries of a file system.
* `Tree.step`, `Leads`, `Tree.lookup` — one component, and a whole lookup.
* `Tree.relink` — the same tree with other texts in its links.
* `Leads.relink` — if every link that is changed leads where it led, every path does.
* `Leads.relink_local` — links that lose the name of the directory they are in.
* `Via`, `leads_relink_iff_via` — exactly when the links that are changed lead where they led.
* `baseName` — `basename`.
-/

namespace Unix

/-- An entry of a directory. -/
inductive DirEntry
  | directory | file
  | link (target : Text)
  deriving DecidableEq, Repr

/-- A tree of entries. -/
@[ext]
structure Tree where
  entry : Path → Option DirEntry
  root : entry [] = some .directory
  /-- Only directories have entries. -/
  parent : ∀ p c, entry (p ++ [c]) ≠ none → entry p = some .directory
  plain : ∀ p c, entry (p ++ [c]) ≠ none → Plain c

/-- A path that begins at the root. -/
def Absolute (t : Text) : Prop := t.head? = some '/'

instance (t : Text) : Decidable (Absolute t) := inferInstanceAs (Decidable (_ = _))

/-- One component of a lookup, in the directory `cur`: where it goes on, and what is to be looked
up first. -/
def Tree.step (t : Tree) (cur : Path) (c : Text) : Option (Path × Path) :=
  if t.entry cur = some .directory then
    if c = [] ∨ c = dot then some (cur, [])
    else if c = dotdot then some (cur.dropLast, [])
    else
      match t.entry (cur ++ [c]) with
      | none => none
      | some (.link u) => some (if Absolute u then [] else cur, components u)
      | some _ => some (cur ++ [c], [])
  else none

/-- Looked up from `cur`, a path leads to an entry that is no link. -/
inductive Leads (t : Tree) : Path → Path → Path → Prop
  | here (cur : Path) : Leads t cur [] cur
  | step {cur next more rest r : Path} {c : Text} (h : t.step cur c = some (next, more))
      (go : Leads t next (more ++ rest) r) : Leads t cur (c :: rest) r

/-- A lookup of at most `n` components. -/
def Tree.lookup (t : Tree) : ℕ → Path → Path → Option Path
  | _, cur, [] => some cur
  | 0, _, _ :: _ => none
  | n + 1, cur, c :: rest => (t.step cur c).bind fun s => t.lookup n s.1 (s.2 ++ rest)

/-- A link with another text. -/
def DirEntry.relink (f : Text → Text) : DirEntry → DirEntry
  | .link u => .link (f u)
  | e => e

/-- The tree with other texts in its links. -/
def Tree.relink (t : Tree) (f : Path → Text → Text) : Tree where
  entry p := (t.entry p).map (DirEntry.relink (f p))
  root := by
    rw [t.root]
    rfl
  parent p c h := by
    rw [t.parent p c fun none => h (by rw [none]; rfl)]
    rfl
  plain p c h := t.plain p c fun none => h (by rw [none]; rfl)

/-- There are no other entries than in `t`. -/
def Tree.Within (s t : Tree) : Prop := ∀ p, s.entry p ≠ none → t.entry p ≠ none

/-- A link whose text is changed. -/
def Changed (t : Tree) (f : Path → Text → Text) (p : Path) (u : Text) : Prop :=
  t.entry p = some (.link u) ∧ f p u ≠ u

/-- A lookup that passes links whose text is changed.  Where such a link led somewhere it is taken
to lead there still, if its rank is below `n`; where it led nowhere the new text is looked up. -/
inductive Via (t : Tree) (f : Path → Text → Text) (rank : Path → ℕ) (n : ℕ) :
    Path → Path → Path → Prop
  | here (cur : Path) : Via t f rank n cur [] cur
  | step {cur next more rest r : Path} {c : Text} (same : ∀ u, ¬ Changed t f (cur ++ [c]) u)
      (h : t.step cur c = some (next, more)) (go : Via t f rank n next (more ++ rest) r) :
      Via t f rank n cur (c :: rest) r
  | old {cur rest m r : Path} {c u : Text} (changed : Changed t f (cur ++ [c]) u)
      (leads : Leads t cur [c] m) (lower : rank (cur ++ [c]) < n) (go : Via t f rank n m rest r) :
      Via t f rank n cur (c :: rest) r
  | new {cur rest r : Path} {c u : Text} (changed : Changed t f (cur ++ [c]) u)
      (lost : ∀ m, ¬ Leads t cur [c] m)
      (go : Via t f rank n (if Absolute (f (cur ++ [c]) u) then [] else cur)
        (components (f (cur ++ [c]) u) ++ rest) r) :
      Via t f rank n cur (c :: rest) r

/-- What a list says of a path. -/
def entryOf (es : List (Path × DirEntry)) (p : Path) : Option DirEntry :=
  if p = [] then some .directory else es.lookup p

theorem exists_of_entryOf {es : List (Path × DirEntry)} {p : Path} {c : Text}
    (h : entryOf es (p ++ [c]) ≠ none) : ∃ e ∈ es, e.1 = p ++ [c] := by
  rw [entryOf, if_neg (by simp), ← Option.isSome_iff_ne_none, List.lookup_isSome_iff] at h
  obtain ⟨e, he, hp⟩ := h
  exact ⟨e, he, (beq_iff_eq.mp hp).symm⟩

theorem mem_of_entryOf {es : List (Path × DirEntry)} {p : Path} {e : DirEntry} (hp : p ≠ [])
    (h : entryOf es p = some e) : (p, e) ∈ es := by
  rw [entryOf, if_neg hp] at h
  obtain ⟨_, _, rfl, -⟩ := List.lookup_eq_some_iff.mp h
  simp

/-- The tree with the listed entries. -/
def Tree.ofList (es : List (Path × DirEntry))
    (h : ∀ e ∈ es, entryOf es e.1.dropLast = some .directory ∧ Plain (e.1.getLastD [])) :
    Tree where
  entry := entryOf es
  root := rfl
  parent p c hp := by
    obtain ⟨e, he, hpc⟩ := exists_of_entryOf hp
    simpa [hpc] using (h e he).1
  plain p c hp := by
    obtain ⟨e, he, hpc⟩ := exists_of_entryOf hp
    simpa [hpc] using (h e he).2

/-- The tree without a link. -/
def Tree.remove (t : Tree) (p : Path) (h : ∃ u, t.entry p = some (.link u)) : Tree where
  entry q := if q = p then none else t.entry q
  root := by
    obtain ⟨u, hu⟩ := h
    rw [if_neg, t.root]
    rintro rfl
    simp [t.root] at hu
  parent q c hq := by
    obtain ⟨u, hu⟩ := h
    have directory := t.parent q c fun none => hq (by simp [none])
    rw [if_neg, directory]
    rintro rfl
    simp [directory] at hu
  plain q c hq := t.plain q c fun none => hq (by simp [none])

/-- The tree with another link in the directory `p`. -/
def Tree.link (t : Tree) (p : Path) (x u : Text) (hp : t.entry p = some .directory)
    (hx : Plain x) (new : t.entry (p ++ [x]) = none) : Tree where
  entry q := if q = p ++ [x] then some (.link u) else t.entry q
  root := by
    rw [if_neg (by simp), t.root]
  parent q c hq := by
    have directory : t.entry q = some .directory := by
      split_ifs at hq with e
      · obtain ⟨rfl, -⟩ := List.append_inj' e rfl
        exact hp
      · exact t.parent q c hq
    rw [if_neg, directory]
    rintro rfl
    simp [directory] at new
  plain q c hq := by
    split_ifs at hq with e
    · obtain ⟨-, e⟩ := List.append_inj' e rfl
      obtain rfl := List.singleton_inj.mp e
      exact hx
    · exact t.plain q c hq

/-- `basename`, of a path that does not begin with a dash. -/
def baseName (t : Text) : Text :=
  if t ≠ [] ∧ ∀ c ∈ t, c = '/' then ['/'] else (t.rdropWhile (· = '/')).rtakeWhile (· ≠ '/')

section Lookup

variable {t t' : Tree} {cur cur' p q r m : Path} {a b c u : Text} {f : Path → Text → Text}

/-! ## Lookups -/

/-- A path leads to one place at most. -/
theorem Leads.unique (h : Leads t cur p q) (h' : Leads t cur p r) : q = r := by
  induction h with
  | here cur =>
    cases h'
    rfl
  | step h _ ih =>
    cases h' with
    | step h' go =>
      obtain ⟨rfl, rfl⟩ := Prod.mk.inj (Option.some.inj (h.symm.trans h'))
      exact ih go

/-- One path after the other. -/
theorem Leads.append (h : Leads t cur p m) (h' : Leads t m q r) : Leads t cur (p ++ q) r := by
  induction h with
  | here cur => exact h'
  | step h _ ih =>
    refine .step h ?_
    have go := ih h'
    rwa [List.append_assoc] at go

theorem Leads.split (h : Leads t cur (p ++ q) r) : ∃ m, Leads t cur p m ∧ Leads t m q r := by
  generalize hpq : p ++ q = pq at h
  induction h generalizing p with
  | here cur =>
    obtain ⟨rfl, rfl⟩ := List.append_eq_nil_iff.mp hpq
    exact ⟨cur, .here cur, .here cur⟩
  | @step cur next more rest r c h go ih =>
    cases p with
    | nil =>
      rw [List.nil_append] at hpq
      exact ⟨cur, .here cur, hpq ▸ .step h go⟩
    | cons d p =>
      obtain ⟨rfl, rfl⟩ := List.cons.inj hpq
      obtain ⟨m, first, second⟩ := ih (p := more ++ p) (List.append_assoc more p q)
      exact ⟨m, .step h first, second⟩

/-- **Lookups can be computed.** -/
theorem leads_iff_lookup : Leads t cur p r ↔ ∃ n, t.lookup n cur p = some r := by
  constructor
  · intro h
    induction h with
    | here cur => exact ⟨0, rfl⟩
    | step h _ ih =>
      obtain ⟨n, hn⟩ := ih
      exact ⟨n + 1, by rw [Tree.lookup, h]; exact hn⟩
  · rintro ⟨n, hn⟩
    fun_induction Tree.lookup t n cur p with
    | case1 n cur =>
      obtain rfl := Option.some.inj hn
      exact .here _
    | case2 => cases hn
    | case3 n cur c rest ih =>
      obtain ⟨⟨next, more⟩, step, hn⟩ := Option.bind_eq_some_iff.mp hn
      exact .step step (ih _ hn)

/-- The first component. -/
theorem Leads.of_cons (h : Leads t cur (c :: p) r) :
    ∃ next more, t.step cur c = some (next, more) ∧ Leads t next (more ++ p) r := by
  cases h with
  | step h go => exact ⟨_, _, h, go⟩

/-! ## One component -/

/-- A component that names a link. -/
theorem Tree.step_link (h : t.entry (cur ++ [c]) = some (.link u)) :
    t.step cur c = some (if Absolute u then [] else cur, components u) := by
  have directory := t.parent cur c (by simp [h])
  have hc := t.plain cur c (by simp [h])
  rw [step, if_pos directory, if_neg (by simp [hc.1, hc.2.1]), if_neg hc.2.2.1, h]

/-- A component that names nothing. -/
theorem Tree.step_none (h : t.entry (cur ++ [c]) = none) (hc : Plain c) : t.step cur c = none := by
  rw [step]
  split_ifs with _ skip up
  · exact absurd skip (by simp [hc.1, hc.2.1])
  · exact absurd up hc.2.2.1
  · rw [h]
  · rfl

theorem not_leads_of_step (h : t.step cur c = none) : ¬ Leads t cur (c :: p) r := by
  intro leads
  obtain ⟨next, more, hs, -⟩ := leads.of_cons
  simp [h] at hs

theorem not_absolute_of_notMem (h : '/' ∉ u) : ¬ Absolute u := fun absolute =>
  h (List.mem_of_mem_head? absolute)

/-- **A link that names itself** leads nowhere. -/
theorem not_leads_self (h : t.entry (cur ++ [c]) = some (.link c)) :
    ¬ Leads t cur (c :: p) r := by
  intro leads
  have hc := t.plain cur c (by simp [h])
  have relative : ¬ Absolute c := not_absolute_of_notMem hc.2.2.2
  have step : t.step cur c = some (cur, [c]) := by
    rw [Tree.step_link h, if_neg relative, components_of_notMem hc.2.2.2]
  generalize hp : c :: p = cp at leads
  generalize hcur : cur = cur' at leads
  induction leads with
  | here => simp at hp
  | step h' _ ih =>
    subst hcur
    obtain ⟨rfl, rfl⟩ := List.cons.inj hp
    obtain ⟨rfl, rfl⟩ := Prod.mk.inj (Option.some.inj (step.symm.trans h'))
    exact ih rfl rfl

/-! ## Other texts -/

@[simp] theorem Tree.relink_entry (t : Tree) (f : Path → Text → Text) (p : Path) :
    (t.relink f).entry p = (t.entry p).map (DirEntry.relink (f p)) := rfl

/-- What is no link stays as it is. -/
theorem Tree.relink_entry_directory :
    (t.relink f).entry p = some .directory ↔ t.entry p = some .directory := by
  rw [relink_entry, Option.map_eq_some_iff]
  constructor
  · rintro ⟨e, he, hd⟩
    cases e with
    | directory => exact he
    | file | link => cases hd
  · exact fun h => ⟨_, h, rfl⟩

/-- An entry that is no link whose text is changed. -/
theorem Tree.relink_of_same (h : ∀ u, t.entry p = some (.link u) → f p u = u) :
    (t.relink f).entry p = t.entry p := by
  rw [relink_entry]
  cases he : t.entry p with
  | none => rfl
  | some e =>
    cases e with
    | directory | file => rfl
    | link u => rw [Option.map_some, DirEntry.relink, h u he]

/-- A component that names no link whose text is changed. -/
theorem Tree.step_relink (h : ∀ u, t.entry (cur ++ [c]) = some (.link u) → f (cur ++ [c]) u = u) :
    (t.relink f).step cur c = t.step cur c := by
  rw [step, step]
  simp only [relink_entry_directory]
  split_ifs with directory skip up
  · rfl
  · rfl
  · rw [relink_of_same h]
  · rfl

/-- **Texts that may be changed.**  To see that a path still leads where it led, it is enough to
see it for a link whose text is changed, at its beginning, when all beginnings of the path that the
old text makes of it still do. -/
theorem Leads.transfer
    (h : ∀ cur c u p m, t.entry (cur ++ [c]) = some (.link u) → f (cur ++ [c]) u ≠ u →
      (∀ q r, q <+: components u ++ p → Leads t (if Absolute u then [] else cur) q r →
        Leads (t.relink f) (if Absolute u then [] else cur) q r) →
      Leads t (if Absolute u then [] else cur) (components u ++ p) m →
      Leads (t.relink f) cur (c :: p) m)
    (leads : Leads t cur p r) : Leads (t.relink f) cur p r := by
  suffices all : ∀ q m, q <+: p → Leads t cur q m → Leads (t.relink f) cur q m from
    all p r List.prefix_rfl leads
  induction leads with
  | here cur =>
    intro q m hq hm
    obtain rfl := List.prefix_nil.mp hq
    cases hm
    exact .here cur
  | @step cur next more rest r c step _ ih =>
    intro q m hq hm
    cases q with
    | nil =>
      cases hm
      exact .here cur
    | cons d q =>
      obtain ⟨rfl, hq'⟩ := List.cons_prefix_cons.mp hq
      obtain ⟨_, _, step', go⟩ := hm.of_cons
      obtain ⟨rfl, rfl⟩ := Prod.mk.inj (Option.some.inj (step.symm.trans step'))
      have longer : ∀ s, s <+: more ++ q → s <+: more ++ rest := fun s hs =>
        hs.trans ((List.prefix_append_right_inj more).mpr hq')
      by_cases same : ∀ u, t.entry (cur ++ [d]) = some (.link u) → f (cur ++ [d]) u = u
      · exact .step (by rw [Tree.step_relink same, step]) (ih _ m (longer _ List.prefix_rfl) go)
      · push Not at same
        obtain ⟨u, he, hf⟩ := same
        rw [Tree.step_link he] at step
        obtain ⟨rfl, rfl⟩ := Prod.mk.inj (Option.some.inj step)
        exact h cur d u q m he hf (fun s r hs => ih s r (longer s hs)) go

/-- **If every link whose text is changed leads where it led**, every path does. -/
theorem Leads.relink
    (h : ∀ cur c u m, t.entry (cur ++ [c]) = some (.link u) → f (cur ++ [c]) u ≠ u →
      Leads t cur [c] m → Leads (t.relink f) cur [c] m)
    (leads : Leads t cur p r) : Leads (t.relink f) cur p r := by
  refine Leads.transfer (fun cur c u p m he hf all go => ?_) leads
  obtain ⟨k, first, -⟩ := go.split
  have link : Leads t cur [c] k := .step (Tree.step_link he) (by simpa using first)
  obtain ⟨k', first', second⟩ :=
    (all _ m List.prefix_rfl go).split
  obtain rfl := first'.unique (all _ k (List.prefix_append _ _) first)
  exact (h cur c u k' he hf link).append second

/-- **Links that lose the name of their directory.**  The new text is the last component of the old
one, and what stood before it led to the directory that the link is in. -/
theorem Leads.relink_local
    (h : ∀ cur c u, t.entry (cur ++ [c]) = some (.link u) → f (cur ++ [c]) u ≠ u →
      ∃ q, components u = q ++ [f (cur ++ [c]) u] ∧
        Leads t (if Absolute u then [] else cur) q cur)
    (leads : Leads t cur p r) : Leads (t.relink f) cur p r := by
  refine Leads.transfer (fun cur c u p m he hf all go => ?_) leads
  obtain ⟨q, hu, hq⟩ := h cur c u he hf
  have go' := all _ m List.prefix_rfl go
  rw [hu, List.append_assoc] at go'
  obtain ⟨k, first, second⟩ := go'.split
  obtain rfl := first.unique (all q cur (by rw [hu, List.append_assoc]; simp) hq)
  have slash : '/' ∉ f (k ++ [c]) u := notMem_of_mem_components (t := u) (by rw [hu]; simp)
  have he' : (t.relink f).entry (k ++ [c]) = some (.link (f (k ++ [c]) u)) := by
    rw [Tree.relink_entry, he]
    rfl
  have relative : ¬ Absolute (f (k ++ [c]) u) := not_absolute_of_notMem slash
  refine .step (Tree.step_link he') ?_
  rw [if_neg relative, components_of_notMem slash]
  exact second

/-! ## Links that lead where they led -/

theorem Tree.step_changed (h : Changed t f (cur ++ [c]) u) : (t.relink f).step cur c =
    some (if Absolute (f (cur ++ [c]) u) then [] else cur, components (f (cur ++ [c]) u)) := by
  refine Tree.step_link ?_
  rw [relink_entry, h.1]
  rfl

/-- Links of lower rank that lead where they led take a lookup to its end. -/
theorem Via.leads {rank : Path → ℕ} {n : ℕ} (h : Via t f rank n cur p r)
    (lower : ∀ cur c u m, rank (cur ++ [c]) < n → Changed t f (cur ++ [c]) u →
      Leads t cur [c] m → Leads (t.relink f) cur [c] m) : Leads (t.relink f) cur p r := by
  induction h with
  | here cur => exact .here cur
  | @step cur next more rest r c same step go ih =>
    refine .step ?_ ih
    rwa [Tree.step_relink fun u hu => by_contra fun ne => same u ⟨hu, ne⟩]
  | old changed leads low go ih => exact (lower _ _ _ _ low changed leads).append ih
  | new changed lost go ih => exact .step (Tree.step_changed changed) ih

/-- More components may be looked up. -/
theorem Tree.lookup_mono {n k : ℕ} (h : t.lookup n cur p = some r) (hk : n ≤ k) :
    t.lookup k cur p = some r := by
  induction n generalizing k cur p with
  | zero =>
    cases p with
    | nil => cases k <;> exact h
    | cons c p => cases h
  | succ n ih =>
    cases p with
    | nil => cases k <;> exact h
    | cons c p =>
      obtain ⟨k, rfl⟩ : ∃ k', k = k' + 1 := ⟨k - 1, by omega⟩
      obtain ⟨s, step, go⟩ := Option.bind_eq_some_iff.mp h
      rw [lookup, step]
      exact ih go (by omega)

theorem Tree.lookup_append {n : ℕ} (h : t.lookup n cur (p ++ q) = some r) :
    ∃ m, t.lookup n cur p = some m ∧ t.lookup n m q = some r := by
  induction n generalizing cur p with
  | zero =>
    cases p with
    | nil => exact ⟨cur, rfl, h⟩
    | cons c p => cases h
  | succ n ih =>
    cases p with
    | nil => exact ⟨cur, rfl, h⟩
    | cons c p =>
      obtain ⟨s, step, go⟩ := Option.bind_eq_some_iff.mp h
      obtain ⟨m, first, second⟩ := ih (p := s.2 ++ p) (by rw [List.append_assoc]; exact go)
      refine ⟨m, ?_, lookup_mono second (Nat.le_succ n)⟩
      rw [lookup, step]
      exact first

/-- The length of the lookup of a link. -/
noncomputable def Tree.lookupLength (t : Tree) (p : Path) : ℕ :=
  sInf {n | ∃ m, t.lookup n p.dropLast [p.getLastD []] = some m}

theorem Tree.lookupLength_le {n : ℕ} (h : t.lookup n cur [c] = some m) :
    t.lookupLength (cur ++ [c]) ≤ n :=
  Nat.sInf_le ⟨m, by simpa using h⟩

theorem Tree.lookup_lookupLength (h : Leads t cur [c] m) :
    t.lookup (t.lookupLength (cur ++ [c])) cur [c] = some m := by
  obtain ⟨n, hn⟩ := leads_iff_lookup.mp h
  obtain ⟨m', hm'⟩ := Nat.sInf_mem (s := {n | ∃ m, t.lookup n (cur ++ [c]).dropLast
    [(cur ++ [c]).getLastD []] = some m}) ⟨n, m, by simpa using hn⟩
  have found : t.lookup (t.lookupLength (cur ++ [c])) cur [c] = some m' := by
    simpa [lookupLength] using hm'
  rw [found, (leads_iff_lookup.mpr ⟨_, found⟩).unique h]

/-- If the links that are changed lead where they led, a lookup passes links with shorter ones. -/
theorem Via.of_lookup
    (keeps : ∀ cur c u m, Changed t f (cur ++ [c]) u → Leads t cur [c] m →
      Leads (t.relink f) cur [c] m) {n k : ℕ} (h : (t.relink f).lookup n cur p = some r)
    (hk : n < k) : Via t f (t.relink f).lookupLength k cur p r := by
  induction n using Nat.strong_induction_on generalizing cur p with
  | _ n ih =>
    cases p with
    | nil =>
      obtain rfl : cur = r := by cases n <;> exact Option.some.inj h
      exact .here _
    | cons c p =>
      cases n with
      | zero => cases h
      | succ n =>
        obtain ⟨⟨next, more⟩, step, go⟩ := Option.bind_eq_some_iff.mp h
        by_cases changed : ∃ u, Changed t f (cur ++ [c]) u
        · obtain ⟨u, hu⟩ := changed
          rw [Tree.step_changed hu] at step
          obtain ⟨rfl, rfl⟩ := Prod.mk.inj (Option.some.inj step)
          by_cases known : ∃ m, Leads t cur [c] m
          · obtain ⟨m, hm⟩ := known
            obtain ⟨m', first, second⟩ := Tree.lookup_append go
            have link : (t.relink f).lookup (n + 1) cur [c] = some m' := by
              rw [Tree.lookup, Tree.step_changed hu]
              simpa using first
            obtain rfl := (leads_iff_lookup.mpr ⟨_, link⟩).unique (keeps _ _ _ _ hu hm)
            exact .old hu hm ((Tree.lookupLength_le link).trans_lt hk)
              (ih n (by omega) second (by omega))
          · exact .new hu (not_exists.mp known) (ih n (by omega) go (by omega))
        · have same : ∀ u, ¬ Changed t f (cur ++ [c]) u := not_exists.mp changed
          rw [Tree.step_relink fun u hu => by_contra fun ne => same u ⟨hu, ne⟩] at step
          exact .step same step (ih n (by omega) go (by omega))

/-- **The links that are changed lead where they led exactly if they can be ranked**, so that the
new text of each leads there by links of lower rank. -/
theorem leads_relink_iff_via :
    (∀ cur c u m, Changed t f (cur ++ [c]) u → Leads t cur [c] m →
      Leads (t.relink f) cur [c] m) ↔
    ∃ rank, ∀ cur c u m, Changed t f (cur ++ [c]) u → Leads t cur [c] m →
      Via t f rank (rank (cur ++ [c])) (if Absolute (f (cur ++ [c]) u) then [] else cur)
        (components (f (cur ++ [c]) u)) m := by
  constructor
  · intro keeps
    refine ⟨(t.relink f).lookupLength, fun cur c u m hu hm => ?_⟩
    have found := Tree.lookup_lookupLength (keeps cur c u m hu hm)
    cases hn : (t.relink f).lookupLength (cur ++ [c]) with
    | zero =>
      rw [hn] at found
      cases found
    | succ n =>
      rw [hn, Tree.lookup, Tree.step_changed hu, Option.bind_some, List.append_nil] at found
      exact .of_lookup keeps found (Nat.lt_succ_self n)
  · rintro ⟨rank, via⟩ cur c u m
    generalize hn : rank (cur ++ [c]) = n
    induction n using Nat.strong_induction_on generalizing cur c u m with
    | _ n ih =>
      intro hu hm
      have go := (via cur c u m hu hm).leads fun cur' c' u' m' low hu' hm' =>
        ih _ (hn ▸ low) cur' c' u' m' rfl hu' hm'
      exact .step (Tree.step_changed hu) (by simpa using go)

/-! ## Base names -/

theorem baseName_of_slashes (h : a ≠ [] ∧ ∀ c ∈ a, c = '/') : baseName a = ['/'] := if_pos h

/-- A base name is a component, unless the path has only slashes. -/
theorem notMem_baseName (h : ∃ x ∈ a, x ≠ '/') : '/' ∉ baseName a := by
  obtain ⟨x, hx, ne⟩ := h
  rw [baseName, if_neg fun h => ne (h.2 x hx)]
  intro hm
  simpa using List.mem_rtakeWhile_imp hm

/-- A base name has the characters of the path. -/
theorem mem_of_mem_baseName {x : Char} (h : x ∈ baseName a) : x ∈ a := by
  rw [baseName] at h
  split_ifs at h with hs
  · obtain rfl := List.mem_singleton.mp h
    obtain ⟨y, v, rfl⟩ := List.exists_cons_of_ne_nil hs.1
    exact hs.2 y (by simp) ▸ List.mem_cons_self
  · have h := (List.rtakeWhile_suffix (· ≠ '/') _).subset h
    exact (List.rdropWhile_prefix (· = '/') (l := a)).subset h

theorem baseName_ne_nil (h : a ≠ []) : baseName a ≠ [] := by
  rw [baseName]
  split_ifs with hs
  · simp
  · have ne : a.rdropWhile (· = '/') ≠ [] := by
      intro nil
      exact hs ⟨h, by simpa using List.rdropWhile_eq_nil_iff.mp nil⟩
    have last := List.rdropWhile_last_not (· = '/') a ne
    intro nil
    refine absurd (List.rtakeWhile_eq_nil_iff.mp nil ne) ?_
    simpa using last

/-- **The base name is absolute only for a path that has nothing but slashes.** -/
theorem absolute_baseName (h : a ≠ []) : Absolute (baseName a) ↔ ∀ x ∈ a, x = '/' := by
  constructor
  · intro absolute
    by_contra hs
    push Not at hs
    obtain ⟨v, hv⟩ := List.head?_eq_some_iff.mp absolute
    exact notMem_baseName hs (by rw [hv]; simp)
  · intro hs
    rw [baseName_of_slashes ⟨h, hs⟩]
    rfl

/-- What is taken goes on in front of it. -/
theorem rtakeWhile_append {p : Char → Bool} (h : ∀ x ∈ b, p x = true) :
    (a ++ b).rtakeWhile p = a.rtakeWhile p ++ b := by
  induction b using List.reverseRecOn with
  | nil => simp
  | append_singleton b x ih =>
    rw [← List.append_assoc, List.rtakeWhile_concat_pos _ _ _ (h x (by simp)),
      ih fun y hy => h y (by simp [hy]), List.append_assoc]

/-- The last component stands behind a slash, or alone. -/
theorem spell_concat (q : Path) (b : Text) :
    spell (q ++ [b]) = b ∨ ∃ w, spell (q ++ [b]) = w ++ '/' :: b := by
  induction q with
  | nil => exact .inl (by simp [spell])
  | cons c q ih =>
    obtain ⟨d, r, hr⟩ := List.exists_cons_of_ne_nil (l := q ++ [b]) (by simp)
    have e : spell (c :: q ++ [b]) = c ++ '/' :: spell (q ++ [b]) := by
      rw [List.cons_append, hr]
      simp [spell, List.intercalate_cons_cons]
    rcases ih with ih | ⟨w, ih⟩
    · exact .inr ⟨c, by rw [e, ih]⟩
    · exact .inr ⟨c ++ '/' :: w, by rw [e, ih]; simp⟩

/-- The base name is what stands behind the last slash, if anything does. -/
theorem baseName_of_components (h : components a = q ++ [b]) (hb : b ≠ []) : baseName a = b := by
  have hs : '/' ∉ b := notMem_of_mem_components (t := a) (by rw [h]; simp)
  have text : a = spell (q ++ [b]) := by rw [← h, spell_components]
  -- the last character is one of the last component
  obtain ⟨v, x, hv⟩ := (List.eq_nil_or_concat b).resolve_left hb
  rw [List.concat_eq_append] at hv
  have hx : x ≠ '/' := by
    rintro rfl
    simp [hv] at hs
  obtain ⟨w, hw⟩ : ∃ w, a = w ++ [x] := by
    rcases spell_concat q b with e | ⟨w, e⟩
    · exact ⟨v, by rw [text, e, hv]⟩
    · exact ⟨w ++ '/' :: v, by rw [text, e, hv]; simp⟩
  have some : ¬ (a ≠ [] ∧ ∀ c ∈ a, c = '/') := fun h => hx (h.2 x (by simp [hw]))
  have stays : a.rdropWhile (· = '/') = a := by
    rw [hw]
    exact List.rdropWhile_concat_neg _ _ _ (by simpa using hx)
  have taken : ∀ y ∈ b, decide (y ≠ '/') = true := by
    intro y hy
    simpa using fun e : y = '/' => hs (e ▸ hy)
  rw [baseName, if_neg some, stays, text]
  rcases spell_concat q b with e | ⟨w, e⟩
  · rw [e]
    simpa using rtakeWhile_append (a := []) taken
  · rw [e, ← List.singleton_append, ← List.append_assoc, rtakeWhile_append taken,
      List.rtakeWhile_concat_neg _ _ _ (by simp), List.nil_append]

end Lookup

end Unix
