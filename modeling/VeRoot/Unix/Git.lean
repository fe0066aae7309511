import VeRoot.Unix.Path
import Mathlib.Data.List.Nodup

/-!
# Names of commits

What a word given to `git fetch` and `git checkout` stands for: a full id, the name of a
reference under the usual prefixes, or an abbreviated id.  A remote advertises its
references in order, and `FETCH_HEAD` after a fetch of everything is the first branch.

## Main definitions

* `lookup` — the commit that a word stands for among references and commits.
* `Remote`, `Remote.denotes` — a remote repository, and what a word denotes there.
* `LocalRepo`, `LocalRepo.target` — a local one, and what `git checkout` takes a word for.
* `LocalRepo.fetchRef`, `LocalRepo.fetchAll` — the two kinds of fetch.
* `Remote.Keeps` — what a word stands for among what is on a branch of the remote.
* `target_fetchAll_iff` — that is what a fetch of everything makes of it.
* `Remote.Plain` — a word that is a plain name; `Remote.Plain.denotes_iff` and
  `Remote.Plain.keeps_iff` say what it stands for.
-/

namespace Git

open Unix

/-- A commit, by its full id in lower case. -/
abbrev Commit := Text

/-- A reference: its full name, and its commit. -/
abbrev Ref := Text × Commit

/-- A hexadecimal digit. -/
def isHex (c : Char) : Bool := "0123456789abcdefABCDEF".toList.contains c

/-- The word is a full id. -/
def isId (r : Text) : Bool := r.length == 40 && r.all isHex

/-- The full names that a word may abbreviate, the first one first. -/
def expansions (r : Text) : List Text :=
  [r, "refs/".toList ++ r, "refs/tags/".toList ++ r, "refs/heads/".toList ++ r,
    "refs/remotes/".toList ++ r, "refs/remotes/".toList ++ r ++ "/HEAD".toList]

/-- The reference that a word names. -/
def findRef (refs : List Ref) (r : Text) : Option Ref :=
  (expansions r).findSome? fun n => refs.find? fun ref => ref.1 == n

/-- The abbreviated id in a word: the word itself, or what follows `-g` in the output of
`git describe`. -/
def idPart (r : Text) : Text :=
  match r.reverse.dropWhile isHex with
  | [] => r
  | 'g' :: '-' :: _ => (r.reverse.takeWhile isHex).reverse
  | _ => []

/-- The word abbreviates the id. -/
def abbreviates (r : Text) (c : Commit) : Bool :=
  4 ≤ (idPart r).length && ((idPart r).map Char.toLower).isPrefixOf c

/-- The one commit whose id the word abbreviates. -/
def findId (commits : List Commit) (r : Text) : Option Commit :=
  match commits.filter (abbreviates r) with
  | [] => none
  | c :: cs => if cs.all (· == c) then some c else none

/-- The commit that a word stands for. -/
def lookup (refs : List Ref) (commits : List Commit) (r : Text) : Option Commit :=
  if isId r then
    if r.map Char.toLower ∈ commits then some (r.map Char.toLower) else none
  else ((findRef refs r).map Prod.snd).or (findId commits r)

/-! ## The remote -/

/-- A remote repository. -/
structure Remote where
  /-- The branches, in the order in which they are advertised. -/
  branches : List Ref
  tags : List Ref
  defaultBranch : Text
  /-- The commits that are reachable from a branch. -/
  history : List Commit
  /-- The commits that are reachable at all. -/
  reachable : List Commit
  /-- The commits that are handed out by their id. -/
  serves : Commit → Bool
  branch_names : (branches.map Prod.fst).Nodup := by decide
  tag_names : (tags.map Prod.fst).Nodup := by decide
  branch_mem : ∀ b ∈ branches, b.2 ∈ history := by decide
  history_nil : branches = [] → history = [] := by decide
  history_sub : history ⊆ reachable := by decide

/-- The references that a remote advertises. -/
def Remote.refs (R : Remote) : List Ref :=
  (R.branches.filter fun b => b.1 == R.defaultBranch).map (fun b => ("HEAD".toList, b.2)) ++
    R.branches.map (fun b => ("refs/heads/".toList ++ b.1, b.2)) ++
    R.tags.map fun t => ("refs/tags/".toList ++ t.1, t.2)

/-- What a word denotes on the remote. -/
def Remote.denotes (R : Remote) (r : Text) : Option Commit := lookup R.refs R.reachable r

/-- What `git fetch origin r` asks for, if the remote can serve it. -/
def Remote.wanted (R : Remote) (r : Text) : Option Ref :=
  if isId r then
    if r.map Char.toLower ∈ R.reachable ∧ R.serves (r.map Char.toLower) then
      some (r, r.map Char.toLower)
    else none
  else findRef R.refs r

/-- The name of a remote-tracking branch. -/
def tracking (b : Text) : Text := "refs/remotes/origin/".toList ++ b

/-- The commits of a remote that have a name once everything has been fetched. -/
inductive Remote.Brings (R : Remote) : Text → Commit → Prop
  /-- The first branch is `FETCH_HEAD`. -/
  | first {b} (h : R.branches.head? = some b) : Brings R "FETCH_HEAD".toList b.2
  | branch {b} (h : b ∈ R.branches) : Brings R (tracking b.1) b.2
  /-- A tag comes along if it is on a branch. -/
  | tag {t} (h : t ∈ R.tags) (on : t.2 ∈ R.history) : Brings R ("refs/tags/".toList ++ t.1) t.2

/-- The first of these names that the word may abbreviate. -/
def Remote.Brought (R : Remote) (r : Text) (c : Commit) : Prop :=
  ∃ ns n ns', expansions r = ns ++ n :: ns' ∧ R.Brings n c ∧ ∀ m ∈ ns, ∀ d, ¬ R.Brings m d

/-- What the word stands for among what is on a branch of the remote. -/
inductive Remote.Keeps (R : Remote) (r : Text) : Commit → Prop
  /-- The full id of a commit on a branch. -/
  | id (full : isId r = true) (on : r.map Char.toLower ∈ R.history) :
      Keeps R r (r.map Char.toLower)
  /-- A tag on a branch, or one of the new names of a branch. -/
  | name {c} (short : isId r = false) (h : R.Brought r c) : Keeps R r c
  /-- The abbreviated id of a commit on a branch. -/
  | commit {c} (short : isId r = false) (unnamed : ∀ d, ¬ R.Brought r d)
      (h : findId R.history r = some c) : Keeps R r c
  /-- A branch. -/
  | branch {c} (short : isId r = false) (unnamed : ∀ d, ¬ R.Brought r d)
      (unknown : findId R.history r = none) (h : (r, c) ∈ R.branches) : Keeps R r c

/-- A word that can only be the name of a tag or of a branch: it is no path, no id or beginning
of an id, and none of the names that git itself gives. -/
structure Remote.Plain (R : Remote) (r : Text) : Prop where
  slash : '/' ∉ r
  short : isId r = false
  head : r ≠ "HEAD".toList
  fetchHead : r ≠ "FETCH_HEAD".toList
  origin : r ≠ "origin".toList
  unabbreviated : ∀ c ∈ R.reachable, abbreviates r c = false

/-! ## The local repository -/

/-- A local repository. -/
structure LocalRepo where
  refs : List Ref := []
  fetchHead : Option Commit := none
  objects : List Commit := []
  /-- The commit that is checked out. -/
  head : Option Commit := none

/-- The references, `FETCH_HEAD` among them. -/
def LocalRepo.allRefs (s : LocalRepo) : List Ref :=
  (s.fetchHead.toList.map fun c => ("FETCH_HEAD".toList, c)) ++ s.refs

/-- What `git checkout` takes a word for: a commit, or the remote branch of this name. -/
def LocalRepo.target (s : LocalRepo) (r : Text) : Option Commit :=
  if isId r then lookup s.allRefs s.objects r
  else (lookup s.allRefs s.objects r).or
    ((s.refs.find? fun ref => ref.1 == tracking r).map Prod.snd)

/-- The remote-tracking branch that a fetch of one reference updates. -/
def tracked (ref : Ref) : List Ref :=
  if "refs/heads/".toList <+: ref.1 then [(tracking (ref.1.drop 11), ref.2)] else []

/-- `git fetch --depth 1 origin r`, which has got `ref`. -/
def LocalRepo.fetchRef (s : LocalRepo) (ref : Ref) : LocalRepo :=
  { s with refs := tracked ref ++ s.refs, fetchHead := some ref.2, objects := ref.2 :: s.objects }

/-- `git fetch origin`.  Tags are taken along if their commits have come. -/
def LocalRepo.fetchAll (s : LocalRepo) (R : Remote) : LocalRepo :=
  { s with
    refs := R.branches.map (fun b => (tracking b.1, b.2)) ++
      (R.tags.filter fun t => R.history.contains t.2).map
        (fun t => ("refs/tags/".toList ++ t.1, t.2)) ++ s.refs
    fetchHead := R.branches.head?.map Prod.snd
    objects := R.history ++ s.objects }

section Git

variable {refs : List Ref} {ref : Ref} {commits : List Commit} {r : Text} {c : Commit}
  {s : LocalRepo}
  {R : Remote}

theorem mem_of_findRef (h : findRef refs r = some ref) : ref ∈ refs := by
  obtain ⟨n, -, hn⟩ := List.exists_of_findSome?_eq_some h
  exact List.mem_of_find?_eq_some hn

theorem mem_of_findId (h : findId commits r = some c) : c ∈ commits := by
  rw [findId] at h
  split at h
  · cases h
  · rename_i d cs hd
    split_ifs at h
    obtain rfl := Option.some_inj.mp h
    have : d ∈ commits.filter (abbreviates r) := by simp [hd]
    exact List.mem_of_mem_filter this

/-- A word stands for the commit of a reference, or for one of the commits. -/
theorem mem_of_lookup (h : lookup refs commits r = some c) :
    (∃ ref ∈ refs, ref.2 = c) ∨ c ∈ commits := by
  rw [lookup] at h
  split_ifs at h with hid hmem
  · obtain rfl := Option.some_inj.mp h
    exact .inr hmem
  · rcases Option.or_eq_some_iff.mp h with h | ⟨-, h⟩
    · obtain ⟨ref, href, rfl⟩ := Option.map_eq_some_iff.mp h
      exact .inl ⟨ref, mem_of_findRef href, rfl⟩
    · exact .inr (mem_of_findId h)

/-- A reference that goes by its own name. -/
theorem findRef_head (rest : List Ref) : findRef ((r, c) :: rest) r = some (r, c) := by
  simp [findRef, expansions]

/-- **A fetch of one reference gets what the word denotes.** -/
theorem Remote.denotes_of_wanted (h : R.wanted r = some ref) : R.denotes r = some ref.2 := by
  rw [wanted] at h
  rw [denotes, lookup]
  by_cases hid : isId r = true
  · rw [if_pos hid] at h ⊢
    split_ifs at h with hs
    obtain rfl := Option.some_inj.mp h
    exact if_pos hs.1
  · rw [if_neg hid] at h ⊢
    simp [h]

/-- After the fetch of one reference there is one commit. -/
theorem eq_of_target_fetchRef (h : (LocalRepo.fetchRef {} ref).target r = some c) : c = ref.2 := by
  have refs_eq : ∀ q ∈ (LocalRepo.fetchRef {} ref).refs, q.2 = ref.2 := by
    intro q hq
    have hq : q ∈ tracked ref := by simpa [LocalRepo.fetchRef] using hq
    rw [tracked] at hq
    split_ifs at hq
    · rw [List.mem_singleton.mp hq]
    · simp at hq
  have found : ∀ c, lookup (LocalRepo.fetchRef {} ref).allRefs
      (LocalRepo.fetchRef {} ref).objects r = some c →
      c = ref.2 := by
    intro c hc
    rcases mem_of_lookup hc with ⟨q, hq, rfl⟩ | hc
    · rcases List.mem_append.mp hq with hq | hq
      · simp only [LocalRepo.fetchRef, Option.toList_some, List.map_cons, List.map_nil,
          List.mem_singleton] at hq
        rw [hq]
      · exact refs_eq q hq
    · simpa [LocalRepo.fetchRef] using hc
  rw [LocalRepo.target] at h
  split_ifs at h
  · exact found c h
  · rcases Option.or_eq_some_iff.mp h with h | ⟨-, h⟩
    · exact found c h
    · obtain ⟨q, hq, rfl⟩ := Option.map_eq_some_iff.mp h
      exact refs_eq q (List.mem_of_find?_eq_some hq)

/-- `FETCH_HEAD` can be checked out after a fetch that has got something. -/
theorem target_fetchHead (h : s.fetchHead = some c) : s.target "FETCH_HEAD".toList = some c := by
  have id : isId "FETCH_HEAD".toList = false := by decide
  have found : lookup s.allRefs s.objects "FETCH_HEAD".toList = some c := by
    rw [lookup, id, LocalRepo.allRefs, h]
    simp [findRef_head]
  rw [LocalRepo.target, id, found]
  rfl

/-! ## After a fetch of everything -/

/-- Among references with different names a name stands for one. -/
theorem find?_name_iff (h : (refs.map Prod.fst).Nodup) {n : Text} :
    refs.find? (fun q => q.1 == n) = some ref ↔ ref ∈ refs ∧ ref.1 = n := by
  constructor
  · intro found
    exact ⟨List.mem_of_find?_eq_some found, by simpa using List.find?_some found⟩
  · rintro ⟨mem, rfl⟩
    cases found : refs.find? fun q => q.1 == ref.1 with
    | none =>
      have := List.find?_eq_none.mp found ref mem
      simp at this
    | some q =>
      have same : q.1 = ref.1 := by simpa using List.find?_some found
      rw [List.inj_on_of_nodup_map h (List.mem_of_find?_eq_some found) mem same]

/-- Among references with different names the first full name counts that one of them has. -/
theorem findRef_iff (h : (refs.map Prod.fst).Nodup) :
    (findRef refs r).map Prod.snd = some c ↔ ∃ ns n ns', expansions r = ns ++ n :: ns' ∧
      (n, c) ∈ refs ∧ ∀ m ∈ ns, ∀ d, (m, d) ∉ refs := by
  have find : ∀ n ref, refs.find? (fun q => q.1 == n) = some ref ↔
      (n, ref.2) ∈ refs ∧ ref.1 = n := by
    rintro n ⟨m, d⟩
    rw [find?_name_iff h]
    constructor
    · rintro ⟨mem, rfl⟩
      exact ⟨mem, rfl⟩
    · rintro ⟨mem, rfl⟩
      exact ⟨mem, rfl⟩
  have unfound : ∀ n, refs.find? (fun q => q.1 == n) = none ↔ ∀ d, (n, d) ∉ refs := by
    intro n
    rw [Option.eq_none_iff_forall_not_mem]
    constructor
    · intro h d hd
      exact h (n, d) ((find n (n, d)).mpr ⟨hd, rfl⟩)
    · intro h ref href
      exact h _ ((find n ref).mp href).1
  rw [Option.map_eq_some_iff]
  constructor
  · rintro ⟨ref, h, rfl⟩
    obtain ⟨ns, n, ns', he, hn, before⟩ := List.findSome?_eq_some_iff.mp h
    exact ⟨ns, n, ns', he, ((find _ _).mp hn).1, fun m hm => (unfound m).mp (before m hm)⟩
  · rintro ⟨ns, n, ns', he, hn, before⟩
    refine ⟨(n, c), List.findSome?_eq_some_iff.mpr ⟨ns, n, ns', he, ?_, ?_⟩, rfl⟩
    · exact (find _ _).mpr ⟨hn, rfl⟩
    · intro m hm
      exact (unfound m).mpr (before m hm)

theorem mem_allRefs_fetchAll {n : Text} :
    (n, c) ∈ (LocalRepo.fetchAll {} R).allRefs ↔ R.Brings n c := by
  simp only [LocalRepo.allRefs, LocalRepo.fetchAll, List.append_nil, List.mem_append, List.mem_map,
    Option.mem_toList, Option.map_eq_some_iff, List.mem_filter, List.contains_eq_mem,
    decide_eq_true_eq, Prod.mk.injEq]
  constructor
  · rintro (⟨-, ⟨b, hb, rfl⟩, rfl, rfl⟩ | ⟨b, hb, rfl, rfl⟩ | ⟨t, ⟨ht, on⟩, rfl, rfl⟩)
    · exact .first hb
    · exact .branch hb
    · exact .tag ht on
  · intro h
    cases h with
    | first hb => exact .inl ⟨_, ⟨_, hb, rfl⟩, rfl, rfl⟩
    | branch hb => exact .inr (.inl ⟨_, hb, rfl, rfl⟩)
    | tag ht on => exact .inr (.inr ⟨_, ⟨ht, on⟩, rfl, rfl⟩)

/-- Texts differ where their beginnings do. -/
theorem append_ne_append {s t : Text} (i : ℕ) (hs : i < s.length) (ht : i < t.length)
    (ne : s[i]? ≠ t[i]?) (a b : Text) : s ++ a ≠ t ++ b := by
  intro h
  have same := congrArg (fun u => u[i]?) h
  simp only [List.getElem?_append_left hs, List.getElem?_append_left ht] at same
  exact ne same

theorem tracking_ne_tag (a b : Text) : tracking a ≠ "refs/tags/".toList ++ b :=
  append_ne_append 5 (by decide) (by decide) (by decide) a b

theorem tracking_injective : Function.Injective tracking :=
  List.append_right_injective _

/-- The three kinds of names are different. -/
theorem nodup_allRefs_fetchAll : ((LocalRepo.fetchAll {} R).allRefs.map Prod.fst).Nodup := by
  have branches : (R.branches.map fun b => tracking b.1).Nodup := by
    simpa [Function.comp_def] using R.branch_names.map tracking_injective
  have tags : ((R.tags.filter fun t => R.history.contains t.2).map
      fun t => "refs/tags/".toList ++ t.1).Nodup := by
    have names := ((List.filter_sublist (p := fun t => R.history.contains t.2)).map Prod.fst).nodup
      R.tag_names
    simpa [Function.comp_def] using names.map (List.append_right_injective "refs/tags/".toList)
  simp only [LocalRepo.allRefs, LocalRepo.fetchAll, List.append_nil, List.map_append, List.map_map,
    Function.comp_def]
  refine List.nodup_append.mpr ⟨?_, List.nodup_append.mpr ⟨branches, tags, ?_⟩, ?_⟩
  · cases R.branches <;> simp
  · intro x hx y hy
    obtain ⟨a, -, rfl⟩ := List.mem_map.mp hx
    obtain ⟨b, -, rfl⟩ := List.mem_map.mp hy
    exact tracking_ne_tag _ _
  · intro x hx y hy
    obtain ⟨c, -, rfl⟩ := List.mem_map.mp hx
    rw [← List.append_nil "FETCH_HEAD".toList]
    rcases List.mem_append.mp hy with hy | hy
    all_goals
      obtain ⟨a, -, rfl⟩ := List.mem_map.mp hy
      exact append_ne_append 0 (by decide) (by decide) (by decide) [] _

/-- **A word is looked up among these names.** -/
theorem findRef_fetchAll_iff :
    (findRef (LocalRepo.fetchAll {} R).allRefs r).map Prod.snd = some c ↔ R.Brought r c := by
  simp only [findRef_iff nodup_allRefs_fetchAll, mem_allRefs_fetchAll]
  rfl

/-- The remote branch of this name. -/
theorem tracked_fetchAll_iff :
    ((LocalRepo.fetchAll {} R).refs.find? fun q => q.1 == tracking r).map Prod.snd = some c ↔
      (r, c) ∈ R.branches := by
  have names : ((LocalRepo.fetchAll {} R).refs.map Prod.fst).Nodup := by
    have all := nodup_allRefs_fetchAll (R := R)
    rw [LocalRepo.allRefs, List.map_append] at all
    exact (List.nodup_append.mp all).2.1
  rw [Option.map_eq_some_iff]
  constructor
  · rintro ⟨⟨n, d⟩, found, rfl⟩
    obtain ⟨mem, rfl⟩ := (find?_name_iff names).mp found
    simp only [LocalRepo.fetchAll, List.append_nil, List.mem_append, List.mem_map,
      Prod.mk.injEq] at mem
    rcases mem with ⟨b, hb, name, rfl⟩ | ⟨t, -, name, -⟩
    · rwa [← tracking_injective name]
    · exact absurd name.symm (tracking_ne_tag _ _)
  · intro h
    refine ⟨(tracking r, c), (find?_name_iff names).mpr ⟨?_, rfl⟩, rfl⟩
    simp only [LocalRepo.fetchAll, List.append_nil, List.mem_append, List.mem_map]
    exact .inl ⟨_, h, rfl⟩

/-- **What `git checkout` takes a word for after a fetch of everything.** -/
theorem target_fetchAll_iff : (LocalRepo.fetchAll {} R).target r = some c ↔ R.Keeps r c := by
  have objects : (LocalRepo.fetchAll {} R).objects = R.history := List.append_nil _
  cases full : isId r with
  | true =>
    rw [LocalRepo.target, lookup, objects, full, if_pos rfl, if_pos rfl]
    constructor
    · intro h
      split_ifs at h with on
      obtain rfl := Option.some_inj.mp h
      exact .id full on
    · rintro (⟨-, on⟩ | ⟨short, -⟩ | ⟨short, -, -⟩ | ⟨short, -, -, -⟩)
      · exact if_pos on
      all_goals simp [full] at short
  | false =>
    rw [LocalRepo.target, lookup, objects, full, if_neg Bool.false_ne_true,
      if_neg Bool.false_ne_true, Option.or_assoc, Option.or_eq_some_iff, findRef_fetchAll_iff,
      Option.or_eq_some_iff, tracked_fetchAll_iff]
    have unnamed : (findRef (LocalRepo.fetchAll {} R).allRefs r).map Prod.snd = none ↔
        ∀ d, ¬ R.Brought r d := by
      rw [Option.eq_none_iff_forall_not_mem]
      exact forall_congr' fun d => not_congr findRef_fetchAll_iff
    rw [unnamed]
    constructor
    · rintro (h | ⟨none, h | ⟨unknown, h⟩⟩)
      · exact .name full h
      · exact .commit full none h
      · exact .branch full none unknown h
    · rintro (⟨long, -⟩ | ⟨-, h⟩ | ⟨-, none, h⟩ | ⟨-, none, unknown, h⟩)
      · simp [full] at long
      · exact .inl h
      · exact .inr ⟨none, .inl h⟩
      · exact .inr ⟨none, .inr ⟨unknown, h⟩⟩

/-- What is kept is on a branch. -/
theorem Remote.Keeps.mem_history (h : R.Keeps r c) : c ∈ R.history := by
  cases h with
  | id _ on => exact on
  | name _ h =>
    obtain ⟨-, n, -, -, h, -⟩ := h
    cases h with
    | first h => exact R.branch_mem _ (List.mem_of_mem_head? h)
    | branch h => exact R.branch_mem _ h
    | tag _ on => exact on
  | commit _ _ h => exact mem_of_findId h
  | branch _ _ _ h => exact R.branch_mem _ h

/-! ## A plain word -/

/-- The first element with a property is the head, or comes later. -/
theorem exists_first_cons {α : Type*} {P Q : α → Prop} {a : α} {l : List α} :
    (∃ as b bs, a :: l = as ++ b :: bs ∧ P b ∧ ∀ x ∈ as, Q x) ↔
      P a ∨ Q a ∧ ∃ as b bs, l = as ++ b :: bs ∧ P b ∧ ∀ x ∈ as, Q x := by
  constructor
  · rintro ⟨as, b, bs, h, hb, has⟩
    cases as with
    | nil =>
      obtain ⟨rfl, -⟩ := List.cons.inj h
      exact .inl hb
    | cons x as =>
      obtain ⟨rfl, rfl⟩ := List.cons.inj h
      obtain ⟨hx, has⟩ := List.forall_mem_cons.mp has
      exact .inr ⟨hx, as, b, bs, rfl, hb, has⟩
  · rintro (ha | ⟨ha, as, b, bs, rfl, hb, has⟩)
    · exact ⟨[], a, l, rfl, ha, by simp⟩
    · exact ⟨a :: as, b, bs, rfl, hb, List.forall_mem_cons.mpr ⟨ha, has⟩⟩

/-- Tags come first. -/
theorem first_expansion_iff {B : Text → Commit → Prop}
    (other : ∀ n ∈ [r, "refs/".toList ++ r, "refs/remotes/".toList ++ r,
      "refs/remotes/".toList ++ r ++ "/HEAD".toList], ∀ d, ¬ B n d) :
    (∃ ns n ns', expansions r = ns ++ n :: ns' ∧ B n c ∧ ∀ m ∈ ns, ∀ d, ¬ B m d) ↔
      B ("refs/tags/".toList ++ r) c ∨
        (∀ d, ¬ B ("refs/tags/".toList ++ r) d) ∧ B ("refs/heads/".toList ++ r) c := by
  simp only [List.forall_mem_cons] at other
  obtain ⟨h₁, h₂, h₃, h₄, -⟩ := other
  simp only [expansions, exists_first_cons, h₁, h₂, h₃, h₄]
  simp

theorem mem_refs {n : Text} : (n, c) ∈ R.refs ↔
    (n = "HEAD".toList ∧ (R.defaultBranch, c) ∈ R.branches) ∨
      (∃ b, n = "refs/heads/".toList ++ b ∧ (b, c) ∈ R.branches) ∨
        ∃ t, n = "refs/tags/".toList ++ t ∧ (t, c) ∈ R.tags := by
  simp only [Remote.refs, List.mem_append, List.mem_map, List.mem_filter, beq_iff_eq,
    Prod.mk.injEq, Prod.exists, or_assoc]
  constructor
  · rintro (⟨b, d, ⟨h, rfl⟩, rfl, rfl⟩ | ⟨b, d, h, rfl, rfl⟩ | ⟨t, d, h, rfl, rfl⟩)
    · exact .inl ⟨rfl, h⟩
    · exact .inr (.inl ⟨b, rfl, h⟩)
    · exact .inr (.inr ⟨t, rfl, h⟩)
  · rintro (⟨rfl, h⟩ | ⟨b, rfl, h⟩ | ⟨t, rfl, h⟩)
    · exact .inl ⟨_, _, ⟨h, rfl⟩, rfl, rfl⟩
    · exact .inr (.inl ⟨b, c, h, rfl, rfl⟩)
    · exact .inr (.inr ⟨t, c, h, rfl, rfl⟩)

theorem nodup_refs : (R.refs.map Prod.fst).Nodup := by
  have one : ((R.branches.filter fun b => b.1 == R.defaultBranch).map
      fun b => "HEAD".toList).Nodup := by
    refine List.Nodup.map_on (fun x hx y hy _ => ?_) (R.branch_names.of_map.filter _)
    obtain ⟨hx, ex⟩ := List.mem_filter.mp hx
    obtain ⟨hy, ey⟩ := List.mem_filter.mp hy
    have same : x.1 = y.1 := (beq_iff_eq.mp ex).trans (beq_iff_eq.mp ey).symm
    exact List.inj_on_of_nodup_map R.branch_names hx hy same
  have branches : (R.branches.map fun b => "refs/heads/".toList ++ b.1).Nodup := by
    simpa [Function.comp_def] using
      R.branch_names.map (List.append_right_injective "refs/heads/".toList)
  have tags : (R.tags.map fun t => "refs/tags/".toList ++ t.1).Nodup := by
    simpa [Function.comp_def] using
      R.tag_names.map (List.append_right_injective "refs/tags/".toList)
  simp only [Remote.refs, List.map_append, List.map_map, Function.comp_def]
  refine List.nodup_append.mpr ⟨List.nodup_append.mpr ⟨one, branches, ?_⟩, tags, ?_⟩
  · intro x hx y hy
    obtain ⟨c, -, rfl⟩ := List.mem_map.mp hx
    obtain ⟨a, -, rfl⟩ := List.mem_map.mp hy
    rw [← List.append_nil "HEAD".toList]
    exact append_ne_append 0 (by decide) (by decide) (by decide) [] _
  · intro x hx y hy
    obtain ⟨b, -, rfl⟩ := List.mem_map.mp hy
    rcases List.mem_append.mp hx with hx | hx
    · obtain ⟨a, -, rfl⟩ := List.mem_map.mp hx
      rw [← List.append_nil "HEAD".toList]
      exact append_ne_append 0 (by decide) (by decide) (by decide) [] _
    · obtain ⟨a, -, rfl⟩ := List.mem_map.mp hx
      exact append_ne_append 5 (by decide) (by decide) (by decide) _ _

theorem findId_of_unabbreviated (h : ∀ c ∈ commits, abbreviates r c = false) :
    findId commits r = none := by
  have none : commits.filter (abbreviates r) = [] := by simpa using h
  rw [findId, none]

/-- `HEAD` and `FETCH_HEAD` are not among the other names. -/
theorem refs_append_ne {n : Text} (hn : n.head? ≠ some 'r') (t : Text) :
    "refs/".toList ++ t ≠ n := by
  rintro rfl
  exact hn rfl

theorem brings_cases {n : Text} (h : R.Brings n c) :
    (n = "FETCH_HEAD".toList ∧ c ∈ R.history) ∨
      (∃ b, n = "refs/remotes/origin/".toList ++ b ∧ (b, c) ∈ R.branches) ∨
        ∃ t, n = "refs/tags/".toList ++ t ∧ (t, c) ∈ R.tags ∧ c ∈ R.history := by
  cases h with
  | first h => exact .inl ⟨rfl, R.branch_mem _ (List.mem_of_mem_head? h)⟩
  | branch h => exact .inr (.inl ⟨_, rfl, h⟩)
  | tag h on => exact .inr (.inr ⟨_, rfl, h, on⟩)

theorem brings_tag_iff :
    R.Brings ("refs/tags/".toList ++ r) c ↔ (r, c) ∈ R.tags ∧ c ∈ R.history := by
  constructor
  · intro hb
    rcases brings_cases hb with ⟨e, -⟩ | ⟨b, e, -⟩ | ⟨t, e, mem⟩
    · exact absurd e (refs_append_ne (by decide) ("tags/".toList ++ r))
    · exact absurd e (append_ne_append 5 (by decide) (by decide) (by decide) r b)
    · rwa [List.append_cancel_left e]
  · rintro ⟨mem, on⟩
    exact .tag mem on

namespace Remote.Plain

variable (h : R.Plain r)
include h

/-- It does not begin with a directory. -/
theorem ne_directory {dir : Text} (hd : '/' ∈ dir) (a : Text) : r ≠ dir ++ a := by
  rintro rfl
  exact h.slash (List.mem_append_left _ hd)

theorem not_mem_refs : ∀ n ∈ [r, "refs/".toList ++ r, "refs/remotes/".toList ++ r,
    "refs/remotes/".toList ++ r ++ "/HEAD".toList], ∀ d, (n, d) ∉ R.refs := by
  have remote : ∀ t d, ("refs/remotes/".toList ++ t, d) ∉ R.refs := by
    intro t d mem
    rcases mem_refs.mp mem with ⟨e, -⟩ | ⟨b, e, -⟩ | ⟨b, e, -⟩
    · exact refs_append_ne (by decide) ("remotes/".toList ++ t) e
    · exact append_ne_append 5 (by decide) (by decide) (by decide) t b e
    · exact append_ne_append 5 (by decide) (by decide) (by decide) t b e
  simp only [List.forall_mem_cons, List.append_assoc]
  refine ⟨fun d mem => ?_, fun d mem => ?_, remote _, remote _, by simp⟩
  · rcases mem_refs.mp mem with ⟨e, -⟩ | ⟨b, e, -⟩ | ⟨b, e, -⟩
    · exact h.head e
    · exact h.ne_directory (by decide) b e
    · exact h.ne_directory (by decide) b e
  · rcases mem_refs.mp mem with ⟨e, -⟩ | ⟨b, e, -⟩ | ⟨b, e, -⟩
    · exact refs_append_ne (by decide) r e
    · have e : "refs/".toList ++ r = "refs/".toList ++ ("heads/".toList ++ b) := e
      exact h.ne_directory (by decide) b (List.append_cancel_left e)
    · have e : "refs/".toList ++ r = "refs/".toList ++ ("tags/".toList ++ b) := e
      exact h.ne_directory (by decide) b (List.append_cancel_left e)

theorem not_brings : ∀ n ∈ [r, "refs/".toList ++ r, "refs/remotes/".toList ++ r,
    "refs/remotes/".toList ++ r ++ "/HEAD".toList], ∀ d, ¬ R.Brings n d := by
  simp only [List.forall_mem_cons, List.append_assoc]
  refine ⟨fun d hd => ?_, fun d hd => ?_, fun d hd => ?_, fun d hd => ?_, by simp⟩
  · rcases brings_cases hd with ⟨e, -⟩ | ⟨b, e, -⟩ | ⟨b, e, -⟩
    · exact h.fetchHead e
    · exact h.ne_directory (by decide) b e
    · exact h.ne_directory (by decide) b e
  · rcases brings_cases hd with ⟨e, -⟩ | ⟨b, e, -⟩ | ⟨b, e, -⟩
    · exact refs_append_ne (by decide) r e
    · have e : "refs/".toList ++ r = "refs/".toList ++ ("remotes/origin/".toList ++ b) := e
      exact h.ne_directory (by decide) b (List.append_cancel_left e)
    · have e : "refs/".toList ++ r = "refs/".toList ++ ("tags/".toList ++ b) := e
      exact h.ne_directory (by decide) b (List.append_cancel_left e)
  · rcases brings_cases hd with ⟨e, -⟩ | ⟨b, e, -⟩ | ⟨b, e, -⟩
    · exact refs_append_ne (by decide) ("remotes/".toList ++ r) e
    · have e : "refs/remotes/".toList ++ r = "refs/remotes/".toList ++ ("origin/".toList ++ b) := e
      exact h.ne_directory (by decide) b (List.append_cancel_left e)
    · exact append_ne_append 5 (by decide) (by decide) (by decide) r b e
  · rcases brings_cases hd with ⟨e, -⟩ | ⟨b, e, -⟩ | ⟨b, e, -⟩
    · exact refs_append_ne (by decide) ("remotes/".toList ++ (r ++ "/HEAD".toList)) e
    · have e : "refs/remotes/".toList ++ (r ++ '/' :: "HEAD".toList) =
        "refs/remotes/".toList ++ ("origin".toList ++ '/' :: b) := e
      have origin := (List.append_cons_inj_of_notMem h.slash (by decide)).mp
        (List.append_cancel_left e)
      exact h.origin origin.1
    · exact append_ne_append 5 (by decide) (by decide) (by decide) _ b e

/-- **A plain word denotes a tag, or else a branch.** -/
theorem denotes_iff : R.denotes r = some c ↔
    (r, c) ∈ R.tags ∨ (∀ d, (r, d) ∉ R.tags) ∧ (r, c) ∈ R.branches := by
  have tag : ∀ d, ("refs/tags/".toList ++ r, d) ∈ R.refs ↔ (r, d) ∈ R.tags := by
    intro d
    rw [mem_refs]
    constructor
    · rintro (⟨e, -⟩ | ⟨b, e, -⟩ | ⟨t, e, mem⟩)
      · exact absurd e (refs_append_ne (by decide) ("tags/".toList ++ r))
      · exact absurd e (append_ne_append 5 (by decide) (by decide) (by decide) r b)
      · rwa [List.append_cancel_left e]
    · exact fun mem => .inr (.inr ⟨r, rfl, mem⟩)
  have branch : ∀ d, ("refs/heads/".toList ++ r, d) ∈ R.refs ↔ (r, d) ∈ R.branches := by
    intro d
    rw [mem_refs]
    constructor
    · rintro (⟨e, -⟩ | ⟨b, e, mem⟩ | ⟨t, e, -⟩)
      · exact absurd e (refs_append_ne (by decide) ("heads/".toList ++ r))
      · rwa [List.append_cancel_left e]
      · exact absurd e (append_ne_append 5 (by decide) (by decide) (by decide) r t)
    · exact fun mem => .inr (.inl ⟨r, rfl, mem⟩)
  rw [Remote.denotes, lookup, h.short, if_neg Bool.false_ne_true,
    findId_of_unabbreviated h.unabbreviated, Option.or_none, findRef_iff nodup_refs,
    first_expansion_iff (B := fun n d => (n, d) ∈ R.refs) h.not_mem_refs]
  simp only [tag, branch]

/-- **After a fetch of everything** it stands for a tag on a branch, or else for a branch. -/
theorem keeps_iff : R.Keeps r c ↔ ((r, c) ∈ R.tags ∧ c ∈ R.history) ∨
    (∀ d, (r, d) ∈ R.tags → d ∉ R.history) ∧ (r, c) ∈ R.branches := by
  have unnamed : findId R.history r = none :=
    findId_of_unabbreviated fun d hd => h.unabbreviated d (R.history_sub hd)
  have branch : ∀ d, ¬ R.Brings ("refs/heads/".toList ++ r) d := by
    intro d hb
    rcases brings_cases hb with ⟨e, -⟩ | ⟨b, e, -⟩ | ⟨t, e, -⟩
    · exact refs_append_ne (by decide) ("heads/".toList ++ r) e
    · exact append_ne_append 5 (by decide) (by decide) (by decide) r b e
    · exact append_ne_append 5 (by decide) (by decide) (by decide) r t e
  have brought : ∀ d, R.Brought r d ↔ (r, d) ∈ R.tags ∧ d ∈ R.history := by
    intro d
    rw [Brought, first_expansion_iff h.not_brings]
    constructor
    · rintro (hb | ⟨-, hb⟩)
      · exact brings_tag_iff.mp hb
      · exact absurd hb (branch d)
    · exact fun ht => .inl (brings_tag_iff.mpr ht)
  constructor
  · rintro (⟨full, -⟩ | ⟨-, hb⟩ | ⟨-, -, hc⟩ | ⟨-, none, -, hb⟩)
    · simp [h.short] at full
    · exact .inl ((brought c).mp hb)
    · simp [unnamed] at hc
    · exact .inr ⟨fun d ht on => none d ((brought d).mpr ⟨ht, on⟩), hb⟩
  · rintro (ht | ⟨off, hb⟩)
    · exact .name h.short ((brought c).mpr ht)
    · refine .branch h.short (fun d hd => ?_) unnamed hb
      obtain ⟨ht, on⟩ := (brought d).mp hd
      exact off d ht on

end Remote.Plain

end Git

end Git
