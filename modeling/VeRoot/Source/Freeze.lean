import VeRoot.Source.Directories

/-!
# Freezing the sources

`git_clone` looks up `GIT_$(L)_dir` for the reference to check out, and records
`$(SOURCE)/$(L)/dir:ref`.  `mk/git/git.sh` takes that record apart again: it cuts
the third and the fourth component out of the path relative to `VEBASE`, and
`mk/git/freeze.sh` prints an assignment to the variable they spell.

## Main definitions

* `Repo`, `gitRepo`, `gitVariable` — what `git_clone_impl` records and consults.
* `layerOf`, `repoName`, `freezeLine` — what the scripts make of it.
* `FreezePins` — what is wanted of a recipe.
* `TwoLevels`, `Ambiguous` — what decides it.
* `freezePins_iff` — the main result.
-/

namespace VeRoot

open Unix (Text)

/-- A text that make takes for one word of a target: white space would separate words, and a
colon ends the targets. -/
def Word (t : Text) : Prop := ':' ∉ t ∧ ∀ c ∈ t, c.isWhitespace = false

instance (t : Text) : Decidable (Word t) :=
  @instDecidableAnd _ _ inferInstance (List.decidableBAll (fun c => c.isWhitespace = false) t)

/-- Where the sources and the scripts are. -/
structure Root extends Place where
  /-- `$(VEBASE)`, which is a `realpath`. -/
  vebase : Unix.Path
  plain_vebase : ∀ c ∈ vebase, Unix.Plain c ∧ Word c
  base_names : ∀ c ∈ base, '/' ∉ c ∧ Word c
  recipe_name : Word recipe

/-- One `git_clone`: `$(LAYER)` and the checkout-dir. -/
structure Repo where
  layer : Text
  dir : Text
  layer_name : Word layer
  dir_name : Word dir ∧ dir ≠ []
  deriving DecidableEq

/-- `$(L)`, for the layer `x`. -/
def layerWord (x : Text) : Text := "L_".toList ++ x

/-- `GIT_$(L)_dir`, the variable that `git_clone_impl` consults. -/
def gitVariable (x dir : Text) : Text := "GIT_".toList ++ (layerWord x ++ '_' :: dir)

/-- The word `git_clone_impl` appends to `$(L)_git-repos`. -/
def gitRepo (T : Root) (x dir ref : Text) : Text :=
  '/' :: Unix.spell (T.checkout (layerWord x) dir) ++ ':' :: ref

/-! ## The scripts -/

/-- `repo_rel` -/
def repoRel (vebase : Unix.Path) (g : Text) : Text :=
  let rel := Unix.relativeTo vebase (Unix.resolve (Unix.components (Unix.cut ':' 1 g)))
  Unix.spell (if rel = [] then [Unix.dot] else rel)

/-- `layer` -/
def layerOf (vebase : Unix.Path) (g : Text) : Text := Unix.cut '/' 3 (repoRel vebase g)

/-- `repo_name` -/
def repoName (vebase : Unix.Path) (g : Text) : Text := Unix.cut '/' 4 (repoRel vebase g)

/-- The variable that `freeze.sh` assigns to. -/
def frozenVariable (vebase : Unix.Path) (g : Text) : Text :=
  "GIT_".toList ++ (layerOf vebase g ++ '_' :: repoName vebase g)

/-- The line that `freeze.sh` prints. -/
def freezeLine (vebase : Unix.Path) (g describe : Text) : Text :=
  frozenVariable vebase g ++ ":=".toList ++ describe

/-! ## What is wanted -/

/-- The value of a variable after assignments: the last one counts. -/
def assigned (config : List (Text × Text)) (name : Text) : Option Text :=
  (config.reverse.find? fun e => e.1 = name).map Prod.snd

/-- The assignments `make git.freeze` prints. -/
def freeze (T : Root) (ref describe : Text → Text → Text) (repos : List Repo) : List (Text × Text) :=
  repos.map fun r =>
    (frozenVariable T.vebase (gitRepo T r.layer r.dir (ref r.layer r.dir)), describe r.layer r.dir)

/-- For the layer `x` and the directory `dir`, `freeze.sh` assigns to the variable that
`git_clone` consults. -/
def Agrees (T : Root) (x dir : Text) : Prop :=
  ∀ ref describe, freezeLine T.vebase (gitRepo T x dir ref) describe =
    gitVariable x dir ++ ":=".toList ++ describe

/-- Freezing and cloning agree on the repositories of a recipe: on every directory, whatever
its layer is called; repositories get variables of their own; and with the output of
`git.freeze` at the end of `.config` every repository is pinned.

Paths are taken by their texts, as where no symbolic link is on the way.  `.config` is a list of
assignments here; make reads it as text, where a name with `=`, `#` or `$` would be another one. -/
def FreezePins (T : Root) (repos : List Repo) : Prop :=
  (∀ r ∈ repos, Agrees T r.layer r.dir ∧ ∀ x, Word x → '/' ∉ x → Agrees T x r.dir) ∧
  (∀ r ∈ repos, ∀ q ∈ repos, r ≠ q → ∀ ref ref',
    frozenVariable T.vebase (gitRepo T r.layer r.dir ref) ≠
      frozenVariable T.vebase (gitRepo T q.layer q.dir ref')) ∧
  ∀ config ref describe, ∀ r ∈ repos,
    assigned (config ++ freeze T ref describe repos) (gitVariable r.layer r.dir) =
      some (describe r.layer r.dir)

/-- `SOURCE` is two steps away from `VEBASE`, and `VEBASE` is not the directory of a
repository. -/
def TwoLevels (T : Root) : Prop :=
  (Unix.relativeTo T.vebase (Unix.resolve T.source)).length = 2 ∧
    ∀ x dir, T.vebase ≠ Unix.resolve T.source ++ [layerWord x, dir]

/-- Two repositories of which one moves a part of its name from the directory into the
layer. -/
def Ambiguous (repos : List Repo) : Prop :=
  ∃ r ∈ repos, ∃ q ∈ repos, ∃ m,
    r.dir = m ++ '_' :: q.dir ∧ q.layer = r.layer ++ '_' :: m

section Freeze

variable {T : Root} {x y dir ref describe : Text} {r q : Repo} {repos : List Repo} {p : Unix.Path}
  {c : Text}

/-! ## Names -/

/-- Different repositories spell the same variable only if they are ambiguous. -/
theorem ambiguous_of_gitVariable (hr : r ∈ repos) (hq : q ∈ repos) (hne : r ≠ q)
    (h : gitVariable r.layer r.dir = gitVariable q.layer q.dir) : Ambiguous repos := by
  have hname : r.layer ++ '_' :: r.dir = q.layer ++ '_' :: q.dir := by
    simpa [gitVariable, layerWord] using h
  rcases List.append_eq_append_iff.mp hname with ⟨m, hq', hr'⟩ | ⟨m, hr', hq'⟩
  · cases m with
    | nil =>
      obtain ⟨rl, rd, _, _⟩ := r
      obtain ⟨ql, qd, _, _⟩ := q
      simp_all
    | cons u m =>
      obtain ⟨rfl, hdir⟩ : '_' = u ∧ r.dir = m ++ '_' :: q.dir := by simpa using hr'
      exact ⟨r, hr, q, hq, m, hdir, hq'⟩
  · cases m with
    | nil =>
      obtain ⟨rl, rd, _, _⟩ := r
      obtain ⟨ql, qd, _, _⟩ := q
      simp_all
    | cons u m =>
      obtain ⟨rfl, hdir⟩ : '_' = u ∧ q.dir = m ++ '_' :: r.dir := by simpa using hq'
      exact ⟨q, hq, r, hr, m, hdir, hr'⟩

theorem gitVariable_of_ambiguous {m : Text} (hdir : r.dir = m ++ '_' :: q.dir)
    (hlayer : q.layer = r.layer ++ '_' :: m) :
    gitVariable r.layer r.dir = gitVariable q.layer q.dir := by
  simp [gitVariable, layerWord, hdir, hlayer]

theorem agrees_iff : Agrees T x dir ↔
    ∀ ref, frozenVariable T.vebase (gitRepo T x dir ref) = gitVariable x dir := by
  constructor
  · intro h ref
    simpa [freezeLine] using h ref []
  · intro h ref describe
    rw [freezeLine, h]

/-! ## What the scripts see -/

theorem checkout_names (hx : ':' ∉ x) (hd : ':' ∉ dir) :
    ∀ c ∈ T.checkout (layerWord x) dir, '/' ∉ c ∧ ':' ∉ c := by
  have text : ∀ t : Text, ':' ∉ t → ∀ c ∈ Unix.components t, '/' ∉ c ∧ ':' ∉ c := fun t ht c hc =>
    ⟨Unix.notMem_of_mem_components hc, Unix.notMem_component (by decide) ht c hc⟩
  intro c hc
  simp only [Place.checkout, Place.source, Place.sourceBase, List.mem_append, List.mem_cons] at hc
  rcases hc with ((hc | rfl | hc) | hc) | hc
  · exact ⟨(T.base_names c hc).1, (T.base_names c hc).2.1⟩
  · decide
  · exact text _ T.recipe_name.1 c hc
  · exact text _ (by simpa [layerWord] using hx) c hc
  · exact text _ hd c hc

theorem checkout_ne_nil : T.checkout x dir ≠ [] := by
  simp [Place.checkout, Place.source, Place.sourceBase]

/-- The path from `VEBASE` to a repository. -/
def relOf (T : Root) (x dir : Text) : Unix.Path :=
  Unix.relativeTo T.vebase (Unix.resolve (T.checkout (layerWord x) dir))

theorem repoRel_gitRepo (hx : ':' ∉ x) (hd : ':' ∉ dir) :
    repoRel T.vebase (gitRepo T x dir ref) =
      Unix.spell (if relOf T x dir = [] then [Unix.dot] else relOf T x dir) := by
  have hnames := checkout_names (T := T) hx hd
  have hcolon : ':' ∉ '/' :: Unix.spell (T.checkout (layerWord x) dir) := by
    rw [List.mem_cons, Unix.mem_spell (by decide)]
    rintro (h | ⟨c, hc, h⟩)
    · exact absurd h (by decide)
    · exact (hnames c hc).2 h
  rw [repoRel, gitRepo, Unix.cut_one hcolon,
    Unix.resolve_components_spell (fun c hc => (hnames c hc).1) checkout_ne_nil]
  rfl

/-- The components of that path have no slash. -/
theorem notMem_relOf (hx : ':' ∉ x) (hd : ':' ∉ dir) (hc : c ∈ relOf T x dir) : '/' ∉ c := by
  rcases Unix.mem_relativeTo hc with rfl | hc
  · decide
  · exact (Unix.plain_of_mem_resolve (fun c hc => (checkout_names hx hd c hc).1) c hc).2.2.2

/-- The field of a path that `cut` takes for the component number `i`, counted from 0: a path
of one component is taken as a whole. -/
def field (p : Unix.Path) (i : ℕ) : Text :=
  match p with
  | [] => Unix.dot
  | [c] => c
  | p => p.getD i []

theorem field_of_two_le (hp : 2 ≤ p.length) (i : ℕ) : field p i = p.getD i [] := by
  rcases p with _ | ⟨c, _ | ⟨d, p⟩⟩
  · simp at hp
  · simp at hp
  · rfl

theorem field_cases (p : Unix.Path) (i : ℕ) : field p i = [] ∨ field p i = Unix.dot ∨ field p i ∈ p := by
  rcases p with _ | ⟨c, _ | ⟨d, p⟩⟩
  · exact .inr (.inl rfl)
  · exact .inr (.inr (List.mem_singleton.mpr rfl))
  · rw [field_of_two_le (by simp)]
    rw [List.getD_eq_getElem?_getD]
    cases hi : (c :: d :: p)[i]? with
    | none => exact .inl rfl
    | some e => exact .inr (.inr (List.mem_of_getElem? hi))

/-- What `freeze.sh` assigns to, in terms of the path. -/
theorem frozenVariable_gitRepo (hx : ':' ∉ x) (hd : ':' ∉ dir) :
    frozenVariable T.vebase (gitRepo T x dir ref) =
      "GIT_".toList ++ (field (relOf T x dir) 2 ++ '_' :: field (relOf T x dir) 3) := by
  have names : ∀ c ∈ relOf T x dir, '/' ∉ c := fun c hc => notMem_relOf hx hd hc
  rw [frozenVariable, layerOf, repoName, repoRel_gitRepo hx hd]
  rcases hrel : relOf T x dir with _ | ⟨c, _ | ⟨d, p⟩⟩
  · have hspell : Unix.spell [Unix.dot] = Unix.dot := by simp [Unix.spell]
    rw [if_pos rfl, hspell, Unix.cut_of_notMem (by decide), Unix.cut_of_notMem (by decide)]
    rfl
  · have hspell : Unix.spell [c] = c := by simp [Unix.spell]
    have hc : '/' ∉ c := names c (by simp [hrel])
    rw [if_neg (by simp), hspell, Unix.cut_of_notMem hc, Unix.cut_of_notMem hc]
    rfl
  · rw [hrel] at names
    rw [if_neg (by simp), Unix.cut_spell names 3 (by simp), Unix.cut_spell names 4 (by simp)]
    rfl

theorem agrees_iff_field (hx : ':' ∉ x) (hd : ':' ∉ dir) : Agrees T x dir ↔
    field (relOf T x dir) 2 ++ '_' :: field (relOf T x dir) 3 = layerWord x ++ '_' :: dir := by
  simp only [agrees_iff, frozenVariable_gitRepo hx hd, gitVariable, List.append_cancel_left_eq,
    forall_const]

/-! ## When the scripts agree -/

theorem plain_layerWord (h : '/' ∉ x) : Unix.Plain (layerWord x) := by
  refine ⟨by simp [layerWord], ?_, ?_, by simpa [layerWord] using h⟩ <;>
    simp [layerWord, Unix.dot, Unix.dotdot]

/-- The directory of a repository, below the directory of its layer. -/
theorem resolve_checkout (hx : '/' ∉ x) (hs : '/' ∉ dir) :
    Unix.resolve (T.checkout (layerWord x) dir) =
      Unix.walk (Unix.resolve T.source ++ [layerWord x]) dir := by
  have hl : '/' ∉ layerWord x := (plain_layerWord hx).2.2.2
  rw [Place.checkout, Unix.components_of_notMem hl, Unix.components_of_notMem hs,
    Unix.resolve_append, (plain_layerWord hx).resolve_concat]
  rfl

/-- A name with a slash is never spelled. -/
theorem Agrees.notMem (hx : ':' ∉ x) (hd : ':' ∉ dir) (h : Agrees T x dir) : '/' ∉ x ∧ '/' ∉ dir := by
  rw [agrees_iff_field hx hd] at h
  have hfield : ∀ i, '/' ∉ field (relOf T x dir) i := by
    intro i
    rcases field_cases (relOf T x dir) i with e | e | e
    · simp [e]
    · rw [e]; decide
    · exact notMem_relOf hx hd e
  have hno : '/' ∉ layerWord x ++ '_' :: dir := by
    rw [← h, List.mem_append, List.mem_cons]
    rintro (h | h | h)
    · exact hfield 2 h
    · exact absurd h (by decide)
    · exact hfield 3 h
  simpa [layerWord] using hno

/-- The path from `VEBASE` to a repository leads through `SOURCE`, unless `VEBASE` is in the
directory of its layer. -/
theorem relOf_eq (hx : '/' ∉ x) (hp : Unix.Plain dir)
    (hv : ¬ Unix.resolve T.source ++ [layerWord x] <+: T.vebase) :
    relOf T x dir = Unix.relativeTo T.vebase (Unix.resolve T.source) ++ [layerWord x, dir] := by
  rw [relOf, resolve_checkout hx hp.2.2.2, hp.walk, List.append_assoc, List.singleton_append,
    Unix.relativeTo_append_right hv]

/-- **At two levels the scripts agree.** -/
theorem TwoLevels.agrees (h : TwoLevels T) (hx : ':' ∉ x) (hd : ':' ∉ dir) (hs : '/' ∉ x)
    (hp : Unix.Plain dir) : Agrees T x dir := by
  obtain ⟨hlen, hout⟩ := h
  have hv : ¬ Unix.resolve T.source ++ [layerWord x] <+: T.vebase := by
    rintro ⟨r, hr⟩
    have hrel : Unix.relativeTo T.vebase (Unix.resolve T.source) =
        (layerWord x :: r).map fun _ => Unix.dotdot := by
      rw [← hr, List.append_assoc]
      simpa [Unix.relativeTo] using
        Unix.relativeTo_append_left (Unix.resolve T.source) (layerWord x :: r) []
    rw [hrel, List.length_map, List.length_cons] at hlen
    obtain ⟨c, rfl⟩ := List.length_eq_one_iff.mp (by omega : r.length = 1)
    exact hout x c (by simpa using hr.symm)
  obtain ⟨a, b, hab⟩ := List.length_eq_two.mp hlen
  rw [agrees_iff_field hx hd, relOf_eq hs hp hv, hab]
  rfl

/-! ## When they do not -/

/-- Some number bounds the length of every component. -/
theorem exists_length_le (p : Unix.Path) : ∃ n, ∀ c ∈ p, c.length ≤ n := by
  induction p with
  | nil => exact ⟨0, by simp⟩
  | cons c p ih =>
    obtain ⟨n, hn⟩ := ih
    refine ⟨max c.length n, ?_⟩
    simpa using fun d hd => .inr (hn d hd)

/-- A layer name longer than `n`. -/
def longName (n : ℕ) : Text := List.replicate n 'a'

theorem length_layerWord (x : Text) : (layerWord x).length = x.length + 2 := by simp [layerWord]

/-- A long layer name in the fourth field does not come to stand in front. -/
theorem longName_ne {n : ℕ} {u d : Text} (hu : u.length < n) :
    u ++ '_' :: layerWord (longName n) ≠ layerWord (longName n) ++ '_' :: d := by
  intro h
  have := congrArg (fun t => t[n + 2]?) h
  simp only [layerWord, longName] at this
  rw [List.getElem?_append_right (by omega), List.getElem?_append_right (by simp)] at this
  obtain ⟨k, hk⟩ : ∃ k, n + 2 - u.length = k + 3 := ⟨n - 1 - u.length, by omega⟩
  rw [hk] at this
  have hmem : (List.replicate n 'a')[k]? = some '_' := by simpa using this
  exact absurd (List.eq_of_mem_replicate (List.mem_of_getElem? hmem)) (by decide)

/-- The fields of short components do not spell a variable of a long layer name. -/
theorem short_ne {n : ℕ} {u v l d : Text} (hu : u.length ≤ n) (hv : v.length ≤ n)
    (hl : 2 * n < l.length) : u ++ '_' :: v ≠ l ++ '_' :: d := by
  intro h
  have := congrArg List.length h
  simp only [List.length_append, List.length_cons] at this
  omega

/-- Away from `VEBASE` by more or less than two steps, the layer name is not the third field. -/
theorem length_eq_two_of_field {n : ℕ} {rs : Unix.Path} {d : Text} (hn : 0 < n)
    (hrs : ∀ c ∈ rs, c.length ≤ n) (hd : d.length ≤ n)
    (h : field (rs ++ [layerWord (longName (2 * n)), d]) 2 ++
        '_' :: field (rs ++ [layerWord (longName (2 * n)), d]) 3 =
      layerWord (longName (2 * n)) ++ '_' :: d) : rs.length = 2 := by
  have hl : 2 * n < (layerWord (longName (2 * n))).length := by simp [length_layerWord, longName]
  rw [field_of_two_le (by simp), field_of_two_le (by simp)] at h
  rcases rs with _ | ⟨a, _ | ⟨b, _ | ⟨c, _ | ⟨e, rs⟩⟩⟩⟩
  · exact absurd h (short_ne (n := n) (by simp) (by simp) hl)
  · exact absurd h (short_ne (n := n) (by simpa using hd) (by simp) hl)
  · rfl
  · have hc : c.length < 2 * n := by have := hrs c (by simp); omega
    exact absurd h (longName_ne hc)
  · exact absurd h (short_ne (n := n) (hrs c (by simp)) (hrs e (by simp)) hl)

/-- The directory of the layer itself is not spelled. -/
theorem field_concat_ne {n : ℕ} {rs : Unix.Path} (hn : 0 < n) (hrs : ∀ c ∈ rs, c.length ≤ n) :
    field (rs ++ [layerWord (longName (2 * n))]) 2 ++
        '_' :: field (rs ++ [layerWord (longName (2 * n))]) 3 ≠
      layerWord (longName (2 * n)) ++ '_' :: Unix.dot := by
  have hl : 2 * n < (layerWord (longName (2 * n))).length := by simp [length_layerWord, longName]
  rcases rs with _ | ⟨a, _ | ⟨b, _ | ⟨c, _ | ⟨e, rs⟩⟩⟩⟩
  · intro h
    have := congrArg List.length h
    simp [field, Unix.dot, length_layerWord, longName] at this
  · exact short_ne (n := n) (by simp [field]) (by simp [field]) hl
  · simp [field, Unix.dot]
  · have hc : c.length < 2 * n := by have := hrs c (by simp); omega
    exact longName_ne hc
  · exact short_ne (n := n) (hrs c (by simp)) (hrs e (by simp)) hl

theorem length_field_le {n : ℕ} (hn : 0 < n) (hp : ∀ c ∈ p, c.length ≤ n) (i : ℕ) :
    (field p i).length ≤ n := by
  rcases field_cases p i with e | e | e
  · simp [e]
  · rw [e]; exact hn
  · exact hp _ e

/-- **Nowhere else do the scripts agree for all layer names.** -/
theorem twoLevels_of_agrees (hd : ':' ∉ dir) (hne : dir ≠ []) (hs : '/' ∉ dir)
    (h : ∀ x, Word x → '/' ∉ x → Agrees T x dir) : TwoLevels T ∧ Unix.Plain dir := by
  obtain ⟨m, hm⟩ := exists_length_le (dir :: Unix.dotdot :: (T.vebase ++ Unix.resolve T.source))
  have hm0 : 0 < m := lt_of_lt_of_le (by decide) (hm Unix.dotdot (by simp))
  have hshort : ∀ c ∈ Unix.relativeTo T.vebase (Unix.resolve T.source), c.length ≤ m := by
    intro c hc
    rcases Unix.mem_relativeTo hc with rfl | hc <;> exact hm _ (by simp [*])
  -- a layer name too long to be the name of a directory above
  have hlong : ':' ∉ longName (2 * m) ∧ '/' ∉ longName (2 * m) := by simp [longName]
  have hword : Word (longName (2 * m)) :=
    ⟨hlong.1, fun c hc => by rw [List.eq_of_mem_replicate hc]; decide⟩
  have hl : 2 * m < (layerWord (longName (2 * m))).length := by simp [length_layerWord, longName]
  have hv : ¬ Unix.resolve T.source ++ [layerWord (longName (2 * m))] <+: T.vebase := by
    intro hp
    have hmem : layerWord (longName (2 * m)) ∈ T.vebase := hp.subset (by simp)
    have := hm _ (show layerWord (longName (2 * m)) ∈ _ by simp [hmem])
    omega
  have hlongAgrees := h _ hword hlong.2
  rw [agrees_iff_field hlong.1 hd] at hlongAgrees
  have hplain : Unix.Plain dir := by
    refine ⟨hne, ?_, ?_, hs⟩
    · rintro rfl
      rw [relOf, resolve_checkout hlong.2 hs, Unix.walk, if_pos (.inr rfl),
        Unix.relativeTo_append_right hv] at hlongAgrees
      exact field_concat_ne hm0 hshort hlongAgrees
    · rintro rfl
      rw [relOf, resolve_checkout hlong.2 hs, Unix.walk, if_neg (by decide), if_pos rfl,
        List.dropLast_concat] at hlongAgrees
      exact absurd hlongAgrees
        (short_ne (length_field_le hm0 hshort 2) (length_field_le hm0 hshort 3) (by omega))
  refine ⟨⟨?_, ?_⟩, hplain⟩
  · rw [relOf_eq hlong.2 hplain hv] at hlongAgrees
    exact length_eq_two_of_field hm0 hshort (hm _ (by simp)) hlongAgrees
  · intro x d hvx
    have hlayer := T.plain_vebase (layerWord x) (by simp [hvx])
    have hx : ':' ∉ x ∧ '/' ∉ x := by simpa [layerWord] using And.intro hlayer.2.1 hlayer.1.2.2.2
    have hagrees := h x ⟨hx.1, fun c hc => hlayer.2.2 c (by simp [layerWord, hc])⟩ hx.2
    have hrel : relOf T x dir = Unix.relativeTo [d] [dir] := by
      rw [relOf, resolve_checkout hx.2 hs, hplain.walk, hvx, List.append_assoc,
        Unix.relativeTo_append_left]
      simp [Unix.relativeTo]
    rw [agrees_iff_field hx.1 hd, hrel] at hagrees
    by_cases hdd : d = dir
    · simp [Unix.relativeTo, hdd, field, Unix.dot, layerWord] at hagrees
    · simp [Unix.relativeTo, hdd, field, layerWord] at hagrees

/-! ## Reading the assignments back -/

/-- With names of their own, the last assignment to a repository's variable is its own. -/
theorem assigned_freeze (hagree : ∀ r ∈ repos, Agrees T r.layer r.dir)
    (hdistinct : ∀ r ∈ repos, ∀ q ∈ repos, r ≠ q →
      gitVariable r.layer r.dir ≠ gitVariable q.layer q.dir)
    (config : List (Text × Text)) (ref describe : Text → Text → Text) (hr : r ∈ repos) :
    assigned (config ++ freeze T ref describe repos) (gitVariable r.layer r.dir) =
      some (describe r.layer r.dir) := by
  have entry : ∀ q ∈ repos,
      frozenVariable T.vebase (gitRepo T q.layer q.dir (ref q.layer q.dir)) =
        gitVariable q.layer q.dir := fun q hq => agrees_iff.mp (hagree q hq) _
  rw [assigned, List.reverse_append, List.find?_append]
  have hmem : (gitVariable r.layer r.dir, describe r.layer r.dir) ∈
      (freeze T ref describe repos).reverse := by
    rw [List.mem_reverse, freeze, List.mem_map]
    exact ⟨r, hr, by rw [entry r hr]⟩
  cases hfind : (freeze T ref describe repos).reverse.find? fun e =>
      e.1 = gitVariable r.layer r.dir with
  | none =>
    have := List.find?_eq_none.mp hfind _ hmem
    simp at this
  | some e =>
    obtain ⟨q, hq, rfl⟩ : ∃ q ∈ repos, (frozenVariable T.vebase
        (gitRepo T q.layer q.dir (ref q.layer q.dir)), describe q.layer q.dir) = e := by
      simpa [freeze] using List.mem_of_find?_eq_some hfind
    have hname : gitVariable q.layer q.dir = gitVariable r.layer r.dir := by
      rw [← entry q hq]
      simpa using List.find?_some hfind
    obtain rfl : q = r := by
      by_contra hne
      exact hdistinct q hq r hr hne hname
    rfl

end Freeze

/-- **Freezing and cloning agree exactly if** `SOURCE` is two steps away from `VEBASE`, every
layer name and every checkout-dir is a single plain component, and no two repositories are
ambiguous. -/
theorem freezePins_iff (T : Root) (repos : List Repo) :
    FreezePins T repos ↔
      (∀ r ∈ repos, TwoLevels T ∧ '/' ∉ r.layer ∧ Unix.Plain r.dir) ∧ ¬ Ambiguous repos := by
  constructor
  · rintro ⟨hagree, hdistinct, -⟩
    refine ⟨fun r hr => ?_, ?_⟩
    · have hslash := (hagree r hr).1.notMem r.layer_name.1 r.dir_name.1.1
      obtain ⟨hlevels, hplain⟩ :=
        twoLevels_of_agrees r.dir_name.1.1 r.dir_name.2 hslash.2 (hagree r hr).2
      exact ⟨hlevels, hslash.1, hplain⟩
    · rintro ⟨r, hr, q, hq, m, hdir, hlayer⟩
      have hne : r ≠ q := by
        rintro rfl
        have := congrArg List.length hdir
        simp only [List.length_append, List.length_cons] at this
        omega
      refine hdistinct r hr q hq hne [] [] ?_
      rw [agrees_iff.mp (hagree r hr).1, agrees_iff.mp (hagree q hq).1,
        gitVariable_of_ambiguous hdir hlayer]
  · rintro ⟨hcond, hamb⟩
    have hagree : ∀ r ∈ repos, ∀ x, Word x → '/' ∉ x → Agrees T x r.dir := fun r hr x hx hs =>
      (hcond r hr).1.agrees hx.1 r.dir_name.1.1 hs (hcond r hr).2.2
    have hown : ∀ r ∈ repos, Agrees T r.layer r.dir := fun r hr =>
      hagree r hr _ r.layer_name (hcond r hr).2.1
    have hdistinct : ∀ r ∈ repos, ∀ q ∈ repos, r ≠ q →
        gitVariable r.layer r.dir ≠ gitVariable q.layer q.dir := fun r hr q hq hne h =>
      hamb (ambiguous_of_gitVariable hr hq hne h)
    refine ⟨fun r hr => ⟨hown r hr, hagree r hr⟩, ?_, ?_⟩
    · intro r hr q hq hne ref ref'
      rw [agrees_iff.mp (hown r hr), agrees_iff.mp (hown q hq)]
      exact hdistinct r hr q hq hne
    · exact fun config ref describe r hr => assigned_freeze hown hdistinct config ref describe hr

/-! ## A workspace of its own -/

/-- The kernel of the Raspberry Pi recipe. -/
def kernelRepo : Repo where
  layer := "kernel".toList
  dir := "linux".toList
  layer_name := by decide
  dir_name := by decide

/-- The recipe is built in a workspace `/w`, by an engine in `/opt/ve-root`. -/
def workspaceRoot : Root where
  curdir := ["w".toList]
  base := ["w".toList]
  recipe := "rpi".toList
  vebase := ["opt".toList, "ve-root".toList]
  plain_vebase := by decide
  base_names := by decide
  recipe_name := by decide

/-- There `git.freeze` prints an assignment to `GIT_w_sources`, which nothing consults. -/
theorem not_freezePins_workspace :
    frozenVariable workspaceRoot.vebase
        (gitRepo workspaceRoot kernelRepo.layer kernelRepo.dir "master".toList) =
      "GIT_w_sources".toList ∧
    gitVariable kernelRepo.layer kernelRepo.dir = "GIT_L_kernel_linux".toList ∧
    ¬ FreezePins workspaceRoot [kernelRepo] := by
  have frozen : frozenVariable workspaceRoot.vebase
      (gitRepo workspaceRoot kernelRepo.layer kernelRepo.dir "master".toList) =
        "GIT_w_sources".toList := by decide
  refine ⟨frozen, by decide, fun h => ?_⟩
  have agrees := agrees_iff.mp (h.1 kernelRepo (by simp)).1 "master".toList
  rw [frozen] at agrees
  exact absurd agrees (by decide)

end VeRoot
