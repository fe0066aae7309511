import VeRoot.Unix.Expansion
import VeRoot.Unix.Lines
import VeRoot.Unix.Links
import Mathlib.Data.List.Dedup

/-!
# Relative links to the libraries

`fixup-libs.sh` lists `/usr/lib/<triplet>` of the root file system, picks the symbolic links with an
absolute target out of the text, and puts a link to the base name of the target in the place of
each.  No expansion in it is quoted.

## Main definitions

* `Row`, `Listing` — what `ls -la` prints.
* `LinkTools`, `fixupLibs` — the script.
* `byName` — the new text of a link.
* `LibDir.Fixed` — what the script is for.
* `fixupLibs_eq` — what the script does, and `fixed_iff` — the main result.
-/

namespace VeRoot

open Unix

/-! ## The listing -/

/-- An entry, as `ls -la` prints it. -/
structure Row where
  /-- The fields before the name, each with the number of further blanks behind it. -/
  attrs : List (Text × ℕ)
  name : Text
  entry : DirEntry

namespace Row

/-- The line. -/
def text (r : Row) : Text :=
  r.attrs.flatMap (fun a => a.1 ++ List.replicate (a.2 + 1) ' ') ++ r.name ++
    match r.entry with
    | .link u => " -> ".toList ++ u
    | _ => []

/-- There are eight fields before the name, and the first one tells links from other entries. -/
structure WellFormed (r : Row) : Prop where
  length : r.attrs.length = 8
  attrs : ∀ a ∈ r.attrs, a.1 ≠ [] ∧ ∀ c ∈ a.1, isSpace c = false ∧ isGlob c = false ∧ c ≠ ',' ∧
    c ≠ '/'
  mode : (r.attrs.headD ([], 0)).1.head? = some 'l' ↔ ∃ u, r.entry = .link u

end Row

/-- `ls -la`, in a directory. -/
def Listing (t : Tree) (dir : Unix.Path) (lines : List Text) : Prop :=
  ∃ (total : Text) (rows : List Row), lines = ("total ".toList ++ total) :: rows.map Row.text ∧
    (∀ r ∈ rows, r.WellFormed ∧ (t.entry (dir ++ [r.name]) = some r.entry ∨
      (r.name = dot ∨ r.name = dotdot) ∧ r.entry = .directory)) ∧
    (∀ x, t.entry (dir ++ [x]) ≠ none → x ∈ rows.map Row.name) ∧ (rows.map Row.name).Nodup

/-! ## The script -/

/-- `sed -E -e 's/[[:blank:]]+/,/g'`; `after` says that the last character was blank. -/
def sedBlanks (after : Bool) : Text → Text
  | [] => []
  | c :: t =>
    if isBlank c then (if after then sedBlanks true t else ',' :: sedBlanks true t)
    else c :: sedBlanks false t

/-- `grep '^l' | sed … | grep ',->,/'` -/
def symlinkLibs (lines : List Text) : List Text :=
  ((lines.filter fun l => l.head? == some 'l').map (sedBlanks false)).filter
    (occurs ",->,/".toList)

/-- What the script calls.  The laws speak of names that are no options. -/
structure LinkTools where
  /-- The files that a pattern stands for, in a directory. -/
  glob : Unix.Path → Tree → Globbing
  /-- A pattern stands for itself if no name in the directory begins as it does. -/
  glob_eq : ∀ dir t p w, (∀ c ∈ p, isGlob c = false ∧ c ≠ '/') → p ≠ [] → p.head? ≠ some '.' →
    (∀ x, t.entry (dir ++ [x]) ≠ none → ¬ p <+: x) → (glob dir t).files (p ++ w) = [p ++ w]
  /-- `rm`; `none` if it fails. -/
  rm : Unix.Path → List Text → Tree → Option Tree
  /-- `ln -s` -/
  ln : Unix.Path → List Text → Tree → Option Tree
  basename : List Text → Text
  rm_eq : ∀ dir x u t, t.entry (dir ++ [x]) = some (.link u) → x.head? ≠ some '-' →
    ∃ t', rm dir [x] t = some t' ∧ ∀ p, t'.entry p = if p = dir ++ [x] then none else t.entry p
  ln_eq : ∀ dir u x t, t.entry dir = some .directory → t.entry (dir ++ [x]) = none → Plain x →
    u ≠ [] → u.head? ≠ some '-' → x.head? ≠ some '-' →
    ∃ t', ln dir [u, x] t = some t' ∧
      ∀ p, t'.entry p = if p = dir ++ [x] then some (.link u) else t.entry p
  basename_eq : ∀ u, u.head? ≠ some '-' → basename [u] = baseName u

section Script

variable (k : LinkTools) (dir : Unix.Path)

/-- The body of the loop. -/
def fixLib (lib : Text) (t : Tree) : Option Tree :=
  let echo := [' '].intercalate ((k.glob dir t).expand lib)
  let src := cut ',' 9 echo
  let dest := cut ',' 11 echo
  (k.rm dir ((k.glob dir t).expand src) t).bind fun t =>
    let base := k.basename ((k.glob dir t).expand dest)
    k.ln dir ((k.glob dir t).expand base ++ (k.glob dir t).expand src) t

/-- `fixup-libs.sh`, in the directory `dir`, where `ls -la` prints `lines`; `none` if it fails. -/
def fixupLibs (lines : List Text) (t : Tree) : Option Tree :=
  ((k.glob dir t).expand (['\n'].intercalate (symlinkLibs lines))).foldlM
    (fun t lib => fixLib k dir lib t) t

end Script

/-- The text of a link, when that of the absolute links in `dir` is replaced by its base name. -/
def byName (dir p : Unix.Path) (u : Text) : Text :=
  if (p ≠ [] ∧ p.dropLast = dir) ∧ Absolute u then baseName u else u

/-! ## Directories -/

/-- There is no white space and no comma in the names and targets of a directory. -/
structure Clean (t : Tree) (dir : Unix.Path) : Prop where
  names : ∀ x, t.entry (dir ++ [x]) ≠ none → ∀ c ∈ x, isSpace c = false ∧ c ≠ ','
  targets : ∀ x u, t.entry (dir ++ [x]) = some (.link u) →
    u ≠ [] ∧ ∀ c ∈ u, isSpace c = false ∧ c ≠ ','

/-- The shell and the tools take the names and targets of the absolute links for what they are:
as patterns they stand for no other file that is there, and they are no options. -/
def Tame (k : LinkTools) (t : Tree) (dir : Unix.Path) : Prop :=
  ∀ x u, t.entry (dir ++ [x]) = some (.link u) → Absolute u →
    (∀ s : Tree, s.Within t → ∀ w ∈ [x, u, baseName u], (k.glob dir s).files w = [w]) ∧
      x.head? ≠ some '-' ∧ (baseName u).head? ≠ some '-'

/-- A library directory. -/
structure LibDir where
  tree : Tree
  triplet : Text
  names : List Text
  directory : tree.entry ["usr".toList, "lib".toList, triplet] = some .directory
  mem_names : ∀ x, tree.entry (["usr".toList, "lib".toList, triplet] ++ [x]) ≠ none ↔ x ∈ names
  clean : Clean tree ["usr".toList, "lib".toList, triplet]

namespace LibDir

variable (d : LibDir) (k : LinkTools)

/-- `usr/lib/${MULTIARCH}` -/
def dir : Unix.Path := ["usr".toList, "lib".toList, d.triplet]

/-- What becomes of the links, when the tree is `t` afterwards. -/
structure Fixes (t : Tree) : Prop where
  relative : ∀ x u, t.entry (d.dir ++ [x]) = some (.link u) → ¬ Absolute u
  leads : ∀ x u r, d.tree.entry (d.dir ++ [x]) = some (.link u) → Leads d.tree d.dir [x] r →
    Leads t d.dir [x] r
  untouched : ∀ x u, d.tree.entry (d.dir ++ [x]) = some (.link u) → ¬ Absolute u →
    t.entry (d.dir ++ [x]) = some (.link u)

/-- **The links are fixed**: none is absolute, each leads where it led, the relative ones are the
same, and a second run changes nothing. -/
def Fixed : Prop :=
  ∀ lines, Listing d.tree d.dir lines → ∀ t, fixupLibs k d.dir lines d.tree = some t →
    d.Fixes t ∧ ∀ lines', Listing t d.dir lines' →
      ∀ t', fixupLibs k d.dir lines' t = some t' → t' = t

/-- The target of each absolute link has a name at its end.  The absolute links that lead somewhere
can be ranked, so that this name, looked up in the directory, leads there too by links of lower
rank; links that led nowhere are looked up by the last name of their targets. -/
structure Sound : Prop where
  named : ∀ x u, d.tree.entry (d.dir ++ [x]) = some (.link u) → Absolute u → ∃ c ∈ u, c ≠ '/'
  leads : ∃ rank, ∀ x u r, d.tree.entry (d.dir ++ [x]) = some (.link u) → Absolute u →
    Leads d.tree d.dir [x] r →
      Via d.tree (byName d.dir) rank (rank (d.dir ++ [x])) d.dir [baseName u] r

end LibDir

section FixupLibs

variable {k : LinkTools} {dir p : Unix.Path} {t t' : Tree} {d : LibDir} {lines : List Text}
  {r : Row} {rows : List Row} {a b u w x : Text} {as : List (Text × ℕ)}

/-! ## One line -/

theorem isBlank_of_isSpace {c : Char} (h : isSpace c = false) : isBlank c = false := by
  rw [isSpace, Bool.or_eq_false_iff] at h
  exact h.1

/-- A word has no blanks. -/
theorem sedBlanks_word {after : Bool} (hw : Solid w) (a : Text) :
    sedBlanks after (w ++ a) = w ++ sedBlanks false a := by
  obtain ⟨ne, solid⟩ := hw
  induction w generalizing after with
  | nil => exact absurd rfl ne
  | cons c w ih =>
    have hc : isBlank c = false := isBlank_of_isSpace (solid c (by simp))
    rw [List.cons_append, sedBlanks, hc]
    cases w with
    | nil => rfl
    | cons c' w => simpa using ih (by simp) fun c hc => solid c (by simp [hc])

/-- The blanks between two words become one comma. -/
theorem sedBlanks_gap (n : ℕ) (a : Text) :
    sedBlanks false (List.replicate (n + 1) ' ' ++ a) = ',' :: sedBlanks true a := by
  have more : ∀ n, sedBlanks true (List.replicate n ' ' ++ a) = sedBlanks true a := by
    intro n
    induction n with
    | zero => rfl
    | succ n ih => simpa [List.replicate_succ, sedBlanks, isBlank] using ih
  rw [List.replicate_succ, List.cons_append, sedBlanks, more]
  rfl

theorem sedBlanks_attrs {after : Bool} (has : ∀ a ∈ as, Solid a.1) (hw : Solid w) (b : Text) :
    sedBlanks after (as.flatMap (fun a => a.1 ++ List.replicate (a.2 + 1) ' ') ++ (w ++ b)) =
      as.flatMap (fun a => a.1 ++ [',']) ++ (w ++ sedBlanks false b) := by
  induction as generalizing after with
  | nil => exact sedBlanks_word hw b
  | cons a as ih =>
    have ha : Solid a.1 := has a (by simp)
    rw [List.flatMap_cons, List.flatMap_cons, List.append_assoc, List.append_assoc,
      sedBlanks_word ha, sedBlanks_gap, ih fun a h => has a (by simp [h])]
    simp

/-- What the first `sed` makes of a link. -/
def Row.csv (r : Row) (u : Text) : Text :=
  r.attrs.flatMap (fun a => a.1 ++ [',']) ++ (r.name ++ (",->,".toList ++ u))

theorem Row.WellFormed.solid (h : r.WellFormed) : ∀ a ∈ r.attrs, Solid a.1 := fun a ha =>
  ⟨(h.attrs a ha).1, fun c hc => ((h.attrs a ha).2 c hc).1⟩

theorem sedBlanks_text (h : r.WellFormed) (hn : Solid r.name) (hu : Solid u)
    (he : r.entry = .link u) : sedBlanks false r.text = r.csv u := by
  have text : r.text = r.attrs.flatMap (fun a => a.1 ++ List.replicate (a.2 + 1) ' ') ++
      (r.name ++ (" -> ".toList ++ u)) := by
    rw [Row.text, he, List.append_assoc]
  have arrow : sedBlanks false (" -> ".toList ++ u) = ",->,".toList ++ u := by
    have last : sedBlanks true (u ++ []) = u ++ sedBlanks false [] := sedBlanks_word hu []
    rw [List.append_nil, sedBlanks, List.append_nil] at last
    simp [sedBlanks, isBlank, last]
  rw [text, sedBlanks_attrs h.solid hn, arrow, Row.csv]

/-- The first character of the line. -/
theorem head_text (h : r.WellFormed) : r.text.head? = (r.attrs.headD ([], 0)).1.head? := by
  obtain ⟨a, as, ha⟩ := List.exists_cons_of_ne_nil (l := r.attrs) (by
    intro nil
    simpa [nil] using h.length)
  obtain ⟨c, v, hc⟩ := List.exists_cons_of_ne_nil (h.attrs a (by simp [ha])).1
  rw [Row.text, ha, List.flatMap_cons, List.headD_cons, hc]
  simp

/-- A slash directly behind an arrow begins a text without commas. -/
theorem occurs_arrow (ha : '/' ∉ a) (hu : ',' ∉ u) :
    occurs ",->,/".toList (a ++ (",->,".toList ++ u)) = true ↔ Absolute u := by
  rw [occurs_iff (by decide)]
  constructor
  · rintro ⟨s, v, h⟩
    have e : (s ++ ",->,".toList) ++ '/' :: v = (a ++ ",->,".toList) ++ u := by simpa using h
    -- the slash is not in front of the target, and the comma before it is not in the target
    rcases List.append_eq_append_iff.mp e with ⟨z, hz, hv⟩ | ⟨z, hz, hv⟩
    · cases z with
      | nil => exact List.head?_eq_some_iff.mpr ⟨v, by simpa using hv.symm⟩
      | cons c z =>
        obtain ⟨rfl, -⟩ := List.cons.inj hv
        have slash : '/' ∈ a ++ ",->,".toList := by rw [hz]; simp
        rcases List.mem_append.mp slash with slash | slash
        · exact absurd slash ha
        · exact absurd slash (by decide)
    · rcases List.eq_nil_or_concat z with rfl | ⟨z, c, rfl⟩
      · exact List.head?_eq_some_iff.mpr ⟨v, by simpa using hv⟩
      · have comma : c = ',' := by
          have last := congrArg List.getLast? hz
          simpa [List.getLast?_cons, List.getLast?_append] using last.symm
        refine absurd ?_ hu
        rw [hv, comma]
        simp
  · intro absolute
    obtain ⟨v, rfl⟩ := List.head?_eq_some_iff.mp absolute
    exact ⟨a, v, by simp⟩

/-! ## Its fields -/

/-- The commas stand between the fields. -/
theorem flatMap_comma (ws : List Text) (v : Text) (vs : List Text) :
    ws.flatMap (fun w => w ++ [',']) ++ [','].intercalate (v :: vs) =
      [','].intercalate (ws ++ v :: vs) := by
  induction ws with
  | nil => rfl
  | cons w ws ih =>
    rw [List.flatMap_cons, List.append_assoc, ih, List.cons_append,
      List.intercalate_cons_of_ne_nil (by simp)]

theorem Row.csv_eq (r : Row) (u : Text) :
    r.csv u = [','].intercalate (r.attrs.map Prod.fst ++ [r.name, "->".toList, u]) := by
  rw [← flatMap_comma, Row.csv, List.flatMap_map]
  simp [List.intercalate_cons_cons]

/-- The name and the target are the ninth and the eleventh field. -/
theorem cut_csv (h : r.WellFormed) (hn : ',' ∉ r.name) (hu : ',' ∉ u) :
    cut ',' 9 (r.csv u) = r.name ∧ cut ',' 11 (r.csv u) = u := by
  have fields : ∀ w ∈ r.attrs.map Prod.fst ++ [r.name, "->".toList, u], ',' ∉ w := by
    intro w hw
    rcases List.mem_append.mp hw with hw | hw
    · obtain ⟨a, ha, rfl⟩ := List.mem_map.mp hw
      exact fun hc => ((h.attrs a ha).2 _ hc).2.2.1 rfl
    · simp only [List.mem_cons, List.not_mem_nil, or_false] at hw
      rcases hw with rfl | rfl | rfl
      · exact hn
      · decide
      · exact hu
  have split : (r.csv u).splitOn ',' = r.attrs.map Prod.fst ++ [r.name, "->".toList, u] := by
    rw [Row.csv_eq]
    exact List.splitOn_intercalate ',' fields (by simp)
  have comma : ',' ∈ r.csv u := by simp [Row.csv]
  have length : (r.attrs.map Prod.fst).length = 8 := by rw [List.length_map, h.length]
  have behind : ∀ n, (r.attrs.map Prod.fst ++ [r.name, "->".toList, u]).getD (8 + n) [] =
      [r.name, "->".toList, u].getD n [] := by
    intro n
    rw [List.getD_eq_getElem?_getD, List.getElem?_append_right (by omega), length,
      Nat.add_sub_cancel_left, List.getD_eq_getElem?_getD]
  constructor
  · rw [cut, if_pos comma, split]
    exact behind 0
  · rw [cut, if_pos comma, split]
    exact behind 2

theorem mem_csv {c : Char} (h : c ∈ r.csv u) :
    (∃ a ∈ r.attrs, c ∈ a.1) ∨ c ∈ r.name ∨ c ∈ u ∨ c ∈ ",->".toList := by
  rw [Row.csv] at h
  rcases List.mem_append.mp h with h | h
  · obtain ⟨a, ha, h⟩ := List.mem_flatMap.mp h
    rcases List.mem_append.mp h with h | h
    · exact .inl ⟨a, ha, h⟩
    · obtain rfl := List.mem_singleton.mp h
      exact .inr (.inr (.inr (by decide)))
  · rcases List.mem_append.mp h with h | h
    · exact .inr (.inl h)
    · rcases List.mem_append.mp h with h | h
      · exact .inr (.inr (.inr ((show ∀ c ∈ ",->,".toList, c ∈ ",->".toList by decide) c h)))
      · exact .inr (.inr (.inl h))

/-! ## One link -/

/-- A word that the shell leaves alone. -/
theorem expand_literal {g : Globbing} (hw : Solid w) (h : g.files w = [w]) : g.expand w = [w] := by
  rw [Globbing.expand_of_solid hw, h]

/-- An absolute link of a directory, as it is listed. -/
structure AbsoluteLink (k : LinkTools) (t : Tree) (dir : Unix.Path) (r : Row) (u : Text) :
    Prop where
  wellFormed : r.WellFormed
  entry : r.entry = .link u
  absolute : Absolute u
  found : t.entry (dir ++ [r.name]) = some (.link u)
  name : Solid r.name ∧ ',' ∉ r.name
  target : Solid u ∧ ',' ∉ u
  literal : ∀ s : Tree, s.Within t →
    ∀ w ∈ [r.csv u, r.name, u, baseName u], (k.glob dir s).files w = [w]
  noOption : r.name.head? ≠ some '-' ∧ (baseName u).head? ≠ some '-'

theorem AbsoluteLink.solid (h : AbsoluteLink k t dir r u) : Solid (r.csv u) := by
  refine ⟨?_, fun c hc => ?_⟩
  · simp [Row.csv]
  · rcases mem_csv hc with ⟨a, ha, hc⟩ | hc | hc | hc
    · exact ((h.wellFormed.attrs a ha).2 c hc).1
    · exact h.name.1.2 c hc
    · exact h.target.1.2 c hc
    · exact (show ∀ c ∈ ",->".toList, isSpace c = false by decide) c hc

/-- The commas of a line stand in no name. -/
theorem files_csv (k : LinkTools) (h : r.WellFormed) (he : r.entry = .link u)
    (names : ∀ x, t.entry (dir ++ [x]) ≠ none → ',' ∉ x) :
    (k.glob dir t).files (r.csv u) = [r.csv u] := by
  obtain ⟨a, as, ha⟩ := List.exists_cons_of_ne_nil (l := r.attrs) (by
    intro nil
    simpa [nil] using h.length)
  have attrs := h.attrs a (by simp [ha])
  have first : a.1.head? = some 'l' := by
    have mode := h.mode.mpr ⟨u, he⟩
    rwa [ha, List.headD_cons] at mode
  have split : r.csv u = (a.1 ++ [',']) ++
      (as.flatMap (fun a => a.1 ++ [',']) ++ (r.name ++ (",->,".toList ++ u))) := by
    rw [Row.csv, ha, List.flatMap_cons, List.append_assoc]
  rw [split]
  refine k.glob_eq _ _ _ _ (fun c hc => ?_) (by simp) ?_ fun x hx begins => ?_
  · rcases List.mem_append.mp hc with hc | hc
    · exact ⟨(attrs.2 c hc).2.1, (attrs.2 c hc).2.2.2⟩
    · obtain rfl := List.mem_singleton.mp hc
      decide
  · rw [List.head?_append, first]
    decide
  · exact names x hx (begins.subset (by simp))

/-- **One turn of the loop** replaces the target by its base name. -/
theorem exists_fixLib (h : AbsoluteLink k t dir r u) :
    ∃ t', fixLib k dir (r.csv u) t = some t' ∧
      ∀ p, t'.entry p = if p = dir ++ [r.name] then some (.link (baseName u)) else t.entry p := by
  obtain ⟨src, dest⟩ := cut_csv h.wellFormed h.name.2 h.target.2
  have noDash : u.head? ≠ some '-' := by
    rw [h.absolute]
    decide
  obtain ⟨t₁, removed, entries⟩ := k.rm_eq dir r.name u t h.found h.noOption.1
  have directory : t.entry dir = some .directory := t.parent dir r.name (by simp [h.found])
  have plain : Plain r.name := t.plain dir r.name (by simp [h.found])
  have within : t₁.Within t := by
    intro p hp
    rw [entries] at hp
    split_ifs at hp with e
    · exact absurd rfl hp
    · exact hp
  have base : Solid (baseName u) := ⟨baseName_ne_nil h.target.1.1,
    fun c hc => h.target.1.2 c (mem_of_mem_baseName hc)⟩
  -- the shell looks at the directory before and after `rm`
  have echo : [' '].intercalate ((k.glob dir t).expand (r.csv u)) = r.csv u := by
    rw [expand_literal h.solid (h.literal t (fun _ hp => hp) _ (by simp)),
      List.intercalate_singleton]
  have name : ∀ s : Tree, s.Within t → (k.glob dir s).expand r.name = [r.name] := fun s hs =>
    expand_literal h.name.1 (h.literal s hs _ (by simp))
  have target : (k.glob dir t₁).expand u = [u] :=
    expand_literal h.target.1 (h.literal t₁ within _ (by simp))
  have last : (k.glob dir t₁).expand (baseName u) = [baseName u] :=
    expand_literal base (h.literal t₁ within _ (by simp))
  obtain ⟨t₂, linked, entries'⟩ := k.ln_eq dir (baseName u) r.name t₁
    (by rw [entries, if_neg (by simp), directory]) (by rw [entries, if_pos rfl]) plain
    base.1 h.noOption.2 h.noOption.1
  refine ⟨t₂, ?_, fun p => ?_⟩
  · simp only [fixLib, echo, src, dest, name t fun _ hp => hp, name t₁ within, target, removed,
      Option.bind_some, k.basename_eq u noDash, last, List.singleton_append, linked]
  · rw [entries', entries]
    split_ifs <;> rfl

/-! ## All links -/

/-- The target, if the row is a link. -/
def Row.target (r : Row) : Text :=
  match r.entry with
  | .link u => u
  | _ => []

theorem Row.target_of_link (h : r.entry = .link u) : r.target = u := by rw [Row.target, h]

/-- A row that is taken apart as it was put together. -/
structure Row.Legible (r : Row) : Prop where
  wellFormed : r.WellFormed
  name : Solid r.name ∧ ',' ∉ r.name ∧ '/' ∉ r.name
  target : ∀ u, r.entry = .link u → Solid u ∧ ',' ∉ u

theorem symlinkLibs_cons (l : Text) (ls : List Text) : symlinkLibs (l :: ls) =
    (if l.head? = some 'l' ∧ occurs ",->,/".toList (sedBlanks false l) = true
      then [sedBlanks false l] else []) ++ symlinkLibs ls := by
  simp only [symlinkLibs, List.filter_cons, beq_iff_eq]
  split_ifs <;> simp_all

/-- **The rows that are picked** are those of the absolute links. -/
theorem symlinkLibs_rows (h : ∀ r ∈ rows, r.Legible) : symlinkLibs (rows.map Row.text) =
    (rows.filter fun r => Absolute r.target).map fun r => r.csv r.target := by
  induction rows with
  | nil => rfl
  | cons r rows ih =>
    have legible : r.Legible := h r (by simp)
    rw [List.map_cons, symlinkLibs_cons, head_text legible.wellFormed,
      ih fun r hr => h r (by simp [hr])]
    by_cases link : ∃ u, r.entry = .link u
    · obtain ⟨u, hu⟩ := link
      obtain ⟨solid, comma⟩ := legible.target u hu
      have front : '/' ∉ r.attrs.flatMap (fun a => a.1 ++ [',']) ++ r.name := by
        intro hm
        rcases List.mem_append.mp hm with hm | hm
        · obtain ⟨a, ha, hm⟩ := List.mem_flatMap.mp hm
          rcases List.mem_append.mp hm with hm | hm
          · exact ((legible.wellFormed.attrs a ha).2 _ hm).2.2.2 rfl
          · exact absurd hm (by decide)
        · exact legible.name.2.2 hm
      have arrow := occurs_arrow front comma
      rw [List.append_assoc] at arrow
      have target := Row.target_of_link hu
      rw [sedBlanks_text legible.wellFormed legible.name.1 solid hu]
      by_cases absolute : Absolute u
      · rw [if_pos ⟨legible.wellFormed.mode.mpr ⟨u, hu⟩, arrow.mpr absolute⟩,
          List.filter_cons_of_pos (by simpa [target] using absolute), List.map_cons, target,
          List.singleton_append]
      · rw [if_neg fun h => absolute (arrow.mp h.2),
          List.filter_cons_of_neg (by simpa [target] using absolute), List.nil_append]
    · have dropped : ¬ Absolute r.target := by
        rw [Row.target]
        cases he : r.entry with
        | link u => exact absurd ⟨u, he⟩ link
        | directory | file => decide
      rw [if_neg fun h => link (legible.wellFormed.mode.mp h.1), List.nil_append,
        List.filter_cons_of_neg (by simpa using dropped)]

/-- **The loop** replaces the targets of the rows. -/
theorem exists_foldlM (h : ∀ r ∈ rows, AbsoluteLink k t dir r r.target)
    (nodup : (rows.map Row.name).Nodup) :
    ∃ t', (rows.map fun r => r.csv r.target).foldlM (fun t lib => fixLib k dir lib t) t = some t' ∧
      ∀ p, t'.entry p =
        if p ∈ rows.map (fun r => dir ++ [r.name]) then (t.entry p).map (DirEntry.relink baseName)
        else t.entry p := by
  induction rows generalizing t with
  | nil => exact ⟨t, rfl, fun p => by simp⟩
  | cons r rows ih =>
    have found : AbsoluteLink k t dir r r.target := h r (by simp)
    obtain ⟨t₁, first, entries⟩ := exists_fixLib found
    have within : t₁.Within t := by
      intro p hp
      rw [entries] at hp
      split_ifs at hp with e
      · rw [e, found.found]
        exact Option.some_ne_none _
      · exact hp
    obtain ⟨fresh, nodup⟩ := List.nodup_cons.mp nodup
    -- the other links are still what they were
    have other : ∀ r' ∈ rows, r'.name ≠ r.name := by
      intro r' hr' e
      exact fresh (e ▸ List.mem_map_of_mem hr')
    have rest : ∀ r' ∈ rows, AbsoluteLink k t₁ dir r' r'.target := by
      intro r' hr'
      have old := h r' (by simp [hr'])
      refine { old with
        found := ?_, literal := fun s hs => old.literal s fun p hp => within p (hs p hp) }
      rw [entries, if_neg fun e => other r' hr' (by simpa using e), old.found]
    obtain ⟨t', all, entries'⟩ := ih rest nodup
    refine ⟨t', ?_, fun p => ?_⟩
    · rw [List.map_cons, List.foldlM_cons, first]
      exact all
    · rw [entries', List.map_cons]
      simp only [List.mem_cons]
      by_cases hp : p = dir ++ [r.name]
      · have notMem : p ∉ rows.map fun r => dir ++ [r.name] := by
          intro hm
          obtain ⟨r', hr', e⟩ := List.mem_map.mp hm
          exact other r' hr' (by simpa using e.trans hp)
        rw [if_neg notMem, if_pos (.inl hp), entries, if_pos hp, hp, found.found]
        rfl
      · rw [entries, if_neg hp]
        simp only [hp, false_or]

/-! ## The run -/

theorem byName_concat (dir : Unix.Path) (x u : Text) :
    byName dir (dir ++ [x]) u = if Absolute u then baseName u else u := by
  simp [byName]

/-- Elsewhere no text is replaced. -/
theorem byName_of_ne (h : ∀ x, p ≠ dir ++ [x]) (u : Text) : byName dir p u = u := by
  refine if_neg ?_
  rintro ⟨⟨ne, rfl⟩, -⟩
  exact h (p.getLast ne) (List.dropLast_append_getLast ne).symm

theorem byName_of_relative (h : ∀ x, p = dir ++ [x] → ¬ Absolute u) : byName dir p u = u := by
  by_cases here : ∃ x, p = dir ++ [x]
  · obtain ⟨x, rfl⟩ := here
    rw [byName_concat, if_neg (h x rfl)]
  · exact byName_of_ne (fun x e => here ⟨x, e⟩) u

/-- Only absolute texts of the directory are replaced. -/
theorem of_byName_ne {cur : Unix.Path} (h : byName dir (cur ++ [x]) u ≠ u) :
    cur = dir ∧ Absolute u := by
  by_contra other
  refine h (byName_of_relative fun y e absolute => other ⟨?_, absolute⟩)
  exact (List.append_inj' e rfl).1

theorem Listing.legible (h : ∀ r ∈ rows, r.WellFormed ∧
    (t.entry (dir ++ [r.name]) = some r.entry ∨ (r.name = dot ∨ r.name = dotdot) ∧
      r.entry = .directory)) (clean : Clean t dir) : ∀ r ∈ rows, r.Legible := by
  intro r hr
  obtain ⟨wellFormed, found | ⟨name, directory⟩⟩ := h r hr
  · have plain : Plain r.name := t.plain dir r.name (by simp [found])
    have names := clean.names r.name (by simp [found])
    refine ⟨wellFormed, ⟨⟨plain.1, fun c hc => (names c hc).1⟩, fun hc => (names _ hc).2 rfl,
      plain.2.2.2⟩, fun u hu => ?_⟩
    obtain ⟨ne, targets⟩ := clean.targets r.name u (by rw [found, hu])
    exact ⟨⟨ne, fun c hc => (targets c hc).1⟩, fun hc => (targets _ hc).2 rfl⟩
  · refine ⟨wellFormed, ?_, fun u hu => ?_⟩
    · rcases name with e | e
      · rw [e]
        decide
      · rw [e]
        decide
    · rw [directory] at hu
      cases hu

/-- A row with an absolute target is such a link. -/
theorem absoluteLink_of_row (clean : Clean t dir) (tame : Tame k t dir)
    (valid : ∀ r ∈ rows, r.WellFormed ∧ (t.entry (dir ++ [r.name]) = some r.entry ∨
      (r.name = dot ∨ r.name = dotdot) ∧ r.entry = .directory))
    (hr : r ∈ rows) (absolute : Absolute r.target) : AbsoluteLink k t dir r r.target := by
  obtain ⟨u, hu⟩ : ∃ u, r.entry = .link u := by
    cases he : r.entry with
    | link u => exact ⟨u, rfl⟩
    | directory | file =>
      rw [Row.target, he] at absolute
      exact absurd absolute (by decide)
  rw [Row.target_of_link hu] at absolute ⊢
  have found : t.entry (dir ++ [r.name]) = some (.link u) := by
    rcases (valid r hr).2 with found | ⟨-, directory⟩
    · rw [found, hu]
    · rw [directory] at hu
      cases hu
  obtain ⟨wellFormed, ⟨solid, comma, -⟩, target⟩ := Listing.legible valid clean r hr
  obtain ⟨literal, noDash⟩ := tame r.name u found absolute
  refine ⟨wellFormed, hu, absolute, found, ⟨solid, comma⟩, target u hu, fun s hs => ?_, noDash⟩
  have names : ∀ x, s.entry (dir ++ [x]) ≠ none → ',' ∉ x := fun x hx hc =>
    (clean.names x (hs _ hx) _ hc).2 rfl
  exact List.forall_mem_cons.mpr ⟨files_csv k wellFormed hu names, literal s hs⟩

/-- The shell takes the lines for words. -/
theorem expand_csv (h : ∀ r ∈ rows, AbsoluteLink k t dir r r.target) :
    (k.glob dir t).expand (['\n'].intercalate (rows.map fun r => r.csv r.target)) =
      rows.map fun r => r.csv r.target := by
  have solid : ∀ w ∈ rows.map fun r => r.csv r.target, Solid w := by
    intro w hw
    obtain ⟨r, hr, rfl⟩ := List.mem_map.mp hw
    exact (h r hr).solid
  rw [Globbing.expand, tokens_intercalate rfl solid, List.flatMap_map]
  clear solid
  induction rows with
  | nil => rfl
  | cons r rows ih =>
    have first := (h r (by simp)).literal t (fun _ hp => hp) (r.csv r.target) (by simp)
    rw [List.flatMap_cons, first, ih fun r hr => h r (by simp [hr]), List.map_cons]
    rfl

/-- **What the script does.** -/
theorem fixupLibs_eq (k : LinkTools) (listing : Listing t dir lines) (clean : Clean t dir)
    (tame : Tame k t dir) : fixupLibs k dir lines t = some (t.relink (byName dir)) := by
  obtain ⟨total, rows, rfl, valid, complete, nodup⟩ := listing
  -- the first line is no link
  have header : symlinkLibs (("total ".toList ++ total) :: rows.map Row.text) =
      symlinkLibs (rows.map Row.text) := by
    rw [symlinkLibs_cons, if_neg (by simp), List.nil_append]
  have found : ∀ r ∈ rows.filter fun r => Absolute r.target, AbsoluteLink k t dir r r.target := by
    intro r hr
    obtain ⟨hr, absolute⟩ := List.mem_filter.mp hr
    exact absoluteLink_of_row clean tame valid hr (by simpa using absolute)
  obtain ⟨t', all, entries⟩ := exists_foldlM found
    (nodup.sublist (List.filter_sublist.map Row.name))
  rw [fixupLibs, header, symlinkLibs_rows (Listing.legible valid clean),
    expand_csv found, all, Option.some.injEq]
  refine Tree.ext (funext fun p => ?_)
  rw [entries]
  split_ifs with hp
  · obtain ⟨r, hr, rfl⟩ := List.mem_map.mp hp
    have hr := found r hr
    simp [hr.found, DirEntry.relink, byName_concat, hr.absolute]
  · -- a link that is not among the rows is relative, or elsewhere
    refine (Tree.relink_of_same fun u he => byName_of_relative fun x e absolute => ?_).symm
    subst e
    obtain ⟨r, hr, rfl⟩ := List.mem_map.mp (complete x (by simp [he]))
    have hu : r.entry = .link u := by
      rcases (valid r hr).2 with found | ⟨name, -⟩
      · exact Option.some.inj (found.symm.trans he)
      · have plain := t.plain dir r.name (by simp [he])
        rcases name with e | e
        · exact absurd e plain.2.1
        · exact absurd e plain.2.2.1
    refine hp (List.mem_map.mpr ⟨r, List.mem_filter.mpr ⟨hr, ?_⟩, rfl⟩)
    simpa [Row.target_of_link hu] using absolute

/-! ## What the script is for -/

/-- The first field of a line. -/
def modeOf : DirEntry → Text
  | .directory => "drwxr-xr-x".toList
  | .file => "-rw-r--r--".toList
  | .link _ => "lrwxrwxrwx".toList

/-- The fields of a line. -/
def attrsOf (mode : Text) : List (Text × ℕ) :=
  [(mode, 0), ("1".toList, 0), ("root".toList, 0), ("root".toList, 0), ("0".toList, 3),
    ("Jan".toList, 0), ("1".toList, 1), ("2020".toList, 1)]

/-- A line for an entry. -/
def rowOf (x : Text) (e : DirEntry) : Row := ⟨attrsOf (modeOf e), x, e⟩

theorem wellFormed_rowOf (x : Text) (e : DirEntry) : (rowOf x e).WellFormed := by
  have attrs : ∀ mode ∈ ["drwxr-xr-x".toList, "-rw-r--r--".toList, "lrwxrwxrwx".toList],
      ∀ a ∈ attrsOf mode, a.1 ≠ [] ∧ ∀ c ∈ a.1, isSpace c = false ∧ isGlob c = false ∧ c ≠ ',' ∧
        c ≠ '/' := by decide
  cases e with
  | directory =>
    refine ⟨rfl, attrs _ (.head _), fun h => ?_, fun ⟨_, h⟩ => nomatch h⟩
    exact absurd h (show ¬ "drwxr-xr-x".toList.head? = some 'l' by decide)
  | file =>
    refine ⟨rfl, attrs _ (.tail _ (.head _)), fun h => ?_, fun ⟨_, h⟩ => nomatch h⟩
    exact absurd h (show ¬ "-rw-r--r--".toList.head? = some 'l' by decide)
  | link u =>
    exact ⟨rfl, attrs _ (.tail _ (.tail _ (.head _))), fun _ => ⟨u, rfl⟩, fun _ => rfl⟩

/-- There is a listing. -/
theorem LibDir.exists_listing (d : LibDir) : ∃ lines, Listing d.tree d.dir lines := by
  refine ⟨_, "0".toList,
    d.names.dedup.map fun x => rowOf x ((d.tree.entry (d.dir ++ [x])).getD .file), rfl, ?_, ?_, ?_⟩
  · intro r hr
    obtain ⟨x, hx, rfl⟩ := List.mem_map.mp hr
    obtain ⟨e, he⟩ := Option.ne_none_iff_exists'.mp ((d.mem_names x).mpr (List.mem_dedup.mp hx))
    have he : d.tree.entry (d.dir ++ [x]) = some e := he
    refine ⟨wellFormed_rowOf _ _, .inl ?_⟩
    change d.tree.entry (d.dir ++ [x]) = some ((d.tree.entry (d.dir ++ [x])).getD .file)
    rw [he]
    rfl
  · intro x hx
    rw [List.map_map]
    exact List.mem_map.mpr ⟨x, List.mem_dedup.mpr ((d.mem_names x).mp hx), rfl⟩
  · rw [List.map_map]
    exact (List.map_id d.names.dedup).symm ▸ List.nodup_dedup d.names

/-- An absolute link, afterwards. -/
theorem relink_absolute (h : t.entry (dir ++ [x]) = some (.link u)) (absolute : Absolute u) :
    (t.relink (byName dir)).entry (dir ++ [x]) = some (.link (baseName u)) := by
  rw [Tree.relink_entry, h, Option.map_some, DirEntry.relink, byName_concat, if_pos absolute]

/-- A relative one. -/
theorem relink_relative (h : t.entry (dir ++ [x]) = some (.link u)) (relative : ¬ Absolute u) :
    (t.relink (byName dir)).entry (dir ++ [x]) = some (.link u) := by
  rw [Tree.relink_entry, h, Option.map_some, DirEntry.relink, byName_concat, if_neg relative]

theorem exists_of_relink (h : (t.relink (byName dir)).entry (dir ++ [x]) = some (.link u)) :
    ∃ v, t.entry (dir ++ [x]) = some (.link v) ∧ u = if Absolute v then baseName v else v := by
  rw [Tree.relink_entry, Option.map_eq_some_iff] at h
  obtain ⟨e, he, hu⟩ := h
  cases e with
  | link v =>
    rw [DirEntry.relink, byName_concat] at hu
    exact ⟨v, he, (DirEntry.link.inj hu).symm⟩
  | directory | file => cases hu

theorem Clean.relink (clean : Clean t dir) : Clean (t.relink (byName dir)) dir := by
  constructor
  · intro x hx
    refine clean.names x fun none => hx ?_
    rw [Tree.relink_entry, none]
    rfl
  · intro x u hu
    obtain ⟨v, hv, rfl⟩ := exists_of_relink hu
    obtain ⟨ne, clean⟩ := clean.targets x v hv
    split_ifs
    · exact ⟨baseName_ne_nil ne, fun c hc => clean c (mem_of_mem_baseName hc)⟩
    · exact ⟨ne, clean⟩

/-- A link leads afterwards where the entry with its base name does. -/
theorem leads_relink_iff {r : Unix.Path} (h : t.entry (dir ++ [x]) = some (.link u))
    (absolute : Absolute u) (named : ∃ c ∈ u, c ≠ '/') :
    Leads (t.relink (byName dir)) dir [x] r ↔
      Leads (t.relink (byName dir)) dir [baseName u] r := by
  have slash := notMem_baseName named
  have relative : ¬ Absolute (baseName u) := not_absolute_of_notMem slash
  have step := Tree.step_link (relink_absolute h absolute)
  rw [if_neg relative, components_of_notMem slash] at step
  constructor
  · intro leads
    obtain ⟨next, more, step', go⟩ := leads.of_cons
    obtain ⟨rfl, rfl⟩ := Prod.mk.inj (Option.some.inj (step.symm.trans step'))
    simpa using go
  · intro leads
    exact .step step (by simpa using leads)

/-- The links whose text changes are the absolute ones. -/
theorem changed_iff {cur : Unix.Path}
    (named : ∀ x u, t.entry (dir ++ [x]) = some (.link u) → Absolute u → ∃ c ∈ u, c ≠ '/') :
    Changed t (byName dir) (cur ++ [x]) u ↔
      cur = dir ∧ t.entry (dir ++ [x]) = some (.link u) ∧ Absolute u := by
  constructor
  · rintro ⟨hu, ne⟩
    obtain ⟨rfl, absolute⟩ := of_byName_ne ne
    exact ⟨rfl, hu, absolute⟩
  · rintro ⟨rfl, hu, absolute⟩
    refine ⟨hu, fun e => notMem_baseName (named x u hu absolute) ?_⟩
    rw [byName_concat, if_pos absolute] at e
    rw [e]
    exact List.mem_of_mem_head? absolute

/-- **The base names are sound** exactly if the absolute links lead afterwards where they led. -/
theorem LibDir.sound_iff (d : LibDir) : d.Sound ↔
    (∀ x u, d.tree.entry (d.dir ++ [x]) = some (.link u) → Absolute u → ∃ c ∈ u, c ≠ '/') ∧
      ∀ x u r, d.tree.entry (d.dir ++ [x]) = some (.link u) → Absolute u →
        Leads d.tree d.dir [x] r → Leads (d.tree.relink (byName d.dir)) d.dir [x] r := by
  have same : d.Sound ↔ _ ∧ _ := ⟨fun h => ⟨h.named, h.leads⟩, fun h => ⟨h.1, h.2⟩⟩
  rw [same]
  refine and_congr_right fun named => ?_
  have general := leads_relink_iff_via (t := d.tree) (f := byName d.dir)
  simp only [changed_iff named] at general
  constructor
  · rintro ⟨rank, via⟩ x u r hu absolute leads
    refine general.mpr ⟨rank, ?_⟩ d.dir x u r ⟨rfl, hu, absolute⟩ leads
    rintro cur c v m ⟨rfl, hv, absolute⟩ leads
    have slash := notMem_baseName (named c v hv absolute)
    rw [byName_concat, if_pos absolute, components_of_notMem slash,
      if_neg (not_absolute_of_notMem slash)]
    exact via c v m hv absolute leads
  · intro keeps
    obtain ⟨rank, via⟩ := general.mp (by
      rintro cur c v m ⟨rfl, hv, absolute⟩ leads
      exact keeps c v m hv absolute leads)
    refine ⟨rank, fun x u r hu absolute leads => ?_⟩
    have slash := notMem_baseName (named x u hu absolute)
    have go := via d.dir x u r ⟨rfl, hu, absolute⟩ leads
    rwa [byName_concat, if_pos absolute, components_of_notMem slash,
      if_neg (not_absolute_of_notMem slash)] at go

/-- **The links are fixed exactly if the base names are sound.** -/
theorem LibDir.fixed_iff (d : LibDir) (k : LinkTools) (tame : Tame k d.tree d.dir) :
    d.Fixed k ↔ d.Sound := by
  have run : ∀ lines, Listing d.tree d.dir lines →
      fixupLibs k d.dir lines d.tree = some (d.tree.relink (byName d.dir)) :=
    fun lines listing => fixupLibs_eq k listing d.clean tame
  rw [d.sound_iff]
  constructor
  · intro h
    obtain ⟨lines, listing⟩ := d.exists_listing
    obtain ⟨fixes, -⟩ := h lines listing _ (run lines listing)
    refine ⟨fun x u hu absolute => ?_, fun x u r hu _ leads => fixes.leads x u r hu leads⟩
    by_contra slashes
    push Not at slashes
    exact fixes.relative x _ (relink_absolute hu absolute)
      ((absolute_baseName (d.clean.targets x u hu).1).mpr slashes)
  · rintro ⟨named, keeps⟩ lines listing t ht
    obtain rfl := Option.some.inj ((run lines listing).symm.trans ht)
    have relative : ∀ x u, (d.tree.relink (byName d.dir)).entry (d.dir ++ [x]) = some (.link u) →
        ¬ Absolute u := by
      intro x u hu
      obtain ⟨v, hv, rfl⟩ := exists_of_relink hu
      split_ifs with absolute
      · intro slash
        obtain ⟨c, hc, ne⟩ := named x v hv absolute
        exact ne ((absolute_baseName (d.clean.targets x v hv).1).mp slash c hc)
      · exact absolute
    refine ⟨⟨relative, fun x u r hu leads => ?_, fun x u hu => relink_relative hu⟩, ?_⟩
    · -- it is enough to look at the links that are replaced
      refine leads.relink fun cur c v m hv changed leads => ?_
      obtain ⟨rfl, absolute⟩ := of_byName_ne changed
      exact keeps c v m hv absolute leads
    · intro lines' listing' t' ht'
      have tame' : Tame k (d.tree.relink (byName d.dir)) d.dir := fun x u hu absolute =>
        absurd absolute (relative x u hu)
      obtain rfl := Option.some.inj ((fixupLibs_eq k listing' d.clean.relink tame').symm.trans ht')
      -- no absolute link is left to be replaced
      exact Tree.ext (funext fun p => Tree.relink_of_same fun u he =>
        byName_of_relative fun x e => relative x u (e ▸ he))

/-! ## Where the targets are -/

/-- **Targets in the directory itself** are replaced without harm. -/
theorem LibDir.sound_of_local (d : LibDir)
    (h : ∀ x u, d.tree.entry (d.dir ++ [x]) = some (.link u) → Absolute u →
      ∃ q b, components u = q ++ [b] ∧ b ≠ [] ∧ Leads d.tree [] q d.dir) : d.Sound := by
  have named : ∀ x u, d.tree.entry (d.dir ++ [x]) = some (.link u) → Absolute u →
      ∃ c ∈ u, c ≠ '/' := by
    intro x u hu absolute
    obtain ⟨q, b, hq, hb, -⟩ := h x u hu absolute
    obtain ⟨c, v, rfl⟩ := List.exists_cons_of_ne_nil hb
    have slash : '/' ∉ c :: v := notMem_of_mem_components (t := u) (by rw [hq]; simp)
    refine ⟨c, ?_, fun e => slash (by simp [e])⟩
    rw [← spell_components u, hq]
    exact (mem_spell fun e => slash (by simp [e])).mpr ⟨c :: v, by simp, by simp⟩
  refine d.sound_iff.mpr ⟨named, fun x u r hu absolute leads => leads.relink_local ?_⟩
  intro cur c v hv changed
  obtain ⟨rfl, absolute⟩ := of_byName_ne changed
  obtain ⟨q, b, hq, hb, leads⟩ := h c v hv absolute
  simp only [byName_concat, if_pos absolute, baseName_of_components hq hb]
  exact ⟨q, hq, leads⟩

/-- A link whose target ends in its own name comes to name itself. -/
theorem LibDir.not_sound_of_self {r : Unix.Path} (he : d.tree.entry (d.dir ++ [x]) = some (.link u))
    (absolute : Absolute u) (leads : Leads d.tree d.dir [x] r) (hx : baseName u = x) :
    ¬ d.Sound := by
  intro h
  have self := relink_absolute he absolute
  rw [hx] at self
  exact not_leads_self self ((d.sound_iff.mp h).2 x u r he absolute leads)

/-- So does one whose target ends in a name that the directory does not have come to nothing. -/
theorem LibDir.not_sound_of_missing {r : Unix.Path}
    (he : d.tree.entry (d.dir ++ [x]) = some (.link u)) (absolute : Absolute u)
    (leads : Leads d.tree d.dir [x] r) (plain : Plain (baseName u))
    (missing : d.tree.entry (d.dir ++ [baseName u]) = none) : ¬ d.Sound := by
  intro h
  obtain ⟨named, keeps⟩ := d.sound_iff.mp h
  have leads' := (leads_relink_iff he absolute (named x u he absolute)).mp
    (keeps x u r he absolute leads)
  refine not_leads_of_step (Tree.step_none ?_ plain) leads'
  rw [Tree.relink_entry, missing]
  rfl

/-- Names without a character that may stand for others are no patterns. -/
theorem tame_of_literal (h : ∀ x u, t.entry (dir ++ [x]) = some (.link u) → Absolute u →
    (∀ c ∈ x ++ u, isGlob c = false) ∧ x.head? ≠ some '-' ∧ (baseName u).head? ≠ some '-') :
    Tame k t dir := by
  intro x u hu absolute
  obtain ⟨literal, noDash⟩ := h x u hu absolute
  refine ⟨fun s _ w hw => (k.glob dir s).literal w fun c hc => literal c ?_, noDash⟩
  simp only [List.mem_cons, List.not_mem_nil, or_false] at hw
  rcases hw with rfl | rfl | rfl
  · exact List.mem_append_left _ hc
  · exact List.mem_append_right _ hc
  · exact List.mem_append_right _ (mem_of_mem_baseName hc)

end FixupLibs

/-! ## An alternative -/

/-- The tools, where no name is a pattern or an option. -/
def someLinkTools : LinkTools where
  glob _ _ := .none
  glob_eq _ _ _ _ _ _ _ _ := rfl
  rm dir ws t :=
    match ws with
    | [x] =>
      match h : t.entry (dir ++ [x]) with
      | some (.link u) => some (t.remove (dir ++ [x]) ⟨u, h⟩)
      | _ => none
    | _ => none
  ln dir ws t :=
    match ws with
    | [u, x] =>
      if h : t.entry dir = some .directory ∧ Plain x ∧ t.entry (dir ++ [x]) = none then
        some (t.link dir x u h.1 h.2.1 h.2.2)
      else none
    | _ => none
  basename ws := baseName (ws.headD [])
  rm_eq dir x u t h _ := by
    refine ⟨t.remove (dir ++ [x]) ⟨u, h⟩, ?_, fun p => rfl⟩
    dsimp only
    split
    · rfl
    · rename_i other
      exact absurd h (other u)
  ln_eq dir u x t directory new plain _ _ _ :=
    ⟨t.link dir x u directory plain new, dif_pos ⟨directory, plain, new⟩, fun p => rfl⟩
  basename_eq _ _ := rfl

/-- `/usr/lib/aarch64-linux-gnu` -/
def libDir : Unix.Path := ["usr".toList, "lib".toList, "aarch64-linux-gnu".toList]

/-- `libblas3` is installed: an alternative is chosen in `/etc`. -/
def blasEntries : List (Unix.Path × DirEntry) :=
  [(["usr".toList], .directory), (["usr".toList, "lib".toList], .directory), (libDir, .directory),
    (libDir ++ ["blas".toList], .directory),
    (libDir ++ ["blas".toList, "libblas.so.3".toList], .file),
    (libDir ++ ["libblas.so.3".toList],
      .link "/etc/alternatives/libblas.so.3-aarch64-linux-gnu".toList),
    (["etc".toList], .directory), (["etc".toList, "alternatives".toList], .directory),
    (["etc".toList, "alternatives".toList, "libblas.so.3-aarch64-linux-gnu".toList],
      .link "/usr/lib/aarch64-linux-gnu/blas/libblas.so.3".toList)]

/-- The root file system with them. -/
def blasTree : Tree := .ofList blasEntries (by decide)

/-- The entries of the library directory. -/
theorem mem_blasEntries {x : Text} {e : DirEntry} (h : blasTree.entry (libDir ++ [x]) = some e) :
    (x, e) = ("blas".toList, .directory) ∨ (x, e) = ("libblas.so.3".toList,
      .link "/etc/alternatives/libblas.so.3-aarch64-linux-gnu".toList) := by
  have listed : ∀ y ∈ blasEntries, y.1.dropLast = libDir →
      (y.1.getLastD [], y.2) = ("blas".toList, .directory) ∨
        (y.1.getLastD [], y.2) = ("libblas.so.3".toList,
          .link "/etc/alternatives/libblas.so.3-aarch64-linux-gnu".toList) := by decide
  have member : (libDir ++ [x], e) ∈ blasEntries := mem_of_entryOf (by simp) h
  simpa using listed _ member (by simp)

/-- The directory. -/
def blasDir : LibDir where
  tree := blasTree
  triplet := "aarch64-linux-gnu".toList
  names := ["blas".toList, "libblas.so.3".toList]
  directory := rfl
  mem_names x := by
    constructor
    · intro h
      obtain ⟨e, he⟩ := Option.ne_none_iff_exists'.mp h
      rcases mem_blasEntries he with e | e <;> simp [(Prod.mk.inj e).1]
    · intro h
      simp only [List.mem_cons, List.not_mem_nil, or_false] at h
      rcases h with rfl | rfl <;> decide
  clean := by
    constructor
    · intro x h
      obtain ⟨e, he⟩ := Option.ne_none_iff_exists'.mp h
      rcases mem_blasEntries he with e | e
      · rw [(Prod.mk.inj e).1]
        decide
      · rw [(Prod.mk.inj e).1]
        decide
    · intro x u h
      rcases mem_blasEntries h with e | e
      · cases (Prod.mk.inj e).2
      · obtain rfl := DirEntry.link.inj (Prod.mk.inj e).2
        decide

theorem tame_blas : Tame someLinkTools blasDir.tree blasDir.dir := by
  refine tame_of_literal fun x u h _ => ?_
  rcases mem_blasEntries h with e | e
  · cases (Prod.mk.inj e).2
  · obtain ⟨rfl, he⟩ := Prod.mk.inj e
    obtain rfl := DirEntry.link.inj he
    decide

/-- `libblas.so.3` leads to the library. -/
theorem leads_blas : Leads blasDir.tree blasDir.dir ["libblas.so.3".toList]
    (libDir ++ ["blas".toList, "libblas.so.3".toList]) :=
  leads_iff_lookup.mpr ⟨16, by decide⟩

theorem fixed_iff_blas : blasDir.Fixed someLinkTools ↔ blasDir.Sound :=
  blasDir.fixed_iff someLinkTools tame_blas

/-- The alternative has another name than the library, and the link to it comes to nothing. -/
theorem not_fixed_blas : ¬ blasDir.Fixed someLinkTools := by
  intro h
  obtain ⟨lines, listing⟩ := blasDir.exists_listing
  have run := fixupLibs_eq someLinkTools listing blasDir.clean tame_blas
  obtain ⟨fixes, -⟩ := h lines listing _ run
  have leads := fixes.leads _ _ _ rfl leads_blas
  rw [leads_relink_iff rfl (by decide) ⟨'e', by decide, by decide⟩] at leads
  exact not_leads_of_step (by decide) leads

end VeRoot
