import VeRoot.Unix.Expansion
import Mathlib.Data.List.DropRight
import Mathlib.Data.Set.Basic

/-!
# The arguments of debootstrap

`genrootfs.sh` reads up to three lists of packages, joins each with `xargs` and `sed`, and
passes them to `debootstrap` in two options.  None of the expansions is quoted, and the list of
excluded packages is joined with a space behind each comma.

## Main definitions

* `GenOption`, `GenParams`, `parseParams` — the arguments of the script.
* `packages` — one list, joined.
* `genrootfs` — the arguments of `debootstrap`.
* `Bootstrap`, `Bootstrap.expected` — a call of the script, and the call that it should make.
* `intact_iff` — the main result.
-/

namespace VeRoot

open Unix

/-! ## The script -/

/-- An option of the script. -/
inductive GenOption
  | arch | release | out | pfile | efile | dfile
  deriving DecidableEq, Repr

/-- `case $1 in …` -/
def GenOption.ofText (t : Text) : Option GenOption :=
  if t = "-a".toList ∨ t = "--arch".toList then some .arch
  else if t = "-r".toList ∨ t = "--release".toList then some .release
  else if t = "-o".toList ∨ t = "--out".toList then some .out
  else if t = "-p".toList ∨ t = "--pfile".toList then some .pfile
  else if t = "-e".toList ∨ t = "--efile".toList then some .efile
  else if t = "-d".toList ∨ t = "--dfile".toList then some .dfile
  else none

/-- The variables that the options set.  Those of the three lists are not reset when the script
starts; they are taken to be unset in its environment. -/
structure GenParams where
  /-- `ARCH` -/
  arch : Text := []
  /-- `RELEASE` -/
  release : Text := []
  /-- `OUTDIR` -/
  outdir : Text := []
  /-- `PFILE` -/
  pfile : Text := []
  /-- `EFILE` -/
  efile : Text := []
  /-- `DFILE` -/
  dfile : Text := []
  deriving DecidableEq, Repr

/-- What an option does. -/
def GenParams.set (p : GenParams) : GenOption → Text → GenParams
  | .arch, v => { p with arch := v }
  | .release, v => { p with release := v }
  | .out, v => { p with outdir := v }
  | .pfile, v => { p with pfile := v }
  | .efile, v => { p with efile := v }
  | .dfile, v => { p with dfile := v }

/-- The loop over the arguments; `none` for the call of `usage`, which exits. -/
def parseParams : List Text → GenParams → Option GenParams
  | [], p => some p
  | [o], p => (GenOption.ofText o).map fun k => p.set k []
  | o :: v :: rest, p => (GenOption.ofText o).bind fun k => parseParams rest (p.set k v)

/-- `sed -e 's/ /new/g'` -/
def sedSpaces (new t : Text) : Text := t.flatMap fun c => if c = ' ' then new else [c]

/-- `$(cat … | xargs | sed -e 's/ /new/g')`, of a file with the text `t`.  The newlines at the end
go. -/
def packages (limit : ℕ) (new t : Text) : Text :=
  (sedSpaces new ((xargs limit (tokens t)).flatMap fun l =>
    [' '].intercalate l ++ ['\n'])).rdropWhile (· = '\n')

/-- `cat $v` -/
def catFiles (g : Globbing) (files : Text → Text) (v : Text) : Text := (g.expand v).flatMap files

/-- `PKG_INCLUDE` -/
def pkgInclude (limit : ℕ) (g : Globbing) (files : Text → Text) (p : GenParams) : Text :=
  let pkgs := if p.pfile = [] then [] else packages limit [','] (catFiles g files p.pfile)
  if p.dfile = [] then pkgs
  else pkgs ++ ',' :: packages limit [','] (catFiles g files p.dfile)

/-- `PKG_EXCLUDE` -/
def pkgExclude (limit : ℕ) (g : Globbing) (files : Text → Text) (p : GenParams) : Text :=
  if p.efile = [] then [] else packages limit ", ".toList (catFiles g files p.efile)

/-- An option, unless its argument is empty. -/
def optionOf (name value : Text) : Text := if value = [] then [] else name ++ value

/-- The options that are the same in every call. -/
def fixedOptions : List Text :=
  ["--keyring=/usr/share/keyrings/ubuntu-archive-keyring.gpg".toList, "--verbose".toList,
    "--foreign".toList, "--variant=minbase".toList]

/-- `genrootfs.sh`, called with `argv`: the arguments of `debootstrap`, if it is called. -/
def genrootfs (limit : ℕ) (g : Globbing) (files : Text → Text) (argv : List Text) :
    Option (List Text) :=
  match parseParams argv {} with
  | none => none
  | some p =>
    if p.arch = [] ∨ p.release = [] ∨ p.outdir = [] then none
    else
      some <| g.expand ("--arch=".toList ++ p.arch) ++ fixedOptions ++
        g.expand (optionOf "--exclude=".toList (pkgExclude limit g files p)) ++
        g.expand (optionOf "--include=".toList (pkgInclude limit g files p)) ++
        g.expand p.release ++ g.expand p.outdir

/-! ## Calls -/

/-- The characters of the name of a package. -/
def isPackageChar (c : Char) : Bool := c.isAlphanum || ['+', '-', '.'].contains c

/-- The name of a package.  It is a part of a file name. -/
def IsPackage (w : Text) : Prop :=
  w ≠ [] ∧ w.length ≤ 255 ∧ w.head? ≠ some '-' ∧ ∀ c ∈ w, isPackageChar c = true

instance (w : Text) : Decidable (IsPackage w) := inferInstanceAs (Decidable (_ ∧ _))

/-- A call of the script.  A list that is absent has no file. -/
structure Bootstrap where
  /-- How long a command line of `xargs` may be. -/
  limit : ℕ
  /-- `LINE_MAX` -/
  le_limit : 2048 ≤ limit
  arch : Text
  out : Text
  release : Text
  pfile : Option Text
  efile : Option Text
  dfile : Option Text
  files : Text → Text
  solid : Solid arch ∧ Solid out ∧ Solid release
  /-- The names of the files are words. -/
  names : ∀ f ∈ pfile.toList ++ efile.toList ++ dfile.toList, Solid f ∧ ∀ c ∈ f, isGlob c = false
  /-- The files are lists of packages. -/
  lists : ∀ f ∈ pfile.toList ++ efile.toList ++ dfile.toList, ∀ w ∈ tokens (files f), IsPackage w

namespace Bootstrap

variable (b : Bootstrap)

/-- The arguments of the script. -/
def argv : List Text :=
  ["--arch".toList, b.arch, "--out".toList, b.out, "--release".toList, b.release] ++
    b.pfile.toList.flatMap (fun f => ["--pfile".toList, f]) ++
    b.efile.toList.flatMap (fun f => ["--efile".toList, f]) ++
    b.dfile.toList.flatMap (fun f => ["--dfile".toList, f])

/-- The packages of a list. -/
def listed (f : Option Text) : List Text := f.toList.flatMap fun f => tokens (b.files f)

/-- An option with a list of packages. -/
def listOption (name : Text) (ws : List Text) : List Text :=
  if ws = [] then [] else [name ++ [','].intercalate ws]

/-- **The call of `debootstrap`.** -/
def expected : List Text :=
  ("--arch=".toList ++ b.arch) :: fixedOptions ++
    listOption "--exclude=".toList (b.listed b.efile) ++
    listOption "--include=".toList (b.listed b.pfile ++ b.listed b.dfile) ++ [b.release, b.out]

/-- `debootstrap` takes the word for an option. -/
def isOption (w : Text) : Bool := w.head? == some '-'

end Bootstrap

/-- What files there may be when the script is called. -/
structure Surroundings where
  globs : Set Globbing
  /-- There may be none that a pattern matches. -/
  none_mem : Globbing.none ∈ globs

/-- **`debootstrap` gets the lists intact**, and behind its options just the release and the output
directory, whatever files there are. -/
def Bootstrap.Intact (b : Bootstrap) (s : Surroundings) : Prop :=
  ∀ g ∈ s.globs, ∃ argv, genrootfs b.limit g b.files b.argv = some argv ∧ argv = b.expected ∧
    argv.dropWhile Bootstrap.isOption = [b.release, b.out]

/-- The packages fit on one command line. -/
def Fits (limit : ℕ) (ws : List Text) : Prop := ws = [] ∨ lineSize ws ≤ limit

/-- At most one package is excluded, a list of development packages is not empty and extends a list
that is not empty either, and the shell leaves the other arguments as they are. -/
structure Bootstrap.Sound (b : Bootstrap) (s : Surroundings) : Prop where
  excludes : (b.listed b.efile).length ≤ 1
  includes : b.dfile ≠ none → b.listed b.pfile ≠ [] ∧ b.listed b.dfile ≠ []
  fits : ∀ f ∈ [b.pfile, b.efile, b.dfile], Fits b.limit (b.listed f)
  words : ∀ g ∈ s.globs, g.files ("--arch=".toList ++ b.arch) = ["--arch=".toList ++ b.arch] ∧
    g.files b.release = [b.release] ∧ g.files b.out = [b.out]
  release : Bootstrap.isOption b.release = false

section Genrootfs

variable {limit : ℕ} {g : Globbing} {new t w : Text} {l m ws : List Text} {c : Char} {b : Bootstrap}
  {f : Option Text}

/-! ## One list -/

theorem sedSpaces_append (new a t : Text) :
    sedSpaces new (a ++ t) = sedSpaces new a ++ sedSpaces new t :=
  List.flatMap_append

/-- A word has no spaces. -/
theorem sedSpaces_solid (h : Solid w) : sedSpaces new w = w := by
  have same : ∀ c ∈ w, (if c = ' ' then new else [c]) = [c] := by
    intro c hc
    refine if_neg ?_
    rintro rfl
    exact Bool.noConfusion (h.2 ' ' hc)
  rw [sedSpaces, List.flatMap_congr same, List.flatMap_singleton']

theorem sedSpaces_intercalate (h : ∀ w ∈ l, Solid w) :
    sedSpaces new ([' '].intercalate l) = new.intercalate l := by
  induction l with
  | nil => rfl
  | cons w l ih =>
    have hw : sedSpaces new w = w := sedSpaces_solid (h w (by simp))
    have hl : ∀ v ∈ l, Solid v := fun v hv => h v (by simp [hv])
    cases l with
    | nil => simpa using hw
    | cons v l =>
      rw [List.intercalate_cons_cons, List.intercalate_cons_cons, sedSpaces_append,
        sedSpaces_append, hw, ih hl]
      simp [sedSpaces]

/-- What `sed` prints. -/
theorem sedSpaces_lines {ls : List (List Text)} (h : ∀ l ∈ ls, ∀ w ∈ l, Solid w) :
    sedSpaces new (ls.flatMap fun l => [' '].intercalate l ++ ['\n']) =
      ls.flatMap fun l => new.intercalate l ++ ['\n'] := by
  induction ls with
  | nil => rfl
  | cons l ls ih =>
    rw [List.flatMap_cons, List.flatMap_cons, sedSpaces_append, sedSpaces_append,
      sedSpaces_intercalate (h l (by simp)), ih fun l hl => h l (by simp [hl])]
    rfl

/-- What stands behind the last character of another kind goes. -/
theorem rdropWhile_append_cons {p : Char → Bool} (h : p c = false) (a t : Text) :
    (a ++ c :: t).rdropWhile p = a ++ c :: t.rdropWhile p := by
  induction t using List.reverseRecOn with
  | nil =>
    rw [List.rdropWhile_concat_neg _ _ _ (by simp [h])]
    simp
  | append_singleton t x ih =>
    have e : a ++ c :: (t ++ [x]) = (a ++ c :: t) ++ [x] := by simp
    by_cases hx : p x = true
    · rw [e, List.rdropWhile_concat_pos _ _ _ hx, List.rdropWhile_concat_pos _ _ _ hx, ih]
    · rw [e, List.rdropWhile_concat_neg _ _ _ hx, List.rdropWhile_concat_neg _ _ _ hx]
      simp

/-- A text without newlines is not cut. -/
theorem rdropWhile_of_notMem (h : '\n' ∉ t) : t.rdropWhile (· = '\n') = t := by
  rcases List.eq_nil_or_concat t with rfl | ⟨u, x, rfl⟩
  · rfl
  · rw [List.concat_eq_append] at h ⊢
    refine List.rdropWhile_concat_neg _ _ _ ?_
    simp only [decide_eq_true_eq]
    rintro rfl
    simp at h

/-- The separator and the words have no newline. -/
theorem newline_notMem_intercalate (hnew : '\n' ∉ new) (h : ∀ w ∈ l, Solid w) :
    '\n' ∉ new.intercalate l := by
  intro hm
  rcases mem_intercalate hm with hm | ⟨w, hw, hm⟩
  · exact hnew hm
  · exact Bool.noConfusion ((h w hw).2 _ hm)

/-- The text begins with the first word. -/
theorem intercalate_cons_eq (new w : Text) (l : List Text) :
    ∃ r, new.intercalate (w :: l) = w ++ r := by
  cases l with
  | nil => exact ⟨[], by simp⟩
  | cons v l => exact ⟨_, by rw [List.intercalate_cons_cons, List.append_assoc]⟩

theorem packages_eq (ht : ∀ w ∈ tokens t, lineSize [w] ≤ limit) :
    packages limit new t = ((xargs limit (tokens t)).flatMap fun l =>
      new.intercalate l ++ ['\n']).rdropWhile (· = '\n') := by
  rw [packages, sedSpaces_lines fun l hl w hw => solid_of_mem_tokens (mem_of_mem_xargs ht hl hw)]

/-- All on one line. -/
theorem packages_of_fits (ht : ∀ w ∈ tokens t, lineSize [w] ≤ limit) (hnew : '\n' ∉ new)
    (h : Fits limit (tokens t)) : packages limit new t = new.intercalate (tokens t) := by
  have one : xargs limit (tokens t) = [tokens t] := by
    rcases h with h | h
    · rw [h]
      rfl
    · exact fill_of_fits h
  have solid : ∀ w ∈ tokens t, Solid w := fun w hw => solid_of_mem_tokens hw
  rw [packages_eq ht, one, List.flatMap_singleton, List.rdropWhile_concat_pos _ _ _ (by simp),
    rdropWhile_of_notMem (newline_notMem_intercalate hnew solid)]

/-- **A list that does not fit** is torn between two lines. -/
theorem packages_cases (ht : ∀ w ∈ tokens t, lineSize [w] ≤ limit) :
    Torn (packages limit new t) ∨ Fits limit (tokens t) := by
  rcases xargs_cases ht with ⟨-, fits⟩ | ⟨l, m, ls, h, hl, hm⟩
  · exact .inr fits
  · -- the second line begins with a package
    obtain ⟨w, m, rfl⟩ := List.exists_cons_of_ne_nil hm
    have hw : Solid w := solid_of_mem_tokens
      (mem_of_mem_xargs (l := w :: m) ht (by rw [h]; simp) (by simp))
    obtain ⟨c, v, rfl⟩ := List.exists_cons_of_ne_nil hw.1
    have hc : isSpace c = false := hw.2 c (by simp)
    obtain ⟨r, hr⟩ := intercalate_cons_eq new (c :: v) m
    have stays : decide (c = '\n') = false := by
      rw [decide_eq_false_iff_not]
      rintro rfl
      exact Bool.noConfusion hc
    have split : ∀ rest : Text, new.intercalate l ++ ['\n'] ++ ((c :: v) ++ r ++ ['\n'] ++ rest) =
        (new.intercalate l ++ ['\n']) ++ c :: (v ++ r ++ ['\n'] ++ rest) := by simp
    have text : packages limit new t = (new.intercalate l ++ ['\n']) ++
        c :: (v ++ r ++ ['\n'] ++ ls.flatMap fun l => new.intercalate l ++ ['\n']).rdropWhile
          (· = '\n') := by
      rw [packages_eq ht, h, List.flatMap_cons, List.flatMap_cons, hr, split,
        rdropWhile_append_cons stays]
    exact .inl ⟨new.intercalate l, '\n', c, _, by simpa using text, rfl, hc⟩

/-! ## The call -/

/-- A list, joined, if there is one. -/
def Bootstrap.joined (b : Bootstrap) (new : Text) (f : Option Text) : Text :=
  f.elim [] fun f => packages b.limit new (b.files f)

/-- `PKG_EXCLUDE`, in the call `b`. -/
def Bootstrap.excluded (b : Bootstrap) : Text := b.joined ", ".toList b.efile

/-- `PKG_INCLUDE`, in the call `b`. -/
def Bootstrap.included (b : Bootstrap) : Text :=
  b.joined [','] b.pfile ++ if b.dfile = none then [] else ',' :: b.joined [','] b.dfile

theorem parseParams_argv (b : Bootstrap) : parseParams b.argv {} =
    some ⟨b.arch, b.release, b.out, b.pfile.getD [], b.efile.getD [], b.dfile.getD []⟩ := by
  rw [Bootstrap.argv]
  cases b.pfile <;> cases b.efile <;> cases b.dfile <;> rfl

/-- A file name is read as one word. -/
theorem catFiles_of_literal (h : Solid w ∧ ∀ c ∈ w, isGlob c = false) (files : Text → Text) :
    catFiles g files w = files w := by
  rw [catFiles, Globbing.expand_of_solid h.1, g.literal w h.2]
  simp

theorem joined_eq (hf : ∀ x ∈ f, Solid x ∧ ∀ c ∈ x, isGlob c = false) :
    (if f.getD [] = [] then [] else packages b.limit new (catFiles g b.files (f.getD []))) =
      b.joined new f := by
  cases f with
  | none => rfl
  | some x =>
    have hx := hf x rfl
    simp [hx.1.1, catFiles_of_literal hx, Bootstrap.joined]

/-- **The arguments that `debootstrap` gets.** -/
theorem genrootfs_eq (g : Globbing) (b : Bootstrap) :
    genrootfs b.limit g b.files b.argv =
      some (g.expand ("--arch=".toList ++ b.arch) ++ fixedOptions ++
        g.expand (optionOf "--exclude=".toList b.excluded) ++
        g.expand (optionOf "--include=".toList b.included) ++
        g.files b.release ++ g.files b.out) := by
  obtain ⟨harch, hout, hrelease⟩ := b.solid
  have hp : ∀ x ∈ b.pfile, Solid x ∧ ∀ c ∈ x, isGlob c = false := fun x hx =>
    b.names x (by simp [Option.mem_def.mp hx])
  have he : ∀ x ∈ b.efile, Solid x ∧ ∀ c ∈ x, isGlob c = false := fun x hx =>
    b.names x (by simp [Option.mem_def.mp hx])
  have hd : ∀ x ∈ b.dfile, Solid x ∧ ∀ c ∈ x, isGlob c = false := fun x hx =>
    b.names x (by simp [Option.mem_def.mp hx])
  rw [genrootfs, parseParams_argv]
  simp only [harch.1, hout.1, hrelease.1, or_self, if_false, Option.some.injEq]
  have pkgs : pkgInclude b.limit g b.files ⟨b.arch, b.release, b.out, b.pfile.getD [],
      b.efile.getD [], b.dfile.getD []⟩ = b.included := by
    rw [pkgInclude, Bootstrap.included]
    dsimp only
    rw [joined_eq hp]
    cases hdf : b.dfile with
    | none => simp
    | some d =>
      have hx := hd d hdf
      simp [hx.1.1, catFiles_of_literal hx, Bootstrap.joined]
  rw [pkgExclude, joined_eq he, pkgs, Globbing.expand_of_solid hout,
    Globbing.expand_of_solid hrelease, Bootstrap.excluded]

/-! ## One option -/

/-- A character of another kind is not in the name of a package. -/
theorem ne_of_isPackageChar {x : Char} (h : isPackageChar c = true) (hx : isPackageChar x = false) :
    c ≠ x := by
  rintro rfl
  rw [h] at hx
  exact Bool.noConfusion hx

theorem isSpace_of_isPackageChar (h : isPackageChar c = true) : isSpace c = false := by
  simp [isSpace, ne_of_isPackageChar h (x := ' ') rfl, ne_of_isPackageChar h (x := '\t') rfl,
    ne_of_isPackageChar h (x := '\n') rfl]

theorem isGlob_of_isPackageChar (h : isPackageChar c = true) : isGlob c = false := by
  simp [isGlob, ne_of_isPackageChar h (x := '*') rfl, ne_of_isPackageChar h (x := '?') rfl,
    ne_of_isPackageChar h (x := '[') rfl, ne_of_isPackageChar h (x := '\\') rfl]

theorem IsPackage.solid (h : IsPackage w) : Solid w :=
  ⟨h.1, fun c hc => isSpace_of_isPackageChar (h.2.2.2 c hc)⟩

theorem IsPackage.notMem_comma (h : IsPackage w) : ',' ∉ w := fun hm =>
  ne_of_isPackageChar (h.2.2.2 _ hm) rfl rfl

/-- The fields of a joined list are its packages. -/
theorem splitOn_intercalate_packages (h : ∀ w ∈ l, IsPackage w) :
    ([','].intercalate l).splitOn ',' = if l = [] then [[]] else l := by
  split_ifs with hl
  · rw [hl]
    rfl
  · exact List.splitOn_intercalate ',' (fun w hw => (h w hw).notMem_comma) hl

/-- A list can be read off when it is joined. -/
theorem eq_of_intercalate_eq (hl : ∀ w ∈ l, IsPackage w) (hws : ∀ w ∈ ws, IsPackage w)
    (h : [','].intercalate l = [','].intercalate ws) : l = ws := by
  have fields := congrArg (List.splitOn ',') h
  rw [splitOn_intercalate_packages hl, splitOn_intercalate_packages hws] at fields
  split_ifs at fields with h₁ h₂ h₂
  · rw [h₁, h₂]
  · exact absurd rfl (hws [] (by rw [← fields]; simp)).1
  · exact absurd rfl (hl [] (by rw [fields]; simp)).1
  · exact fields

theorem listOption_length_le (name : Text) (ws : List Text) :
    (Bootstrap.listOption name ws).length ≤ 1 := by
  rw [Bootstrap.listOption]
  split_ifs <;> simp

/-- A torn list gives too many arguments. -/
theorem tokens_optionOf_ne (name : Text) (hname : Solid name) (h : Torn t) (ws : List Text) :
    tokens (optionOf name t) ≠ Bootstrap.listOption name ws := by
  intro e
  obtain ⟨c, v, hv⟩ := List.exists_cons_of_ne_nil hname.1
  have two := h.two_le (a := name) (c := c) (by simp [hv]) (hname.2 c (by simp [hv])) []
  rw [List.append_nil] at two
  rw [optionOf, if_neg h.ne_nil] at e
  rw [e] at two
  have := listOption_length_le name ws
  omega

/-- Packages that are joined without spaces. -/
theorem tokens_optionOf (name : Text) (hname : Solid name) (h : ∀ c ∈ t, isSpace c = false) :
    tokens (optionOf name t) = if t = [] then [] else [name ++ t] := by
  rw [optionOf]
  split_ifs with ht
  · rfl
  · refine Solid.tokens ⟨by simp [hname.1], fun c hc => ?_⟩
    exact (List.mem_append.mp hc).elim (hname.2 c) (h c)

theorem isSpace_intercalate (h : ∀ w ∈ l, IsPackage w) :
    ∀ c ∈ [','].intercalate l, isSpace c = false := by
  intro c hc
  rcases mem_intercalate hc with hc | ⟨w, hw, hc⟩
  · obtain rfl := List.mem_singleton.mp hc
    rfl
  · exact (h w hw).solid.2 c hc

theorem intercalate_eq_nil_iff (h : ∀ w ∈ l, IsPackage w) : [','].intercalate l = [] ↔ l = [] := by
  constructor
  · intro e
    exact eq_of_intercalate_eq h (by simp) e
  · rintro rfl
    rfl

/-- A list that is joined properly. -/
theorem tokens_optionOf_intercalate (name : Text) (hname : Solid name)
    (h : ∀ w ∈ l, IsPackage w) :
    tokens (optionOf name ([','].intercalate l)) = Bootstrap.listOption name l := by
  rw [tokens_optionOf name hname (isSpace_intercalate h), Bootstrap.listOption]
  simp only [intercalate_eq_nil_iff h]

/-- Two packages with a space between them. -/
theorem torn_intercalate {v : Text} (hv : Solid v) (w : Text) (l : List Text) :
    Torn (", ".toList.intercalate (w :: v :: l)) := by
  obtain ⟨c, u, rfl⟩ := List.exists_cons_of_ne_nil hv.1
  obtain ⟨r, hr⟩ := intercalate_cons_eq ", ".toList (c :: u) l
  refine ⟨w ++ [','], ' ', c, u ++ r, ?_, rfl, hv.2 c (by simp)⟩
  rw [List.intercalate_cons_cons, hr]
  simp

/-! ## The lists of a call -/

theorem Bootstrap.isPackage_listed (b : Bootstrap)
    (hf : ∀ x ∈ f.toList, x ∈ b.pfile.toList ++ b.efile.toList ++ b.dfile.toList) :
    ∀ w ∈ b.listed f, IsPackage w := by
  intro w hw
  obtain ⟨x, hx, hw⟩ := List.mem_flatMap.mp hw
  exact b.lists x (hf x hx) w hw

theorem Bootstrap.isPackage_efile (b : Bootstrap) : ∀ w ∈ b.listed b.efile, IsPackage w :=
  b.isPackage_listed fun x hx => by simp [hx]

theorem Bootstrap.isPackage_pfile (b : Bootstrap) : ∀ w ∈ b.listed b.pfile, IsPackage w :=
  b.isPackage_listed fun x hx => by simp [hx]

theorem Bootstrap.isPackage_dfile (b : Bootstrap) : ∀ w ∈ b.listed b.dfile, IsPackage w :=
  b.isPackage_listed fun x hx => by simp [hx]

/-- A package fits on a line of its own. -/
theorem Bootstrap.lineSize_le (b : Bootstrap) (hw : IsPackage w) : lineSize [w] ≤ b.limit := by
  refine le_trans ?_ b.le_limit
  have short := hw.2.1
  simp only [lineSize, List.map_cons, List.map_nil, List.sum_cons, List.sum_nil]
  have : "echo".length = 4 := rfl
  omega

/-- A list fits, or it is torn. -/
theorem joined_cases (b : Bootstrap) (hf : ∀ w ∈ b.listed f, IsPackage w) (new : Text) :
    Torn (b.joined new f) ∨ Fits b.limit (b.listed f) := by
  cases f with
  | none => exact .inr (.inl rfl)
  | some x =>
    rw [Bootstrap.listed, Option.toList_some, List.flatMap_singleton] at hf ⊢
    exact packages_cases fun w hw => b.lineSize_le (hf w hw)

theorem joined_of_fits (hnew : '\n' ∉ new) (hf : ∀ w ∈ b.listed f, IsPackage w)
    (h : Fits b.limit (b.listed f)) : b.joined new f = new.intercalate (b.listed f) := by
  cases f with
  | none => rfl
  | some x =>
    rw [Bootstrap.listed, Option.toList_some, List.flatMap_singleton] at hf h ⊢
    exact packages_of_fits (fun w hw => b.lineSize_le (hf w hw)) hnew h

/-- The excluded packages fit, and there are no two of them, or they are torn. -/
theorem excluded_cases (b : Bootstrap) : Torn b.excluded ∨
    (b.listed b.efile).length ≤ 1 ∧ Fits b.limit (b.listed b.efile) := by
  rcases joined_cases b b.isPackage_efile ", ".toList with torn | fits
  · exact .inl torn
  · rw [Bootstrap.excluded, joined_of_fits (by decide) b.isPackage_efile fits]
    have packs := b.isPackage_efile
    match he : b.listed b.efile with
    | [] => exact .inr ⟨by simp, .inl rfl⟩
    | [w] => exact .inr ⟨by simp, he ▸ fits⟩
    | w :: v :: l =>
      rw [he] at packs
      exact .inl (torn_intercalate (packs v (by simp)).solid w l)

theorem tokens_excluded (h : (b.listed b.efile).length ≤ 1)
    (fits : Fits b.limit (b.listed b.efile)) :
    tokens (optionOf "--exclude=".toList b.excluded) =
      Bootstrap.listOption "--exclude=".toList (b.listed b.efile) := by
  have same :
      ", ".toList.intercalate (b.listed b.efile) = [','].intercalate (b.listed b.efile) := by
    match b.listed b.efile, h with
    | [], _ => rfl
    | [w], _ => simp
  rw [Bootstrap.excluded, joined_of_fits (by decide) b.isPackage_efile fits, same,
    tokens_optionOf_intercalate _ (by decide) b.isPackage_efile]

theorem intercalate_append (sep : Text) (hl : l ≠ []) (hm : m ≠ []) :
    sep.intercalate (l ++ m) = sep.intercalate l ++ sep ++ sep.intercalate m := by
  induction l with
  | nil => exact absurd rfl hl
  | cons w l ih =>
    cases l with
    | nil =>
      rw [List.singleton_append, List.intercalate_cons_of_ne_nil hm, List.intercalate_singleton]
    | cons v l =>
      rw [List.cons_append, List.cons_append, List.intercalate_cons_cons,
        List.intercalate_cons_cons, ← List.cons_append, ih (by simp)]
      simp only [List.append_assoc]

/-- Two lists with a comma between them are one list only if neither of them is empty. -/
theorem joined_eq_iff (hl : ∀ w ∈ l, IsPackage w) (hm : ∀ w ∈ m, IsPackage w) :
    [','].intercalate l ++ ',' :: [','].intercalate m = [','].intercalate (l ++ m) ↔
      l ≠ [] ∧ m ≠ [] := by
  have hlm : ∀ w ∈ l ++ m, IsPackage w := fun w hw => (List.mem_append.mp hw).elim (hl w) (hm w)
  constructor
  · intro h
    have fields := congrArg (List.splitOn ',') h
    rw [List.splitOn_append_cons_self, splitOn_intercalate_packages hl,
      splitOn_intercalate_packages hm, splitOn_intercalate_packages hlm] at fields
    have lengths := congrArg List.length fields
    constructor
    · rintro rfl
      split_ifs at lengths <;> simp_all
    · rintro rfl
      split_ifs at lengths <;> simp_all
  · rintro ⟨h₁, h₂⟩
    rw [intercalate_append [','] h₁ h₂, List.append_assoc, List.singleton_append]

/-- **The included packages are passed on** unless a list of development packages is given and
one of the two lists is empty. -/
theorem tokens_included_iff (b : Bootstrap) :
    tokens (optionOf "--include=".toList b.included) =
        Bootstrap.listOption "--include=".toList (b.listed b.pfile ++ b.listed b.dfile) ↔
      Fits b.limit (b.listed b.pfile) ∧ Fits b.limit (b.listed b.dfile) ∧
        (b.dfile ≠ none → b.listed b.pfile ≠ [] ∧ b.listed b.dfile ≠ []) := by
  have hname : Solid "--include=".toList := by decide
  have hp := b.isPackage_pfile
  have hd := b.isPackage_dfile
  have packs : ∀ w ∈ b.listed b.pfile ++ b.listed b.dfile, IsPackage w := fun w hw =>
    (List.mem_append.mp hw).elim (hp w) (hd w)
  constructor
  · intro h
    rcases joined_cases b hp [','] with torn | fits
    · exact absurd h (tokens_optionOf_ne _ hname (torn.append _) _)
    by_cases none : b.dfile = none
    · refine ⟨fits, .inl ?_, fun ne => absurd none ne⟩
      rw [none]
      rfl
    rw [Bootstrap.included, if_neg none] at h
    rcases joined_cases b hd [','] with torn | fits'
    · have torn := torn.prepend (b.joined [','] b.pfile ++ [','])
      rw [List.append_assoc, List.singleton_append] at torn
      exact absurd h (tokens_optionOf_ne _ hname torn _)
    refine ⟨fits, fits', fun _ => ?_⟩
    rw [joined_of_fits (by decide) hp fits, joined_of_fits (by decide) hd fits'] at h
    -- neither part has a space, so this is one argument
    have solid : ∀ c ∈ [','].intercalate (b.listed b.pfile) ++
        ',' :: [','].intercalate (b.listed b.dfile), isSpace c = false := by
      intro c hc
      rcases List.mem_append.mp hc with hc | hc
      · exact isSpace_intercalate hp c hc
      · rcases List.mem_cons.mp hc with rfl | hc
        · rfl
        · exact isSpace_intercalate hd c hc
    rw [tokens_optionOf _ hname solid, if_neg (by simp), Bootstrap.listOption] at h
    split_ifs at h
    exact (joined_eq_iff hp hd).mp (List.append_cancel_left (List.singleton_inj.mp h))
  · rintro ⟨fits, fits', ne⟩
    rw [Bootstrap.included, joined_of_fits (by decide) hp fits]
    split_ifs with none
    · have nil : b.listed b.dfile = [] := by
        rw [none]
        rfl
      rw [nil, List.append_nil, List.append_nil, tokens_optionOf_intercalate _ hname hp]
    · rw [joined_of_fits (by decide) hd fits', (joined_eq_iff hp hd).mpr (ne none),
        tokens_optionOf_intercalate _ hname packs]

/-! ## All arguments -/

theorem tokens_optionOf_eq_nil {name : Text} (hname : Solid name)
    (h : tokens (optionOf name t) = []) : t = [] := by
  by_contra ne
  obtain ⟨c, v, hv⟩ := List.exists_cons_of_ne_nil hname.1
  rw [optionOf, if_neg ne] at h
  exact tokens_ne_nil (c := c) (by simp [hv]) (hname.2 c (by simp [hv])) h

/-- Nothing is passed on only if nothing is listed. -/
theorem listed_eq_nil_of_included (h : b.included = []) :
    b.listed b.pfile ++ b.listed b.dfile = [] := by
  obtain ⟨left, right⟩ := List.append_eq_nil_iff.mp h
  have none : b.dfile = none := by
    by_contra ne
    rw [if_neg ne] at right
    simp at right
  rw [none]
  rcases joined_cases b b.isPackage_pfile [','] with torn | fits
  · exact absurd left torn.ne_nil
  · rw [joined_of_fits (by decide) b.isPackage_pfile fits,
      intercalate_eq_nil_iff b.isPackage_pfile] at left
    rw [left]
    rfl

/-- **Both lists are right if together they are.** -/
theorem tokens_append_iff (b : Bootstrap) :
    tokens (optionOf "--exclude=".toList b.excluded) ++
          tokens (optionOf "--include=".toList b.included) =
        Bootstrap.listOption "--exclude=".toList (b.listed b.efile) ++
          Bootstrap.listOption "--include=".toList (b.listed b.pfile ++ b.listed b.dfile) ↔
      ((b.listed b.efile).length ≤ 1 ∧ Fits b.limit (b.listed b.efile)) ∧
        Fits b.limit (b.listed b.pfile) ∧ Fits b.limit (b.listed b.dfile) ∧
          (b.dfile ≠ none → b.listed b.pfile ≠ [] ∧ b.listed b.dfile ≠ []) := by
  rw [← tokens_included_iff]
  constructor
  · intro h
    rcases excluded_cases b with torn | ⟨short, fits⟩
    · exfalso
      -- the excluded packages alone are as many arguments as there should be
      have two := torn.two_le (a := "--exclude=".toList) (c := '-') (by decide) rfl []
      rw [List.append_nil] at two
      rw [optionOf, if_neg torn.ne_nil] at h
      have lengths := congrArg List.length h
      rw [List.length_append, List.length_append] at lengths
      have left := listOption_length_le "--exclude=".toList (b.listed b.efile)
      have right := listOption_length_le "--include=".toList (b.listed b.pfile ++ b.listed b.dfile)
      have nothing : tokens (optionOf "--include=".toList b.included) = [] :=
        List.eq_nil_of_length_eq_zero (by omega)
      have none := listed_eq_nil_of_included (tokens_optionOf_eq_nil (by decide) nothing)
      have zero : (Bootstrap.listOption "--include=".toList
          (b.listed b.pfile ++ b.listed b.dfile)).length = 0 := by
        rw [Bootstrap.listOption, if_pos none]
        rfl
      omega
    · rw [tokens_excluded short fits] at h
      exact ⟨⟨short, fits⟩, List.append_cancel_left h⟩
  · rintro ⟨⟨short, fits⟩, included⟩
    rw [tokens_excluded short fits, included]

/-- A list has no patterns. -/
theorem expand_of_tokens {name : Text} (hname : ∀ c ∈ name, isGlob c = false)
    (hws : ∀ w ∈ ws, IsPackage w)
    (h : tokens (optionOf name t) = Bootstrap.listOption name ws) :
    g.expand (optionOf name t) = Bootstrap.listOption name ws := by
  rw [Globbing.expand_of_literal, h]
  intro w hw c hc
  rw [h, Bootstrap.listOption] at hw
  split_ifs at hw
  · simp at hw
  · obtain rfl := List.mem_singleton.mp hw
    rcases List.mem_append.mp hc with hc | hc
    · exact hname c hc
    · rcases mem_intercalate hc with hc | ⟨v, hv, hc⟩
      · obtain rfl := List.mem_singleton.mp hc
        rfl
      · exact isGlob_of_isPackageChar ((hws v hv).2.2.2 c hc)

/-- All words but the last two are options. -/
theorem dropWhile_expected (b : Bootstrap) :
    b.expected.dropWhile Bootstrap.isOption = [b.release, b.out].dropWhile Bootstrap.isOption := by
  have list : ∀ (name : Text) (ws : List Text), Bootstrap.isOption name = true → name ≠ [] →
      ∀ w ∈ Bootstrap.listOption name ws, Bootstrap.isOption w = true := by
    intro name ws hname ne w hw
    rw [Bootstrap.listOption] at hw
    split_ifs at hw
    · simp at hw
    · obtain rfl := List.mem_singleton.mp hw
      obtain ⟨c, v, rfl⟩ := List.exists_cons_of_ne_nil ne
      exact hname
  rw [Bootstrap.expected]
  refine List.dropWhile_append_of_pos fun w hw => ?_
  rcases List.mem_append.mp hw with hw | hw
  · rcases List.mem_append.mp hw with hw | hw
    · rcases List.mem_cons.mp hw with rfl | hw
      · rfl
      · exact (show ∀ w ∈ fixedOptions, Bootstrap.isOption w = true by decide) w hw
    · exact list _ _ rfl (by decide) w hw
  · exact list _ _ rfl (by decide) w hw

/-- What a pattern that begins with `p` stands for is told apart from the next argument. -/
theorem eq_singleton_of_append {us vs ws : List Text} {p a k : Text} (hne : us ≠ [])
    (hus : ∀ u ∈ us, p <+: u) (hk : ¬ p <+: k) (h : us ++ k :: vs = a :: k :: ws) :
    us = [a] ∧ vs = ws := by
  obtain ⟨u, us, rfl⟩ := List.exists_cons_of_ne_nil hne
  rw [List.cons_append, List.cons.injEq] at h
  obtain ⟨rfl, h⟩ := h
  cases us with
  | nil =>
    rw [List.nil_append, List.cons.injEq] at h
    exact ⟨rfl, h.2⟩
  | cons u' us =>
    rw [List.cons_append, List.cons.injEq] at h
    exact absurd (h.1 ▸ hus u' (by simp)) hk

theorem eq_singletons_of_append {us vs : List Text} {r o : Text} (hu : us ≠ []) (hv : vs ≠ [])
    (h : us ++ vs = [r, o]) : us = [r] ∧ vs = [o] := by
  obtain ⟨u, us, rfl⟩ := List.exists_cons_of_ne_nil hu
  obtain ⟨v, vs, rfl⟩ := List.exists_cons_of_ne_nil hv
  have lengths := congrArg List.length h
  simp only [List.length_append, List.length_cons, List.length_nil] at lengths
  obtain rfl : us = [] := List.eq_nil_of_length_eq_zero (by omega)
  obtain rfl : vs = [] := List.eq_nil_of_length_eq_zero (by omega)
  simpa using h

theorem Bootstrap.solid_arch (b : Bootstrap) : Solid ("--arch=".toList ++ b.arch) :=
  ⟨by simp, fun c hc => (List.mem_append.mp hc).elim
    ((show ∀ c ∈ "--arch=".toList, isSpace c = false by decide) c) (b.solid.1.2 c)⟩

/-- **The arguments are right exactly if the lists are and the shell leaves the other words
alone.** -/
theorem arguments_iff (g : Globbing) (b : Bootstrap)
    (lists : tokens (optionOf "--exclude=".toList b.excluded) =
        Bootstrap.listOption "--exclude=".toList (b.listed b.efile) ∧
      tokens (optionOf "--include=".toList b.included) =
        Bootstrap.listOption "--include=".toList (b.listed b.pfile ++ b.listed b.dfile)) :
    genrootfs b.limit g b.files b.argv = some b.expected ↔
      g.files ("--arch=".toList ++ b.arch) = ["--arch=".toList ++ b.arch] ∧
        g.files b.release = [b.release] ∧ g.files b.out = [b.out] := by
  have packs : ∀ w ∈ b.listed b.pfile ++ b.listed b.dfile, IsPackage w := fun w hw =>
    (List.mem_append.mp hw).elim (b.isPackage_pfile w) (b.isPackage_dfile w)
  rw [genrootfs_eq, Globbing.expand_of_solid b.solid_arch,
    expand_of_tokens (by decide) b.isPackage_efile lists.1,
    expand_of_tokens (by decide) packs lists.2, Option.some.injEq, Bootstrap.expected]
  constructor
  · intro h
    have fixed : fixedOptions = "--keyring=/usr/share/keyrings/ubuntu-archive-keyring.gpg".toList ::
        fixedOptions.tail := rfl
    rw [fixed] at h
    simp only [List.append_assoc, List.cons_append] at h
    obtain ⟨ha, rest⟩ := eq_singleton_of_append (g.ne_nil _)
      (fun u hu => g.prefix_of_mem _ b.arch u (by decide) hu) (by decide) h
    have last := List.append_cancel_left (List.append_cancel_left (List.append_cancel_left rest))
    obtain ⟨hr, ho⟩ := eq_singletons_of_append (g.ne_nil _) (g.ne_nil _) last
    exact ⟨ha, hr, ho⟩
  · rintro ⟨ha, hr, ho⟩
    rw [ha, hr, ho]
    simp

/-- What the call leaves when there are no files. -/
theorem lists_of_none (h : genrootfs b.limit .none b.files b.argv = some b.expected) :
    tokens (optionOf "--exclude=".toList b.excluded) ++
        tokens (optionOf "--include=".toList b.included) =
      Bootstrap.listOption "--exclude=".toList (b.listed b.efile) ++
        Bootstrap.listOption "--include=".toList (b.listed b.pfile ++ b.listed b.dfile) := by
  rw [genrootfs_eq, Globbing.none_expand, Globbing.none_expand, Globbing.none_expand,
    b.solid_arch.tokens, Option.some.injEq, Bootstrap.expected] at h
  have last : Globbing.none.files b.release ++ Globbing.none.files b.out = [b.release, b.out] := rfl
  rw [List.append_assoc _ (Globbing.none.files b.release), last] at h
  have front := List.append_cancel_right h
  simp only [List.append_assoc, List.cons_append, List.nil_append, List.cons.injEq,
    true_and] at front
  exact List.append_cancel_left front

/-- **The lists are intact exactly if the call is sound.** -/
theorem intact_iff (b : Bootstrap) (s : Surroundings) : b.Intact s ↔ b.Sound s := by
  constructor
  · intro h
    obtain ⟨_, called, rfl, positional⟩ := h .none s.none_mem
    obtain ⟨⟨short, fits⟩, hp, hd, ne⟩ := (tokens_append_iff b).mp (lists_of_none called)
    have lists := And.intro (tokens_excluded short fits) ((tokens_included_iff b).mpr ⟨hp, hd, ne⟩)
    refine ⟨short, ne, by simp [hp, fits, hd], fun g hg => ?_, ?_⟩
    · obtain ⟨_, called, rfl, -⟩ := h g hg
      exact (arguments_iff g b lists).mp called
    · rw [dropWhile_expected] at positional
      by_contra option
      rw [List.dropWhile_cons_of_pos (by simpa using option)] at positional
      have shorter := congrArg List.length positional
      have := List.length_dropWhile_le Bootstrap.isOption [b.out]
      simp only [List.length_cons, List.length_nil] at shorter this
      omega
  · intro h g hg
    have hp := h.fits b.pfile (by simp)
    have he := h.fits b.efile (by simp)
    have hd := h.fits b.dfile (by simp)
    have lists := And.intro (tokens_excluded h.excludes he)
      ((tokens_included_iff b).mpr ⟨hp, hd, h.includes⟩)
    refine ⟨b.expected, (arguments_iff g b lists).mpr (h.words g hg), rfl, ?_⟩
    rw [dropWhile_expected, List.dropWhile_cons_of_neg (by simp [h.release])]

end Genrootfs

/-- Two packages are excluded. -/
def excludeTwo : Bootstrap where
  limit := 131072
  le_limit := by decide
  arch := "arm64".toList
  out := "rootfs".toList
  release := "focal".toList
  pfile := none
  efile := some "exclude-packages.list".toList
  dfile := none
  files _ := "snapd\nnano\n".toList
  solid := by decide
  names := by decide
  lists := by decide

/-- The second package stands where the release should be. -/
theorem not_intact_excludeTwo : ¬ excludeTwo.Intact ⟨{Globbing.none}, rfl⟩ := by
  intro h
  obtain ⟨_, called, rfl, -⟩ := h .none rfl
  revert called
  decide

end VeRoot
