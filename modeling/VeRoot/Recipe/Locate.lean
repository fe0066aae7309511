import VeRoot.Make.Text
import VeRoot.Unix.Path

/-!
# How makefiles find themselves

Make appends the name of a makefile to `MAKEFILE_LIST` when it starts to read it, and never
takes one off.  `mk/define_layer.mk` and `mk/define_recipe.mk` drop their own names again, and
then take the last word for the file that includes them.

`$(realpath …)` is make's, and has no options.

## Main definitions

* `Canonical`, `dir`, `realpaths` — the functions for file names.
* `Makefile` — a makefile with the makefiles it includes.
* `Locations`, `Makefile.read` — what is left in the variables when it has been read.
* `Makefile.contents` — the files in the order in which they are read.
* `Located` — every file finds itself.
* `makefileList_read`, `located_iff` — the main results.
-/

namespace VeRoot

open Make Unix

/-- The canonical name of each file that exists, as seen from the working directory. -/
abbrev Canonical := Text → Option Text

/-- `$(dir n)` -/
def dir (n : Text) : Text :=
  if '/' ∈ n then (n.reverse.dropWhile (· ≠ '/')).reverse else "./".toList

/-- `$(realpath ns)`: a file that does not exist has no word. -/
def realpaths (disk : Canonical) (ns : List Text) : List Text := ns.filterMap disk

/-- `DEFINE_LAYER`, `DEFINE_RECIPE` and `BUILD_RECIPE`. -/
structure EngineFiles where
  defineLayer : Text
  defineRecipe : Text
  buildRecipe : Text
  layer_ne_build : buildRecipe ≠ defineLayer := by decide
  recipe_ne_build : buildRecipe ≠ defineRecipe := by decide

/-- The name of a makefile that is none of the engine's two definitions. -/
structure FileName (mk : EngineFiles) where
  text : Text
  ne_layer : text ≠ mk.defineLayer := by decide
  ne_recipe : text ≠ mk.defineRecipe := by decide

/-- `BUILD_RECIPE` is none of them. -/
def EngineFiles.build (mk : EngineFiles) : FileName mk :=
  ⟨mk.buildRecipe, mk.layer_ne_build, mk.recipe_ne_build⟩

/-- A makefile that is included, with what it includes in its turn. -/
inductive Makefile (mk : EngineFiles)
  /-- A file without definitions, such as `mk/build_layer.mk`, or a layer file that skips
  `DEFINE_LAYER`. -/
  | plain (name : FileName mk) (body : List (Makefile mk))
  /-- A layer file: `DEFINE_LAYER`, and then anything. -/
  | layer (name : FileName mk) (body : List (Makefile mk))
  /-- A recipe file: `DEFINE_RECIPE`, which reads the files `config`, and then anything. -/
  | recipe (name : FileName mk) (config : List (FileName mk)) (body : List (Makefile mk))
  /-- `BUILD_RECIPE` without a base recipe. -/
  | build (layers : List (Makefile mk))
  /-- `BUILD_RECIPE` with one. -/
  | buildOn (base : Makefile mk) (layers : List (Makefile mk))

/-- What a definition has found. -/
inductive Found (mk : EngineFiles)
  /-- `DEFINE_LAYER` has been read. -/
  | layer (includer : FileName mk) (lfile lbase : List Text)
  /-- `DEFINE_RECIPE` has been read. -/
  | recipe (includer : FileName mk) (recipe : List Text)

/-- The variables that say where makefiles are. -/
structure Locations (mk : EngineFiles) where
  /-- `MAKEFILE_LIST` -/
  makefileList : List Text := []
  /-- `LFILE` -/
  lfile : List Text := []
  /-- `LBASE` -/
  lbase : List Text := []
  /-- `RECIPE` -/
  recipe : List Text := []
  /-- `TOP_RECIPE` -/
  topRecipe : List Text := []
  log : List (Found mk) := []

namespace Locations

variable {mk : EngineFiles} (disk : Canonical) (σ : Locations mk)

/-- Make starts to read a makefile. -/
def start (n : Text) : Locations mk := { σ with makefileList := σ.makefileList ++ [n] }

/-- `MAKEFILE_LIST:=$(filter-out $(lastword $(MAKEFILE_LIST)), $(MAKEFILE_LIST))` -/
def dropLast : Locations mk :=
  { σ with makefileList := filterOut (lastword σ.makefileList) σ.makefileList }

/-- The last word of `MAKEFILE_LIST`. -/
def last : List Text := (lastword σ.makefileList).toList

/-- `mk/define_layer.mk`, included by `n`. -/
def defineLayer (n : FileName mk) : Locations mk :=
  let σ := (σ.start mk.defineLayer).dropLast
  let lbase := realpaths disk (σ.last.map dir)
  let lfile := realpaths disk σ.last
  { σ with lbase := lbase, lfile := lfile, log := σ.log ++ [.layer n lfile lbase] }

/-- `mk/define_recipe.mk`, included by `n`.  `config` holds `$(RECIPE)/config.mk`, if it is there,
and the files it includes. -/
def defineRecipe (n : FileName mk) (config : List (FileName mk)) : Locations mk :=
  let σ := (σ.start mk.defineRecipe).dropLast
  let recipe := realpaths disk ("-f".toList :: σ.last.map dir)
  let σ := config.foldl (fun σ c => σ.start c.text) { σ with recipe := recipe }
  { σ with log := σ.log ++ [.recipe n σ.recipe] }

end Locations

namespace Makefile

variable {mk : EngineFiles}

mutual

/-- Make reads a makefile. -/
def read (disk : Canonical) : Makefile mk → Locations mk → Locations mk
  | plain n body, σ => readAll disk body (σ.start n.text)
  | layer n body, σ => readAll disk body ((σ.start n.text).defineLayer disk n)
  | recipe n config body, σ => readAll disk body ((σ.start n.text).defineRecipe disk n config)
  | build layers, σ => readAll disk layers (σ.start mk.build.text)
  | buildOn base layers, σ =>
    let σ := σ.start mk.build.text
    let σ := base.read disk { σ with topRecipe := σ.recipe }
    readAll disk layers { σ with recipe := σ.topRecipe }

/-- Make reads makefiles, one after another. -/
def readAll (disk : Canonical) : List (Makefile mk) → Locations mk → Locations mk
  | [], σ => σ
  | m :: ms, σ => readAll disk ms (m.read disk σ)

end

end Makefile

/-! ## What is read -/

/-- A file that is read. -/
inductive ReadFile (mk : EngineFiles)
  /-- A file without definitions. -/
  | plain (name : FileName mk)
  | layer (name : FileName mk)
  | recipe (name : FileName mk) (config : List (FileName mk))

namespace ReadFile

variable {mk : EngineFiles}

/-- The names that stay in `MAKEFILE_LIST`. -/
def names : ReadFile mk → List Text
  | plain n => [n.text]
  | layer n => [n.text]
  | recipe n config => n.text :: config.map FileName.text

/-- What its definition finds. -/
def found (disk : Canonical) : ReadFile mk → List (Found mk)
  | plain _ => []
  | layer n => [.layer n (realpaths disk [n.text]) (realpaths disk [dir n.text])]
  | recipe n _ => [.recipe n (realpaths disk ["-f".toList, dir n.text])]

/-- It is a recipe file. -/
def isRecipe : ReadFile mk → Bool
  | recipe _ _ => true
  | _ => false

end ReadFile

namespace Makefile

variable {mk : EngineFiles}

mutual

/-- The files in the order in which make reads them. -/
def contents : Makefile mk → List (ReadFile mk)
  | plain n body => .plain n :: contentsAll body
  | layer n body => .layer n :: contentsAll body
  | recipe n config body => .recipe n config :: contentsAll body
  | build layers => .plain mk.build :: contentsAll layers
  | buildOn base layers => .plain mk.build :: base.contents ++ contentsAll layers

/-- The files of several makefiles. -/
def contentsAll : List (Makefile mk) → List (ReadFile mk)
  | [] => []
  | m :: ms => m.contents ++ contentsAll ms

end

end Makefile

/-- It is the file, and the directory, of the makefile that includes the definition. -/
def Found.Right {mk : EngineFiles} (disk : Canonical) : Found mk → Prop
  | .layer n lfile lbase => lfile = realpaths disk [n.text] ∧ lbase = realpaths disk [dir n.text]
  | .recipe n r => r = realpaths disk [dir n.text]

/-- **Every definition that is read finds the file that includes it**, whatever has been read
before. -/
def Located {mk : EngineFiles} (disk : Canonical) (m : Makefile mk) : Prop :=
  ∀ σ f, f ∈ (m.read disk σ).log → f ∈ σ.log ∨ f.Right disk

section Locate

variable {mk : EngineFiles} {disk : Canonical} {σ : Locations mk} {n : FileName mk}
  {config : List (FileName mk)} {m : Makefile mk} {ms : List (Makefile mk)} {f : Found mk}

/-! ## One definition -/

/-- A definition takes its own name off again, and then its includer is the last. -/
theorem dropLast_start {d : Text} (h : n.text ≠ d) :
    ((σ.start n.text).start d).dropLast.makefileList =
      filterOut (some d) σ.makefileList ++ [n.text] := by
  have other : filterOut (some d) [n.text] = [n.text] := filterOut_of_notMem (by simp [Ne.symm h])
  simp only [Locations.start, Locations.dropLast, lastword_concat, filterOut_append, other,
    filterOut_self, List.append_nil]

theorem last_start {d : Text} (h : n.text ≠ d) :
    ((σ.start n.text).start d).dropLast.last = [n.text] := by
  rw [Locations.last, dropLast_start h, lastword_concat]
  rfl

/-- `DEFINE_LAYER` finds the layer file. -/
theorem log_defineLayer : ((σ.start n.text).defineLayer disk n).log =
    σ.log ++ (ReadFile.layer n).found disk := by
  simp only [Locations.defineLayer, last_start n.ne_layer]
  rfl

theorem makefileList_defineLayer (h : mk.defineLayer ∉ σ.makefileList) :
    ((σ.start n.text).defineLayer disk n).makefileList = σ.makefileList ++ [n.text] :=
  (dropLast_start n.ne_layer).trans (by rw [filterOut_of_notMem h])

/-- Reading files without definitions only adds their names. -/
theorem foldl_start (σ : Locations mk) : config.foldl (fun σ c => σ.start c.text) σ =
    { σ with makefileList := σ.makefileList ++ config.map FileName.text } := by
  induction config generalizing σ with
  | nil => simp
  | cons c config ih =>
    rw [List.foldl_cons, ih]
    simp [Locations.start]

/-- `DEFINE_RECIPE` finds the directory of the recipe file, behind a file named `-f`. -/
theorem log_defineRecipe : ((σ.start n.text).defineRecipe disk n config).log =
    σ.log ++ (ReadFile.recipe n config).found disk := by
  simp only [Locations.defineRecipe, foldl_start, last_start n.ne_recipe]
  rfl

theorem makefileList_defineRecipe (h : mk.defineRecipe ∉ σ.makefileList) :
    ((σ.start n.text).defineRecipe disk n config).makefileList =
      σ.makefileList ++ (ReadFile.recipe n config).names := by
  simp only [Locations.defineRecipe, foldl_start, dropLast_start n.ne_recipe,
    filterOut_of_notMem h, ReadFile.names, List.append_assoc, List.singleton_append]

/-! ## A whole makefile -/

mutual

/-- What the definitions find depends on the files alone. -/
theorem log_read (m : Makefile mk) (σ : Locations mk) :
    (m.read disk σ).log = σ.log ++ m.contents.flatMap (ReadFile.found disk) := by
  cases m with
  | plain n body =>
    rw [Makefile.read, Makefile.contents, log_readAll body]
    rfl
  | layer n body =>
    rw [Makefile.read, Makefile.contents, log_readAll body, log_defineLayer]
    simp
  | recipe n config body =>
    rw [Makefile.read, Makefile.contents, log_readAll body, log_defineRecipe]
    simp
  | build layers =>
    rw [Makefile.read, Makefile.contents, log_readAll layers]
    rfl
  | buildOn base layers =>
    rw [Makefile.read, Makefile.contents, log_readAll layers, log_read base]
    simp [ReadFile.found, Locations.start]

theorem log_readAll (ms : List (Makefile mk)) (σ : Locations mk) :
    (Makefile.readAll disk ms σ).log =
      σ.log ++ (Makefile.contentsAll ms).flatMap (ReadFile.found disk) := by
  cases ms with
  | nil => simp [Makefile.readAll, Makefile.contentsAll]
  | cons m ms =>
    rw [Makefile.readAll, Makefile.contentsAll, log_readAll ms, log_read m]
    simp

end

/-- Neither definition is in the list. -/
def Locations.Clean (σ : Locations mk) : Prop :=
  mk.defineLayer ∉ σ.makefileList ∧ mk.defineRecipe ∉ σ.makefileList

/-- Between `σ` and `τ` the names of the files `fs` have been appended. -/
def Locations.Appends (σ : Locations mk) (fs : List (ReadFile mk)) (τ : Locations mk) : Prop :=
  τ.makefileList = σ.makefileList ++ fs.flatMap ReadFile.names

theorem Locations.Appends.trans {τ υ : Locations mk} {fs gs : List (ReadFile mk)}
    (h : σ.Appends fs τ) (h' : τ.Appends gs υ) : σ.Appends (fs ++ gs) υ := by
  rw [Appends] at h h' ⊢
  rw [h', h, List.flatMap_append, List.append_assoc]

/-- Files that are read bring no definition into the list. -/
theorem Locations.Appends.clean {τ : Locations mk} {fs : List (ReadFile mk)} (h : σ.Appends fs τ)
    (hσ : σ.Clean) : τ.Clean := by
  have other : ∀ d, (∀ n : FileName mk, n.text ≠ d) → d ∉ fs.flatMap ReadFile.names := by
    intro d hd hm
    obtain ⟨f, -, hf⟩ := List.mem_flatMap.mp hm
    cases f with
    | plain n | layer n => exact hd n (List.mem_singleton.mp hf).symm
    | recipe n config =>
      rcases List.mem_cons.mp hf with hf | hf
      · exact hd n hf.symm
      · obtain ⟨c, -, hc⟩ := List.mem_map.mp hf
        exact hd c hc
  rw [Appends] at h
  rw [Clean, h, List.mem_append, List.mem_append, not_or, not_or]
  exact ⟨⟨hσ.1, other _ FileName.ne_layer⟩, ⟨hσ.2, other _ FileName.ne_recipe⟩⟩

theorem appends_start : σ.Appends [.plain n] (σ.start n.text) := by
  simp [Locations.Appends, Locations.start, ReadFile.names]

theorem appends_defineLayer (h : σ.Clean) :
    σ.Appends [.layer n] ((σ.start n.text).defineLayer disk n) := by
  rw [Locations.Appends, makefileList_defineLayer h.1]
  simp [ReadFile.names]

theorem appends_defineRecipe (h : σ.Clean) :
    σ.Appends [.recipe n config] ((σ.start n.text).defineRecipe disk n config) := by
  rw [Locations.Appends, makefileList_defineRecipe h.2]
  simp

mutual

/-- **`MAKEFILE_LIST` holds what has been read**, in this order and without the definitions. -/
theorem appends_read (disk : Canonical) (m : Makefile mk) (σ : Locations mk) (h : σ.Clean) :
    σ.Appends m.contents (m.read disk σ) := by
  cases m with
  | plain n body =>
    have start : σ.Appends [.plain n] (σ.start n.text) := appends_start
    exact start.trans (appends_readAll disk body _ (start.clean h))
  | layer n body =>
    have define : σ.Appends [.layer n] ((σ.start n.text).defineLayer disk n) :=
      appends_defineLayer h
    exact define.trans (appends_readAll disk body _ (define.clean h))
  | recipe n config body =>
    have define : σ.Appends [.recipe n config] ((σ.start n.text).defineRecipe disk n config) :=
      appends_defineRecipe h
    exact define.trans (appends_readAll disk body _ (define.clean h))
  | build layers =>
    have start : σ.Appends [.plain mk.build] (σ.start mk.build.text) := appends_start
    exact start.trans (appends_readAll disk layers _ (start.clean h))
  | buildOn base layers =>
    -- `RECIPE` and `TOP_RECIPE` change on the way, `MAKEFILE_LIST` does not
    have start : σ.Appends [.plain mk.build]
        { σ.start mk.build.text with topRecipe := σ.recipe } := appends_start (σ := σ)
    have inner := start.trans (appends_read disk base _ (start.clean h))
    exact inner.trans (appends_readAll disk layers { Makefile.read disk base _ with recipe := _ }
      (inner.clean h))

theorem appends_readAll (disk : Canonical) (ms : List (Makefile mk)) (σ : Locations mk)
    (h : σ.Clean) : σ.Appends (Makefile.contentsAll ms) (Makefile.readAll disk ms σ) := by
  cases ms with
  | nil => simp [Locations.Appends, Makefile.readAll, Makefile.contentsAll]
  | cons m ms =>
    have first := appends_read disk m σ h
    exact first.trans (appends_readAll disk ms _ (first.clean h))

end

/-! ## Self-location -/

/-- The recipe files that are read. -/
def Makefile.recipes (m : Makefile mk) : List (ReadFile mk) := m.contents.filter ReadFile.isRecipe

theorem realpaths_cons (ns : List Text) (d : Text) :
    realpaths disk (d :: ns) = (disk d).toList ++ realpaths disk ns := by
  rw [realpaths, List.filterMap_cons]
  cases disk d <;> rfl

/-- A layer file always finds itself, a recipe file unless there is a file `-f`. -/
theorem right_found_iff (g : ReadFile mk) :
    (∀ f ∈ g.found disk, f.Right disk) ↔ disk "-f".toList = none ∨ g.isRecipe = false := by
  cases g with
  | plain n => simp [ReadFile.found, ReadFile.isRecipe]
  | layer n => simp [ReadFile.found, ReadFile.isRecipe, Found.Right]
  | recipe n config =>
    simp only [ReadFile.found, ReadFile.isRecipe, List.forall_mem_singleton, Found.Right,
      Bool.true_eq_false, or_false]
    rw [realpaths_cons, List.append_left_eq_self]
    cases disk "-f".toList <;> simp

/-- **Every file finds itself** if there is no file `-f` in the working directory, and
otherwise no recipe file does. -/
theorem located_iff (disk : Canonical) (m : Makefile mk) :
    Located disk m ↔ disk "-f".toList = none ∨ m.recipes = [] := by
  have each : Located disk m ↔ ∀ g ∈ m.contents, ∀ f ∈ g.found disk, f.Right disk := by
    constructor
    · intro h g hg f hf
      have := h {} f (by
        rw [log_read]
        exact List.mem_append_right _ (List.mem_flatMap.mpr ⟨g, hg, hf⟩))
      exact this.resolve_left (by simp)
    · intro h σ f hf
      rw [log_read] at hf
      refine (List.mem_append.mp hf).imp_right fun hf => ?_
      obtain ⟨g, hg, hf⟩ := List.mem_flatMap.mp hf
      exact h g hg f hf
  simp only [each, right_found_iff, Makefile.recipes, List.filter_eq_nil_iff, Bool.not_eq_true]
  constructor
  · intro h
    by_cases hf : disk "-f".toList = none
    · exact .inl hf
    · exact .inr fun g hg => (h g hg).resolve_left hf
  · rintro (hf | hr) g hg
    · exact .inl hf
    · exact .inr (hr g hg)

end Locate

/-! ## A file that looks like an option -/

/-- The engine of a checkout in `/ve-root`. -/
def checkoutFiles : EngineFiles where
  defineLayer := "/ve-root/mk/define_layer.mk".toList
  defineRecipe := "/ve-root/mk/define_recipe.mk".toList
  buildRecipe := "/ve-root/mk/build_recipe.mk".toList

/-- The recipe file of the Raspberry Pi. -/
def rpiFile : FileName checkoutFiles where
  text := "/ve-root/recipes/rpi/recipe.mk".toList

/-- A recipe without layers. -/
def emptyRecipe : Makefile checkoutFiles := .recipe rpiFile [] [.build []]

/-- A working directory with a file named `-f`. -/
def optionDisk : Canonical := fun n =>
  if n = "-f".toList then some "/ve-root/-f".toList
  else if n = "/ve-root/recipes/rpi/".toList then some "/ve-root/recipes/rpi".toList
  else none

/-- **`RECIPE` has two words**, the first of which is the file. -/
theorem not_located_optionDisk : ¬ Located optionDisk emptyRecipe := by
  intro h
  have found : (emptyRecipe.read optionDisk {}).log =
      [.recipe rpiFile ["/ve-root/-f".toList, "/ve-root/recipes/rpi".toList]] := rfl
  have right : Found.Right optionDisk
      (.recipe rpiFile ["/ve-root/-f".toList, "/ve-root/recipes/rpi".toList]) :=
    (h {} _ (found ▸ List.mem_singleton_self _)).resolve_left List.not_mem_nil
  have : ["/ve-root/-f".toList, "/ve-root/recipes/rpi".toList] =
      realpaths optionDisk [dir rpiFile.text] := right
  exact absurd this (by decide)

end VeRoot
