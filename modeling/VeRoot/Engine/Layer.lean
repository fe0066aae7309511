import VeRoot.Make.Graph
import VeRoot.Make.Text
import Mathlib.Logic.Function.Basic

/-!
# The layer engine

`mk/define_layer.mk`, `mk/build_layer.mk`, the second pass of
`mk/build_recipe.mk` and the rules of the top-level `Makefile`, as functions from
the make variables they read to the variables and rules they leave behind.

Make expands the prerequisites of a rule when it reads the rule.  `$(L_dep)` in a
rule therefore stands for the targets layer `dep` has registered *by then*, while
`DEPENDS_$(L)` keeps the unexpanded reference `$(L_dep)`, which later expansions
see grown.  `Parse.layerTargets` is the first, `Parse.dependsOf` the second.

A word `L_x` of `$(recipe)` is modelled by the layer name `x`, and the phony nodes
`L_x.preamble`, `L_x.outro`, … by one constructor each.

## Main definitions

* `Node` — the targets and prerequisites of the generated rules.
* `Decl`, `LayerFile` — what a layer file says.
* `Parse` — the make variables of the engine, and the rules read so far.
* `defineLayer`, `declare`, `buildLayer`, `secondPass`, `makefileRules` — the
  fragments.
* `makefile` — every rule that is known when make has read everything.
-/

namespace VeRoot

open Make

/-- The text of `$(LAYER)`, without the `L_`. -/
abbrev Name := String

/-- The name of a file. -/
abbrev Path := String

/-- A node of the generated graph.  The last four are files: the build directory
`$(BUILD)/L_x`, a file of the source tree that no rule makes, the `SRCDEST` file
of a fetched source, and a file that a layer registered in `$(L)`.

To make a node is its text, so a layer that is called like the node of another one (`a.preamble`
beside `a`) would share `L_a.preamble` with it.  Here every node stands for itself: no layer is
called like another one followed by `.preamble` or one of the other endings of the engine. -/
inductive Node
  | all | recipe | sourceCheckout | rundepError | size
  | layer (x : Name)
  | preamble (x : Name) | outro (x : Name)
  | overlayMount (x : Name) | overlayUmount (x : Name) | chroot (x : Name) | layerSize (x : Name)
  | invalidate (x : Name) | i (x : Name) | cleanBuild (x : Name) | clean (x : Name)
  | buildDir (x : Name) | file (p : Path) | source (p : Path) | target (p : Path)
  deriving DecidableEq, Repr

/-- What a layer file may say between `DEFINE_LAYER` and `BUILD_LAYER`. -/
inductive Decl
  /-- `$(L) += t` -/
  | target (t : Path)
  /-- `DEPENDS += d` -/
  | depends (d : Name)
  /-- `RUNAFTER += d` -/
  | runafter (d : Name)
  /-- `git_clone`, `get_archive`, `get_archive_dl`, `get_image_xz` or `get_file`,
  whose `SRCDEST` is `dest`. -/
  | source (dest : Path)
  deriving DecidableEq, Repr

namespace Decl

/-- The words that declarations append to `$(L)`. -/
def targets (ds : List Decl) : List Path := ds.filterMap fun | .target t => some t | _ => none

/-- The words that declarations append to `DEPENDS`. -/
def dependsOn (ds : List Decl) : List Name := ds.filterMap fun | .depends d => some d | _ => none

/-- The words that declarations append to `RUNAFTER`. -/
def runsAfter (ds : List Decl) : List Name := ds.filterMap fun | .runafter d => some d | _ => none

/-- The words that declarations append to `source-checkout`. -/
def sources (ds : List Decl) : List Path := ds.filterMap fun | .source p => some p | _ => none

end Decl

/-- A layer file.  After `BUILD_LAYER` it states rules of its own: prerequisites
between its tasks, normal (`deps`) and order-only (`after`), and on files of the
source tree (`inputs`).  A task of one layer must not depend on a task of another,
so these stay among the targets the file registered. -/
structure LayerFile where
  /-- `LAYER` -/
  name : Name
  /-- `LFILE` -/
  file : Path
  /-- `LAYER_NODEPEND_FILE` is `y`. -/
  nodependFile : Bool := false
  decls : List Decl
  deps : List (Path × Path) := []
  after : List (Path × Path) := []
  inputs : List (Path × Path) := []
  own : ∀ e ∈ deps, e.1 ∈ Decl.targets decls ∧ e.2 ∈ Decl.targets decls := by decide
  ownAfter : ∀ e ∈ after, e.1 ∈ Decl.targets decls ∧ e.2 ∈ Decl.targets decls := by decide
  ownInputs : ∀ e ∈ inputs, e.1 ∈ Decl.targets decls := by decide
  deriving DecidableEq, Repr

namespace LayerFile

variable (f : LayerFile)

/-- `$(L)` once the layer is built. -/
def targets : List Path := Decl.targets f.decls
/-- The names appended to `DEPENDS`. -/
def depends : List Name := Decl.dependsOn f.decls
/-- The names appended to `RUNAFTER`. -/
def runafter : List Name := Decl.runsAfter f.decls
/-- The `SRCDEST` files of the layer. -/
def sources : List Path := Decl.sources f.decls
/-- What the tasks of the layer wait for among each other. -/
def waits : List (Path × Path) := f.deps ++ f.after

theorem own_waits : ∀ e ∈ f.waits, e.1 ∈ f.targets ∧ e.2 ∈ f.targets := by
  intro e he
  rcases List.mem_append.mp he with he | he
  · exact f.own e he
  · exact f.ownAfter e he

end LayerFile

/-- The two configuration switches of the engine. -/
structure Config where
  /-- `CONFIG_OVERLAYFS` is `y`. -/
  overlayfs : Bool
  /-- `ENABLE_PARALLEL_LAYERS` is `y`. -/
  parallelLayers : Bool
  deriving DecidableEq, Repr

/-- The make variables the engine reads and writes, and the rules read so far. -/
structure Parse where
  /-- `$(recipe)`: the layers defined so far. -/
  recipe : List Name := []
  /-- `$(LAYERS_INCLUDED)`: the layers built so far. -/
  layersIncluded : List Name := []
  /-- `$(L_x)`, immediately expanded. -/
  layerTargets : Name → List Path := fun _ => []
  /-- `$(DEPENDS)` of the layer being read. -/
  depends : List Name := []
  /-- `$(RUNAFTER)` of the layer being read. -/
  runafter : List Name := []
  /-- `DEPENDS_L_x`: the layers `d` whose reference `$(L_d)` it holds. -/
  dependsOf : Name → List Name := fun _ => []
  /-- `RUNAFTER_L_x`, likewise. -/
  runafterOf : Name → List Name := fun _ => []
  /-- `L_x_OVERLAY_LOWERDIRS`: the layers `y` whose `L_y/upper` it lists. -/
  lowerdirs : Name → List Name := fun _ => []
  /-- `$(source-checkout)` -/
  sourceCheckout : List Path := []
  /-- `$(error_info)`: the words `x::d`. -/
  errorInfo : List (Name × Name) := []
  rules : List (Rule Node) := []

namespace Parse

/-- `$(L_x)`, as nodes. -/
def targetNodes (σ : Parse) (x : Name) : List Node := (σ.layerTargets x).map .target

/-- The expansion of a list of references `$(L_d)`. -/
def expand (σ : Parse) (refs : List Name) : List Node := refs.flatMap σ.targetNodes

end Parse

/-! ## DEFINE_LAYER -/

/-- The rules of `layer_clean_invalidate`. -/
def layerCleanInvalidate (x : Name) : List (Rule Node) :=
  [⟨[.invalidate x, .i x], [], []⟩, ⟨[.cleanBuild x], [], []⟩,
    ⟨[.clean x], [], [.invalidate x]⟩, ⟨[.clean x], [], [.cleanBuild x]⟩]

/-- The rule of `layer_preamble`. -/
def layerPreamble (x : Name) : List (Rule Node) := [⟨[.preamble x], [], []⟩]

/-- The rule of `layer_outro`. -/
def layerOutro (x : Name) : List (Rule Node) := [⟨[.outro x], [], []⟩]

/-- `mk/define_layer.mk`.  `$(L):=` empties the target list; `DEPENDS_L_x` is left
as it was. -/
def defineLayer (x : Name) (σ : Parse) : Parse :=
  { σ with
    layerTargets := Function.update σ.layerTargets x []
    recipe := σ.recipe ++ [x]
    depends := []
    runafter := []
    rules := σ.rules ++ (layerCleanInvalidate x ++ layerPreamble x ++ layerOutro x) }

/-! ## The declarations of a layer file -/

/-- One declaration of the layer `x`.  A source macro emits its edge at once, so
the edge starts at the targets registered so far. -/
def declare (x : Name) (σ : Parse) : Decl → Parse
  | .target t => { σ with layerTargets := Function.update σ.layerTargets x (σ.layerTargets x ++ [t]) }
  | .depends d => { σ with depends := σ.depends ++ [d] }
  | .runafter d => { σ with runafter := σ.runafter ++ [d] }
  | .source p =>
    { σ with
      sourceCheckout := σ.sourceCheckout ++ [p]
      rules := σ.rules ++ [⟨[.source p], [], []⟩, ⟨σ.targetNodes x, [.source p], []⟩] }

/-! ## BUILD_LAYER -/

/-- `$(lastword $(filter-out $(lastword $(recipe)),$(recipe)))`: the last layer
defined before the current one. -/
def prevLayer (recipe : List Name) : Option Name := lastword (filterOut (lastword recipe) recipe)

/-- The edges of `serialise_layers` at the node `L_x`. -/
def serialiseLayers (x : Name) : Option Name → List (Rule Node)
  | some y => [⟨[.layer x], [], [.overlayUmount y]⟩, ⟨[.layer x], [], [.outro y]⟩]
  | none => []

/-- `check_rundeps`: `all` fails when the text `$(L_d)` is empty. -/
def checkRundeps (σ : Parse) (d : Name) : List (Rule Node) :=
  if σ.layerTargets d = [] then [⟨[.all], [], [.rundepError]⟩] else []

/-- The prerequisites of `overlay_mount`.  `L_x.preamble` gets the same ones. -/
def overlayMount (x : Name) (depends runafter : List Node) (prev : Option Name) :
    List (Rule Node) :=
  match prev with
  | some y =>
    [⟨[.preamble x, .overlayMount x], [], depends ++ runafter ++ [.overlayUmount y, .preamble y]⟩,
      ⟨[.overlayMount x], [], []⟩]
  | none =>
    [⟨[.preamble x, .overlayMount x], [], depends ++ runafter⟩, ⟨[.overlayMount x], [], []⟩]

/-- The rule of `overlay_umount`. -/
def overlayUmount (x : Name) : List (Rule Node) := [⟨[.overlayUmount x], [], []⟩]

/-- The rule of `overlay_chroot`. -/
def overlayChroot (x : Name) : List (Rule Node) := [⟨[.chroot x], [], [.overlayMount x]⟩]

/-- The rules of `layer_size`. -/
def layerSize (x : Name) : List (Rule Node) := [⟨[.layerSize x], [], []⟩, ⟨[.size], [], [.layerSize x]⟩]

/-- The rules at the head of `mk/build_layer.mk`, down to the node `L_x`.  The last
one names `L_x.overlay_umount` whether or not overlays are in use. -/
def hookLayer (cfg : Config) (x : Name) (ts : List Node) : List (Rule Node) :=
  [⟨ts, [], [.preamble x]⟩, ⟨ts, [.buildDir x], []⟩, ⟨[.buildDir x], [], []⟩, ⟨[.outro x], [], ts⟩] ++
  (if cfg.overlayfs then
    [⟨ts, [], [.overlayMount x]⟩, ⟨[.overlayUmount x], [], ts⟩, ⟨[.overlayUmount x], [.overlayMount x], []⟩]
   else []) ++
  [⟨[.layer x], ts, [.overlayUmount x, .outro x]⟩]

/-- `$(DEPENDS_$(L))` after the `+=` of `BUILD_LAYER`. -/
def dependsRefs (x : Name) (σ : Parse) : List Name := σ.dependsOf x ++ σ.depends

/-- `$(RUNAFTER)` after `serialise_layers`. -/
def runafterList (cfg : Config) (σ : Parse) : List Name :=
  if cfg.parallelLayers then σ.runafter else σ.runafter ++ (prevLayer σ.recipe).toList

/-- `$(RUNAFTER_$(L))`, which only serialised layers fill. -/
def runafterRefs (cfg : Config) (x : Name) (σ : Parse) : List Name :=
  if cfg.parallelLayers then σ.runafterOf x else σ.runafterOf x ++ runafterList cfg σ

/-- The rules `mk/build_layer.mk` states for the layer file `f`, in its order. -/
def buildLayerRules (cfg : Config) (f : LayerFile) (σ : Parse) : List (Rule Node) :=
  let x := f.name
  let ts := σ.targetNodes x
  let prev := prevLayer σ.recipe
  hookLayer cfg x ts ++
  (if f.nodependFile then [] else [⟨ts, [.file f.file], []⟩]) ++
  [⟨ts, σ.expand (dependsRefs x σ), []⟩] ++
  (if cfg.parallelLayers then [] else serialiseLayers x prev) ++
  (runafterList cfg σ).flatMap (fun d => ⟨ts, [], σ.targetNodes d⟩ :: checkRundeps σ d) ++
  (if cfg.overlayfs then
    overlayMount x (σ.expand (dependsRefs x σ)) (σ.expand (runafterRefs cfg x σ)) prev ++
      overlayUmount x ++ overlayChroot x ++ layerSize x
   else [])

/-- `mk/build_layer.mk`.  `error_info` grows by every entry of `RUNAFTER`: its
`$(eval)` runs whether or not the conditional around it holds. -/
def buildLayer (cfg : Config) (f : LayerFile) (σ : Parse) : Parse :=
  let x := f.name
  { σ with
    dependsOf := Function.update σ.dependsOf x (dependsRefs x σ)
    runafter := runafterList cfg σ
    runafterOf := Function.update σ.runafterOf x (runafterRefs cfg x σ)
    errorInfo := σ.errorInfo ++ (runafterList cfg σ).map (fun d => (x, d))
    lowerdirs :=
      if cfg.overlayfs then Function.update σ.lowerdirs x (reverse σ.layersIncluded ++ ["base"])
      else σ.lowerdirs
    layersIncluded := σ.layersIncluded ++ [x]
    rules := σ.rules ++ buildLayerRules cfg f σ }

/-- The rules a layer file states after `BUILD_LAYER`. -/
def ownRules (f : LayerFile) : List (Rule Node) :=
  f.deps.map (fun e => ⟨[.target e.1], [.target e.2], []⟩) ++
  f.after.map (fun e => ⟨[.target e.1], [], [.target e.2]⟩) ++
  f.inputs.map (fun e => ⟨[.target e.1], [.file e.2], []⟩)

/-- The variables when `BUILD_LAYER` is included by the layer file `f`. -/
def enterLayer (f : LayerFile) (σ : Parse) : Parse := f.decls.foldl (declare f.name) (defineLayer f.name σ)

/-- A whole layer file. -/
def readLayer (cfg : Config) (f : LayerFile) (σ : Parse) : Parse :=
  let τ := buildLayer cfg f (enterLayer f σ)
  { τ with rules := τ.rules ++ ownRules f }

/-! ## The second pass of BUILD_RECIPE -/

/-- `eval_layer_depends`, for one entry `n` of `LAYERS`: every word of
`$(DEPENDS_L_n)` becomes a prerequisite of `$(L_n)`. -/
def evalLayerDepends (σ : Parse) (n : Name) : List (Rule Node) :=
  (σ.expand (σ.dependsOf n)).map fun dep => ⟨σ.targetNodes n, [dep], []⟩

/-- The second `$(foreach layer,$(LAYERS), …)` of `mk/build_recipe.mk`. -/
def secondPass (entries : List Name) (σ : Parse) : Parse :=
  { σ with rules := σ.rules ++ entries.flatMap (evalLayerDepends σ) }

/-! ## Reading a configuration -/

/-- One thing make reads: a layer file, or the end of a recipe file with the entries
of its `LAYERS`. -/
inductive Event
  | layer (f : LayerFile)
  | secondPass (entries : List Name)
  deriving DecidableEq, Repr

/-- Everything make reads, in order. -/
abbrev Reading := List Event

/-- The effect of one event on the variables. -/
def read (cfg : Config) (σ : Parse) : Event → Parse
  | .layer f => readLayer cfg f σ
  | .secondPass entries => secondPass entries σ

/-- The variables after a whole reading. -/
def readAll (cfg : Config) (evs : Reading) : Parse := evs.foldl (read cfg) {}

/-- The layer files of a reading. -/
def layersOf (evs : Reading) : List LayerFile := evs.filterMap fun | .layer f => some f | _ => none

/-- The names of the layers of a reading. -/
def namesOf (evs : Reading) : List Name := (layersOf evs).map LayerFile.name

/-- The rules of the top-level `Makefile`, with `rundep_error` of
`mk/environment.mk`, over the variables the recipe leaves behind. -/
def makefileRules (σ : Parse) : List (Rule Node) :=
  let layers := σ.recipe.map Node.layer
  let checkout := σ.sourceCheckout.map Node.source
  [⟨[.all], [.recipe], []⟩, ⟨[.recipe], layers, []⟩, ⟨layers, [], checkout⟩,
    ⟨[.sourceCheckout], [], checkout⟩] ++
  σ.recipe.map (fun x => ⟨σ.targetNodes x, [], [.sourceCheckout]⟩) ++ [⟨[.rundepError], [], []⟩]

/-- All rules of a configuration. -/
def makefile (cfg : Config) (evs : Reading) : List (Rule Node) :=
  (readAll cfg evs).rules ++ makefileRules (readAll cfg evs)

end VeRoot
