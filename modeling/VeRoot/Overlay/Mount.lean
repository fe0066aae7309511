import VeRoot.Engine.Layer
import VeRoot.Make.Run

/-!
# The commands of the generated recipes

What the recipes of `mk/define_layer.mk` and `mk/build_layer.mk` do to the mount
table and to the directories below `$(OVERLAYFS)`.  A mounted overlay remembers its
`lowerdir` list and the directories that existed when it was mounted.

The commands of a layer's own tasks are not the engine's: they may create
directories, and they leave the mounts alone.

## Main definitions

* `Dir` — the directories the recipes name.
* `World`, `Cmd`, `Cmd.run`, `Cmd.Does` — the state of the machine and the commands.
* `nodeRecipe` — the recipe of every node.
* `Build` — one run of make on a set of goals.
-/

namespace VeRoot

open Make

/-- A directory that the recipes name. -/
inductive Dir
  /-- `$(OVERLAYFS)/L_x` -/
  | overlayfs (x : Name)
  /-- `$(OVERLAYFS)/L_x/mnt`, and so on. -/
  | mnt (x : Name) | upper (x : Name) | workdir (x : Name)
  /-- `$(OVERLAYFS)/L_x/mnt/$(CONFIG_OVERLAYFS_ROOTFS_PATH)/overlay`, and so on. -/
  | overlay (x : Name) | overlayBuilddir (x : Name)
  /-- `$(BUILD)/L_x` -/
  | build (x : Name)
  /-- `$(LBASE)` of the layer -/
  | lbase (x : Name)
  deriving DecidableEq, Repr

/-- The directories above a directory. -/
def Dir.parents : Dir → List Dir
  | .mnt x | .upper x | .workdir x => [.overlayfs x]
  | .overlay x | .overlayBuilddir x => [.mnt x, .overlayfs x]
  | .overlayfs _ | .build _ | .lbase _ => []

/-- `e` is `d` or lies below it. -/
def Dir.within (d e : Dir) : Bool := e == d || e.parents.contains d

/-- A mounted overlay. -/
structure Mount where
  /-- The layers `y` whose `L_y/upper` is in `lowerdir`. -/
  lowerdirs : List Name
  /-- The directories that existed when it was mounted. -/
  present : List Dir
  deriving DecidableEq, Repr

/-- What the recipes act on. -/
structure World where
  dirs : List Dir := []
  /-- The overlay mounted at `$(OVERLAYFS)/L_x/mnt`. -/
  overlay : Name → Option Mount := fun _ => none
  /-- The directories something is bound to. -/
  binds : List Dir := []

/-- A command of a recipe. -/
inductive Cmd
  | echo
  /-- `mkdir -p d` -/
  | mkdir (d : Dir)
  /-- `umount -R d`, whose failure is ignored -/
  | umountR (d : Dir)
  /-- `mount -t overlay overlay -olowerdir=…,upperdir=…,workdir=… $(OVERLAYFS)/L_x/mnt` -/
  | mountOverlay (x : Name) (lowerdirs : List Name)
  /-- `mount --bind src dst` -/
  | mountBind (src dst : Dir)
  /-- `rm -rf d` -/
  | rmrf (d : Dir)
  /-- `arch-chroot $(OVERLAYFS)/L_x/mnt` -/
  | archChroot (x : Name)
  /-- A command of a layer file, or of fetching its sources. -/
  | task
  deriving DecidableEq, Repr

/-- What a command of the engine does. -/
def Cmd.run : Cmd → World → World
  | .mkdir d, w => { w with dirs := d :: d.parents ++ w.dirs }
  | .umountR d, w =>
    { w with
      overlay := fun x => if d.within (.mnt x) then none else w.overlay x
      binds := w.binds.filter fun e => !d.within e }
  | .mountOverlay x lowerdirs, w =>
    { w with overlay := Function.update w.overlay x (some ⟨lowerdirs, w.dirs⟩) }
  | .mountBind _ dst, w => { w with binds := dst :: w.binds }
  | .rmrf d, w => { w with dirs := w.dirs.filter fun e => !d.within e }
  | .echo, w | .archChroot _, w | .task, w => w

/-- What a command may do: a task may also create directories. -/
def Cmd.Does : Cmd → World → World → Prop
  | .task, w, w' => w'.overlay = w.overlay ∧ w'.binds = w.binds ∧ w.dirs ⊆ w'.dirs
  | c, w, w' => w' = c.run w

/-- The recipe of `overlay_mount`. -/
def overlayMountRecipe (x : Name) (lowerdirs : List Name) : List Cmd :=
  [.mkdir (.upper "base"), .mkdir (.mnt x), .mkdir (.upper x), .mkdir (.workdir x),
    .umountR (.mnt x), .mountOverlay x lowerdirs, .mkdir (.overlay x), .mkdir (.overlayBuilddir x),
    .mountBind (.lbase x) (.overlay x), .mkdir (.build x),
    .mountBind (.build x) (.overlayBuilddir x)]

/-- The recipe of `overlay_umount`. -/
def overlayUmountRecipe (x : Name) : List Cmd :=
  [.umountR (.overlay x), .umountR (.overlayBuilddir x), .rmrf (.overlay x),
    .rmrf (.overlayBuilddir x), .umountR (.mnt x)]

/-- The recipe of `L_x.invalidate`.  Removing the targets themselves is a task. -/
def invalidateRecipe (cfg : Config) (x : Name) : List Cmd :=
  .task :: if cfg.overlayfs then [.umountR (.mnt x), .rmrf (.overlayfs x)] else []

/-- The recipe of every node, when the recipe of the target `t` has `tasks t` commands
and fetching the source `p` has `fetch p`. -/
def nodeRecipe (cfg : Config) (σ : Parse) (tasks fetch : Path → ℕ) : Node → List Cmd
  | .overlayMount x => overlayMountRecipe x (σ.lowerdirs x)
  | .overlayUmount x => overlayUmountRecipe x
  | .chroot x => [.archChroot x, .umountR (.mnt x)]
  | .invalidate x | .i x => invalidateRecipe cfg x
  | .cleanBuild x => [.rmrf (.build x)]
  | .buildDir x => [.mkdir (.build x)]
  | .preamble _ | .outro _ | .layerSize _ | .rundepError => [.echo]
  | .target t => List.replicate (tasks t) .task
  | .source p => List.replicate (fetch p) .task
  | .all | .recipe | .sourceCheckout | .size | .layer _ | .clean _ | .file _ => []

/-- The nodes that stand for no file. -/
def Phony : Node → Prop
  | .buildDir _ | .file _ | .source _ | .target _ => False
  | _ => True

/-- One run of make: the goals on its command line, the commands of the recipes that are
not the engine's, and what make finds while it runs. -/
structure Build (cfg : Config) (evs : Reading) where
  goals : Node → Prop
  /-- The goals are `all`, layers and target files. -/
  goals_build : ∀ g, goals g → g = .all ∨ (∃ x, g = .layer x) ∨ ∃ t, g = .target t
  tasks : Path → ℕ
  fetch : Path → ℕ
  drop : Node → Node → Prop
  drop_circular : ∀ a b, drop a b → Relation.TransGen (Prereq (makefile cfg evs)) b a
  /-- When make executes the recipe of a file. -/
  outdated : State Node Cmd World → Node → Prop
  /-- When make leaves a file as it is. -/
  upToDate : State Node Cmd World → Node → Prop

/-- The runs of a build.  Phony nodes are always made. -/
def Build.system {cfg : Config} {evs : Reading} (B : Build cfg evs) : System Node Cmd World where
  prereq := Prereq (makefile cfg evs)
  drop := B.drop
  drop_circular := B.drop_circular
  wanted n := ∃ g, B.goals g ∧ Relation.ReflTransGen (Prereq (makefile cfg evs)) g n
  recipe := nodeRecipe cfg (readAll cfg evs) B.tasks B.fetch
  exec := Cmd.Does
  mayMake s n := Phony n ∨ B.outdated s n
  mayKeep s n := ¬ Phony n ∧ B.upToDate s n

end VeRoot
