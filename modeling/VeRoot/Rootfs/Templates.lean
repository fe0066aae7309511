import VeRoot.Build.Rebuild
import VeRoot.Make.Contents
import VeRoot.Make.History
import VeRoot.Rootfs.Layers

/-!
# Rendered templates

`generate.py` renders all templates of a directory with the same configuration.  Make knows of
few of the files that it reads and writes: a layer lists its prerequisites by hand, and one call
may write several files of which one or two are targets.  What is rendered into the root file
system is taken to stay there until it is rendered again, also in a run that provisions the root
file system anew.

## Main definitions

* `TemplateLayer`, `Use` — the layers that render templates, and what becomes of the files.
* `Templates` — the trees of templates.
* `generate`, `Step.recipe` — the recipes.
* `templatePlan` — who is responsible for which rendered file.
* `TemplateAct` — edits, and runs of make.
* `NeverStale` — after a run that finishes, what is in use is what the templates say.
* `rendered_along` — the main result.
-/

namespace VeRoot

open Make

/-! ## Layers -/

/-- The layers that call `generate.py`. -/
inductive TemplateLayer
  | packages | osPatch | configure | bootramfs | disableLogin | bootimage | updateimage
  deriving DecidableEq, Repr

/-- The directory with the templates of the layer. -/
def TemplateLayer.root : TemplateLayer → Path
  | packages => "debian/packages/rootfs"
  | osPatch => "debian/os-patch/rootfs"
  | configure => "debian/configure/rootfs"
  | bootramfs => "debian/bootramfs/ramdisk"
  | disableLogin => "debian/disable-login/scripts"
  | bootimage => "bootloader/bootimage/bootimage"
  | updateimage => "bootloader/updateimage/updateimage"

/-- What becomes of rendered files that do not stay where they are. -/
inductive Use
  /-- `users.sh` is executed in `$(ROOTFS)`. -/
  | users
  /-- `disable-login.sh` is executed in `$(ROOTFS)`. -/
  | disableLogin
  /-- `init` in the boot ramdisk. -/
  | init
  /-- `bootconfig.sh` in the boot ramdisk. -/
  | bootconfig
  /-- `init` in the update ramdisk. -/
  | updateInit
  /-- The input of `mkimage` for the boot image. -/
  | bootimage
  /-- The input of `mkimage` for the update image. -/
  | updateimage
  deriving DecidableEq, Repr

/-- The layer that renders the file. -/
def Use.layer : Use → TemplateLayer
  | users => .configure
  | disableLogin => .disableLogin
  | init | bootconfig | updateInit => .bootramfs
  | bootimage => .bootimage
  | updateimage => .updateimage

/-- The file. -/
def Use.file (encrypted : Bool) : Use → Path
  | users => "users.sh"
  | disableLogin => "disable-login.sh"
  | init => if encrypted then "securebootinit.sh" else "bootinit.sh"
  | bootconfig => "bootconfig.sh"
  | updateInit => "updateinit.sh"
  | bootimage => "bootimage.its"
  | updateimage => "updateimage.its"

/-- The trees of templates, and what the layer files look at. -/
structure Templates extends RecipeTree where
  /-- `CONFIG_SECURE_BOOT` is `y`. -/
  secure : Bool
  /-- `BLK_SFFILES` -/
  sffiles : List Path
  /-- `$(bootloader-bootargs)`, where `bootimage` and `updateimage` are read. -/
  bootargs : TemplateLayer → List Path
  /-- The templates of a layer, in the order of `os.walk`. -/
  files : TemplateLayer → List Path
  find_root : ∀ l, find l.root = (files l).map (l.root ++ "/" ++ ·)
  /-- The templates that the layer files name are there. -/
  file_mem : ∀ u : Use, u.file encrypted ∈ files u.layer
  bootinit_mem : "bootinit.sh" ∈ files .bootramfs

/-- The targets of these layers that have to do with rendered files. -/
inductive Step
  | configureApt | osPatch | configure
  | bootinit | updateinit | bootArchive | updateArchive
  | disableScript | disableLogin
  | bootIts | bootFit | updateIts | updateFit
  deriving DecidableEq, Repr

namespace Step

/-- `debian-bootramfs-suffix` and its like. -/
def suffix (secure encrypted : Bool) : String :=
  (if secure then ".signed" else "") ++ if encrypted then ".encrypted" else ""

/-- The target. -/
def path (secure encrypted : Bool) : Step → Path
  | configureApt => "$(STAMP)/L_debian-packages/configure-apt"
  | osPatch => "$(STAMP)/L_debian-os-patch/debian-os-patch"
  | configure => "$(STAMP)/L_debian-configure/configure"
  | bootinit => "$(BUILD)/L_debian-bootramfs/ramdisk/bootinit.sh"
  | updateinit => "$(BUILD)/L_debian-bootramfs/ramdisk/updateinit.sh"
  | bootArchive => "$(BUILD)/L_debian-bootramfs/bootramfs" ++ suffix secure encrypted ++ ".cpio.gz"
  | updateArchive =>
    "$(BUILD)/L_debian-bootramfs/updateramfs" ++ suffix secure encrypted ++ ".cpio.gz"
  | disableScript => "$(BUILD)/L_debian-disable-login/disable-login.sh"
  | disableLogin => "$(STAMP)/L_debian-disable-login/debian-disable-login"
  | bootIts => "$(BUILD)/L_bootloader-bootimage/bootimage.its"
  | bootFit => "$(BUILD)/L_bootloader-bootimage/bootimage" ++ suffix secure encrypted ++ ".fit"
  | updateIts => "$(BUILD)/L_bootloader-updateimage/updateimage.its"
  | updateFit => "$(BUILD)/L_bootloader-updateimage/updateimage" ++ suffix secure false ++ ".fit"

def all : List Step :=
  [configureApt, osPatch, configure, bootinit, updateinit, bootArchive, updateArchive,
    disableScript, disableLogin, bootIts, bootFit, updateIts, updateFit]

/-- The step with the target `t`. -/
def ofPath (secure encrypted : Bool) (t : Path) : Option Step :=
  all.find? fun s => s.path secure encrypted = t

theorem ofPath_path (secure encrypted : Bool) (s : Step) :
    ofPath secure encrypted (s.path secure encrypted) = some s := by
  cases secure <;> cases encrypted <;> cases s <;> decide

end Step

namespace Templates

variable (c : Templates)

/-- The target of a step. -/
def target (s : Step) : Path := s.path c.secure c.encrypted

/-- `layers/debian/bootramfs/layer.mk` -/
def debianBootramfs : LayerFile where
  name := "debian-bootramfs"
  file := "debian/bootramfs/layer.mk"
  decls := [.target (c.target .bootinit), .target (c.target .bootArchive),
    .target (c.target .updateinit), .target (c.target .updateArchive), .depends "debian-initramfs"]
  deps := [(c.target .bootArchive, c.target .bootinit),
    (c.target .updateArchive, c.target .updateinit)]
  after := [(c.target .updateinit, c.target .bootinit)]
  inputs := c.sffiles.map (fun f => (c.target .bootArchive, c.recipe ++ "/" ++ f)) ++
    [(c.target .bootinit, c.config),
      (c.target .bootinit, "debian/bootramfs/ramdisk/bootinit.sh"),
      (c.target .updateinit, "debian/bootramfs/ramdisk/updateinit.sh")]
  own := by simp [Decl.targets]
  ownAfter := by simp [Decl.targets]
  ownInputs := by
    intro e he
    simp only [List.mem_append, List.mem_map, List.mem_cons, List.not_mem_nil, or_false] at he
    rcases he with ⟨f, -, rfl⟩ | rfl | rfl | rfl <;> simp [Decl.targets]

/-- `layers/bootloader/bootimage/layer.mk` -/
def bootloaderBootimage : LayerFile :=
  .withInputs "bootloader-bootimage" "bootloader/bootimage/layer.mk"
    [.target (c.target .bootFit), .target (c.target .bootIts), .depends "bootloader",
      .depends "kernel", .depends "debian-bootramfs"]
    (on ⟨c.target .bootFit, by simp [Decl.targets]⟩ (c.bootargs .bootimage) ++
      on ⟨c.target .bootIts, by simp [Decl.targets]⟩
        ["bootloader/bootimage/bootimage/bootimage.its"])
    [(c.target .bootFit, c.target .bootIts)] (by simp [Decl.targets])

/-- `layers/bootloader/updateimage/layer.mk` -/
def bootloaderUpdateimage : LayerFile :=
  .withInputs "bootloader-updateimage" "bootloader/updateimage/layer.mk"
    [.target (c.target .updateFit), .target (c.target .updateIts), .depends "kernel",
      .depends "debian-bootramfs"]
    (on ⟨c.target .updateFit, by simp [Decl.targets]⟩ (c.bootargs .updateimage) ++
      on ⟨c.target .updateIts, by simp [Decl.targets]⟩
        ["bootloader/updateimage/updateimage/updateimage.its"])
    [(c.target .updateFit, c.target .updateIts)] (by simp [Decl.targets])

/-- The layer file. -/
def layerFile : TemplateLayer → LayerFile
  | .packages => debianPackages c.toRecipeTree
  | .osPatch => debianOsPatch c.toRecipeTree
  | .configure => debianConfigure c.toRecipeTree
  | .bootramfs => c.debianBootramfs
  | .disableLogin => debianDisableLogin
  | .bootimage => c.bootloaderBootimage
  | .updateimage => c.bootloaderUpdateimage

end Templates

/-! ## Recipes -/

/-- The files whose contents we follow. -/
inductive Item
  /-- A node of the graph. -/
  | node (n : Node)
  /-- `init` of the initramfs, in `$(INITRAMFS_OUT)`. -/
  | initramfs
  /-- What `generate.py` writes for the template `file` of a layer. -/
  | rendered (l : TemplateLayer) (file : Path)
  /-- A copy in the directory that is packed. -/
  | staged (u : Use)
  /-- The file in use. -/
  | inUse (u : Use)
  deriving DecidableEq

/-- The targets that `generate.py` writes, by the names of their templates. -/
def stepOfFile : TemplateLayer → Path → Option Step
  | .bootramfs, f =>
    if f = "bootinit.sh" then some .bootinit
    else if f = "updateinit.sh" then some .updateinit
    else none
  | .disableLogin, f => if f = "disable-login.sh" then some .disableScript else none
  | .bootimage, f => if f = "bootimage.its" then some .bootIts else none
  | .updateimage, f => if f = "updateimage.its" then some .updateIts else none
  | .packages, _ | .osPatch, _ | .configure, _ => none

section Recipes

variable {V : Type*} (c : Templates) (render : V → V → Option V)

/-- `template.render(config=config, …)`, which may fail. -/
def renderOf (l : TemplateLayer) (f : Path) (x : Item → V) : Option V :=
  render (x (.node (.file c.config))) (x (.node (.file (l.root ++ "/" ++ f))))

/-- One round of the loop in `generate.py`: the template is rendered, then the output is opened,
which changes its time, and then it is written. -/
def generateFile (l : TemplateLayer) (f : Path) : List (Write Item V) :=
  (stepOfFile l f).toList.map (fun s => ⟨.node (.target (c.target s)), fun x =>
    (renderOf c render l f x).map fun _ => x (.node (.target (c.target s)))⟩) ++
  [⟨.rendered l f, renderOf c render l f⟩]

/-- `python3 generate.py root destdir config` -/
def generate (l : TemplateLayer) : List (Write Item V) :=
  (c.files l).flatMap (generateFile c render l)

/-- `$(stamp)`, or the target itself. -/
def touchTarget (s : Step) : Write Item V := .touch (.node (.target (c.target s)))

@[simp] theorem touchTarget_out (s : Step) :
    (touchTarget c s : Write Item V).out = .node (.target (c.target s)) := rfl

/-- The rendered file is executed. -/
def runScript (u : Use) : Write Item V := .copy (.rendered u.layer (u.file c.encrypted)) (.inUse u)

/-- The rendered file is copied to the directory that is packed. -/
def stage (u : Use) : Write Item V := .copy (.rendered u.layer (u.file c.encrypted)) (.staged u)

/-- The directory is packed. -/
def pack (u : Use) : Write Item V := .copy (.staged u) (.inUse u)

/-- The recipes, as far as rendered files are concerned.  A ramdisk is opened before it is
written; `mkimage` renames its output when it is complete. -/
def Step.recipe : Step → List (Write Item V)
  | configureApt => generate c render .packages ++ [touchTarget c .configureApt]
  | osPatch => generate c render .osPatch ++ [touchTarget c .osPatch]
  | configure =>
    generate c render .configure ++ [runScript c .users, touchTarget c .configure]
  | bootinit | updateinit => generate c render .bootramfs
  | bootArchive =>
    [.copy .initramfs (.staged .init), stage c .init, stage c .bootconfig,
      touchTarget c .bootArchive, pack .init, pack .bootconfig]
  | updateArchive =>
    [.copy .initramfs (.staged .updateInit), stage c .updateInit, touchTarget c .updateArchive,
      pack .updateInit]
  | disableScript => generate c render .disableLogin
  | disableLogin => [runScript c .disableLogin, touchTarget c .disableLogin]
  | bootIts => generate c render .bootimage
  | bootFit => [stage c .bootimage, pack .bootimage, touchTarget c .bootFit]
  | updateIts => generate c render .updateimage
  | updateFit => [stage c .updateimage, pack .updateimage, touchTarget c .updateFit]

/-- The recipe of every node.  Other recipes have to do with their own targets only. -/
def itemRecipe : Item → List (Write Item V)
  | .node (.target t) =>
    match Step.ofPath c.secure c.encrypted t with
    | some s => s.recipe c render
    | none => [.touch (.node (.target t))]
  | .node (.source p) => [.touch (.node (.source p))]
  | .node (.buildDir x) => [.touch (.node (.buildDir x))]
  | _ => []

/-- What a clean build writes. -/
def wantedOf (x : Item → V) : Item → Option V
  | .rendered l f => renderOf c render l f x
  | .staged u | .inUse u => renderOf c render u.layer (u.file c.encrypted) x
  | .node _ | .initramfs => none

end Recipes

/-! ## Who is responsible -/

/-- The step that puts a file to use. -/
def Use.step : Use → Step
  | users => .configure
  | disableLogin => .disableLogin
  | init | bootconfig => .bootArchive
  | updateInit => .updateArchive
  | bootimage => .bootFit
  | updateimage => .updateFit

/-- The steps whose recipes write the file. -/
def responsible : Item → List Step
  | .rendered .packages _ => [.configureApt]
  | .rendered .osPatch _ => [.osPatch]
  | .rendered .configure _ => [.configure]
  | .rendered .bootramfs f => if f = "updateinit.sh" then [.bootinit, .updateinit] else [.bootinit]
  | .rendered .disableLogin _ => [.disableScript]
  | .rendered .bootimage _ => [.bootIts]
  | .rendered .updateimage _ => [.updateIts]
  | .inUse u => [u.step]
  | .node _ | .initramfs | .staged _ => []

/-- The rendered files in use, and those that they are copied from: all that layers of the recipe
write to `$(ROOTFS)`, and what is executed or packed. -/
def InUse (c : Templates) (evs : Reading) : Item → Prop
  | .rendered l f => c.layerFile l ∈ layersOf evs ∧ f ∈ c.files l ∧
      (l = .packages ∨ l = .osPatch ∨ l = .configure ∨
        ∃ u : Use, u.layer = l ∧ u.file c.encrypted = f)
  | .inUse u => c.layerFile u.layer ∈ layersOf evs
  | .node _ | .initramfs | .staged _ => False

/-- What a recipe reads that another one has rendered. -/
def Needs (c : Templates) (evs : Reading) (n f : Item) : Prop :=
  InUse c evs f ∧ ∃ u : Use, u ≠ .users ∧ n = .node (.target (c.target u.step)) ∧
    f = .rendered u.layer (u.file c.encrypted)

/-- The normal prerequisites of a target. -/
def Tracks (cfg : Config) (evs : Reading) : Item → Item → Prop
  | .node (.target t), .node b => Normal (makefile cfg evs) (.target t) b
  | _, _ => False

section Plan

variable {V : Type*} {c : Templates} {render : V → V → Option V} {cfg : Config} {evs : Reading}
  {l : TemplateLayer} {s s' : Step} {u : Use} {f : Path} {i : Item} {n : Node} {t : Path}

theorem target_injective (h : c.target s = c.target s') : s = s' := by
  have same := Step.ofPath_path c.secure c.encrypted s
  rw [show s.path c.secure c.encrypted = s'.path c.secure c.encrypted from h,
    Step.ofPath_path] at same
  exact (Option.some.inj same).symm

theorem itemRecipe_target (s : Step) :
    itemRecipe c render (.node (.target (c.target s))) = s.recipe c render := by
  have known : Step.ofPath c.secure c.encrypted (c.target s) = some s := Step.ofPath_path _ _ s
  rw [itemRecipe, known]

/-- The outputs of `generate.py`. -/
theorem mem_outs_generate : i ∈ outs (generate c render l) ↔ ∃ f ∈ c.files l,
    i = .rendered l f ∨ ∃ s, stepOfFile l f = some s ∧ i = .node (.target (c.target s)) := by
  simp only [generate, outs, List.map_flatMap, List.mem_flatMap, generateFile, List.map_append,
    List.mem_append, List.map_map, List.mem_map, Option.mem_toList, Function.comp, List.map_cons,
    List.map_nil, List.mem_singleton]
  grind

/-- The targets that `generate.py` writes have no other recipe. -/
theorem recipe_of_stepOfFile (h : stepOfFile l f = some s) :
    s.recipe c render = generate c render l := by
  cases l with
  | packages | osPatch | configure => cases h
  | bootramfs =>
    simp only [stepOfFile] at h
    split_ifs at h <;> cases h <;> rfl
  | disableLogin | bootimage | updateimage =>
    simp only [stepOfFile] at h
    split_ifs at h
    cases h
    rfl

/-- Who writes the target of another step has the same recipe. -/
theorem node_mem_outs_recipe (h : .node n ∈ outs (s.recipe c render)) :
    ∃ s', n = .target (c.target s') ∧ s'.recipe c render = s.recipe c render := by
  have of_generate : ∀ l, s.recipe c render = generate c render l →
      ∃ s', n = .target (c.target s') ∧ s'.recipe c render = s.recipe c render := by
    intro l same
    rw [same] at h
    obtain ⟨f, -, e | ⟨s', hs', e⟩⟩ := mem_outs_generate.mp h
    · cases e
    · cases e
      exact ⟨s', rfl, (recipe_of_stepOfFile hs').trans same.symm⟩
  cases s with
  | bootinit | updateinit | disableScript | bootIts | updateIts => exact of_generate _ rfl
  | configureApt | osPatch | configure =>
    rw [Step.recipe, outs_append, List.mem_append] at h
    rcases h with h | h
    · obtain ⟨f, -, e | ⟨s', hs', -⟩⟩ := mem_outs_generate.mp h
      · cases e
      · cases hs'
    · simp [outs, touchTarget, runScript, Write.touch, Write.copy] at h
      exact ⟨_, h, rfl⟩
  | bootArchive | updateArchive | disableLogin | bootFit | updateFit =>
    simp [Step.recipe, outs, touchTarget, runScript, stage, pack, Write.touch, Write.copy] at h
    exact ⟨_, h, rfl⟩

/-- Whose recipe it is: that of a step, or one that has to do with its own target only. -/
theorem itemRecipe_cases (c : Templates) (render : V → V → Option V) (i : Item) :
    (∃ s, i = .node (.target (c.target s)) ∧ itemRecipe c render i = s.recipe c render) ∨
      (∃ n, i = .node n ∧ (∀ s, n ≠ .target (c.target s)) ∧ (∀ p, n ≠ .file p) ∧
        itemRecipe c render i = [.touch i]) ∨
      itemRecipe c render i = [] ∧ ∀ t, i ≠ .node (.target t) := by
  cases i with
  | node n =>
    cases n with
    | target t =>
      cases known : Step.ofPath c.secure c.encrypted t with
      | some s =>
        have e : s.path c.secure c.encrypted = t := by simpa using List.find?_some known
        subst e
        exact .inl ⟨s, rfl, itemRecipe_target s⟩
      | none =>
        refine .inr (.inl ⟨_, rfl, ?_, nofun, by rw [itemRecipe, known]⟩)
        rintro s e
        rw [Node.target.inj e, show Step.ofPath c.secure c.encrypted (c.target s) = some s from
          Step.ofPath_path _ _ s] at known
        cases known
    | source p | buildDir x => exact .inr (.inl ⟨_, rfl, nofun, nofun, rfl⟩)
    | _ => exact .inr (.inr ⟨rfl, nofun⟩)
  | _ => exact .inr (.inr ⟨rfl, nofun⟩)

/-- The targets that a recipe writes. -/
theorem target_mem_outs (h : .node (.target (c.target s)) ∈ outs (itemRecipe c render i)) :
    itemRecipe c render i = s.recipe c render := by
  rcases itemRecipe_cases c render i with ⟨s₀, -, recipe⟩ | ⟨n, rfl, other, -, recipe⟩ | ⟨recipe, -⟩
  · rw [recipe] at h ⊢
    obtain ⟨s', e, same⟩ := node_mem_outs_recipe h
    obtain rfl := target_injective (Node.target.inj e)
    exact same.symm
  · rw [recipe] at h
    exact absurd (Item.node.inj (List.mem_singleton.mp h)).symm (other s)
  · rw [recipe] at h
    cases h

/-- No recipe writes a template or the configuration. -/
theorem file_notMem_outs (i : Item) (p : Path) :
    .node (.file p) ∉ outs (itemRecipe c render i) := by
  intro h
  rcases itemRecipe_cases c render i with ⟨s, -, recipe⟩ | ⟨n, rfl, -, other, recipe⟩ | ⟨recipe, -⟩
  · rw [recipe] at h
    obtain ⟨s', e, -⟩ := node_mem_outs_recipe h
    cases e
  · rw [recipe] at h
    exact absurd (Item.node.inj (List.mem_singleton.mp h)).symm (other p)
  · rw [recipe] at h
    cases h

/-- A rendered file is among the outputs. -/
theorem rendered_mem_generate (h : f ∈ c.files l) :
    .rendered l f ∈ outs (generate c render l) :=
  mem_outs_generate.mpr ⟨f, h, .inl rfl⟩

/-- Every recipe writes its target. -/
theorem target_mem_outs_recipe (s : Step) :
    .node (.target (c.target s)) ∈ outs (s.recipe c render) := by
  have of_generate : ∀ l f, f ∈ c.files l → stepOfFile l f = some s →
      .node (.target (c.target s)) ∈ outs (generate c render l) :=
    fun l f hf hs => mem_outs_generate.mpr ⟨f, hf, .inr ⟨s, hs, rfl⟩⟩
  cases s with
  | bootinit => exact of_generate .bootramfs "bootinit.sh" c.bootinit_mem rfl
  | updateinit => exact of_generate .bootramfs "updateinit.sh" (c.file_mem .updateInit) rfl
  | disableScript => exact of_generate .disableLogin _ (c.file_mem .disableLogin) rfl
  | bootIts => exact of_generate .bootimage _ (c.file_mem .bootimage) rfl
  | updateIts => exact of_generate .updateimage _ (c.file_mem .updateimage) rfl
  | _ => simp [Step.recipe, outs, touchTarget, Write.touch]

theorem touches_itemRecipe (i : Item) (h : itemRecipe c render i ≠ []) :
    i ∈ outs (itemRecipe c render i) := by
  rcases itemRecipe_cases c render i with ⟨s, rfl, recipe⟩ | ⟨n, -, -, -, recipe⟩ | ⟨recipe, -⟩
  · rw [recipe]
    exact target_mem_outs_recipe s
  · rw [recipe]
    exact List.mem_singleton_self _
  · exact absurd recipe h

/-- Who is responsible writes the file. -/
theorem mem_outs_of_responsible (hi : InUse c evs i) (hs : s ∈ responsible i) :
    i ∈ outs (s.recipe c render) := by
  cases i with
  | rendered l f =>
    have mem : .rendered l f ∈ outs (generate c render l) := rendered_mem_generate hi.2.1
    cases l with
    | bootramfs =>
      obtain rfl | rfl : s = .bootinit ∨ s = .updateinit := by
        simp only [responsible] at hs
        split_ifs at hs <;> simp_all
      · exact mem
      · exact mem
    | _ =>
      obtain rfl := List.mem_singleton.mp hs
      first
        | exact mem
        | exact (outs_append _) ▸ List.mem_append_left _ mem
  | inUse u =>
    obtain rfl := List.mem_singleton.mp hs
    cases u <;> simp [Use.step, Step.recipe, outs, runScript, pack, Write.copy]
  | node | initramfs | staged => exact hi.elim

/-! ## The recipes write what they should -/

/-- `generate.py` writes what it should, whatever was there. -/
theorem sound_generate {used K : Set Item} {tail : List (Write Item V)}
    (nodes : ∀ n, .node n ∉ used)
    (rest : ∀ K', (∀ f ∈ c.files l, .rendered l f ∈ K') → Sound used (wantedOf c render) K' tail) :
    Sound used (wantedOf c render) K (generate c render l ++ tail) := by
  have loop : ∀ (fs : List Path) (K : Set Item), (∀ K' : Set Item,
      (∀ f, .rendered l f ∈ K ∨ f ∈ fs → .rendered l f ∈ K') →
        Sound used (wantedOf c render) K' tail) →
      Sound used (wantedOf c render) K (fs.flatMap (generateFile c render l) ++ tail) := by
    intro fs
    induction fs with
    | nil => exact fun K rest => rest K fun f hf => hf.resolve_right List.not_mem_nil
    | cons f fs ih =>
      intro K rest
      have written : ∀ K₁ : Set Item, (∀ g, .rendered l g ∈ K → .rendered l g ∈ K₁) →
          Sound used (wantedOf c render) K₁ (⟨.rendered l f, renderOf c render l f⟩ ::
            (fs.flatMap (generateFile c render l) ++ tail)) := by
        intro K₁ le
        refine .right (fun x v _ value => value) (ih _ fun K' hK' => rest K' fun g hg => hK' g ?_)
        rcases hg with hg | hg
        · exact .inl (.inr (le g hg))
        · exact (List.mem_cons.mp hg).imp (fun e => .inl (congrArg _ e)) id
      rw [List.flatMap_cons, generateFile, List.append_assoc, List.append_assoc]
      cases stepOfFile l f with
      | none => exact written K fun g hg => hg
      | some s => exact .scratch (nodes _) (written _ fun g hg => ⟨hg, by simp⟩)
  exact loop (c.files l) K fun K' hK' => rest K' fun f hf => hK' f (.inr hf)

/-- What is rendered for a use is needed where it is used. -/
theorem needs_of_layer (h : c.layerFile u.layer ∈ layersOf evs) (hu : u ≠ .users) :
    Needs c evs (.node (.target (c.target u.step))) (.rendered u.layer (u.file c.encrypted)) :=
  ⟨⟨h, c.file_mem u, .inr (.inr (.inr ⟨u, rfl, rfl⟩))⟩, u, hu, rfl, rfl⟩

/-- A recipe of a layer that is not there writes no file in use. -/
theorem unused_of_layer (h : c.layerFile u.layer ∉ layersOf evs) (hu : u ≠ .users) :
    ∀ i ∈ outs (u.step.recipe c render), ¬ InUse c evs i := by
  intro i hi used
  have layer : (∃ u', i = .inUse u' ∧ u'.layer = u.layer) ∨ (∃ n, i = .node n) ∨
      ∃ u', i = .staged u' := by
    cases u with
    | users => exact absurd rfl hu
    | _ =>
      simp [Use.step, Step.recipe, outs, touchTarget, runScript, stage, pack, Write.touch,
        Write.copy] at hi
      grind [Use.layer]
  rcases layer with ⟨u', rfl, same⟩ | ⟨n, rfl⟩ | ⟨u', rfl⟩
  · exact h (same ▸ used)
  · exact used
  · exact used

theorem sound_recipe (s : Step) : Sound {i | InUse c evs i} (wantedOf c render)
    {f | Needs c evs (.node (.target (c.target s))) f} (s.recipe c render) := by
  have copy : ∀ {K : Set Item} {a b : Item} {cs : List (Write Item V)}, a ∈ K →
      (∀ x, wantedOf c render x b = wantedOf c render x a) →
      Sound {i | InUse c evs i} (wantedOf c render) (insert b K) cs →
        Sound {i | InUse c evs i} (wantedOf c render) K (.copy a b :: cs) := by
    intro K a b cs ha same rest
    refine .right (fun x v right value => ?_) rest
    obtain rfl : x a = v := Option.some.inj value
    exact (same x).trans (right a ha)
  cases s with
  | configureApt | osPatch =>
    exact sound_generate (fun n => id) fun K' _ => .scratch id (.nil _)
  | configure =>
    refine sound_generate (fun n => id) fun K' hK' => ?_
    exact copy (hK' _ (c.file_mem .users)) (fun x => rfl) (.scratch id (.nil _))
  | bootinit | updateinit | disableScript | bootIts | updateIts =>
    rw [Step.recipe, ← List.append_nil (generate c render _)]
    exact sound_generate (fun n => id) fun K' _ => .nil _
  | bootArchive =>
    by_cases h : c.layerFile .bootramfs ∈ layersOf evs
    · have init := needs_of_layer (u := .init) h (by decide)
      have bootconfig := needs_of_layer (u := .bootconfig) h (by decide)
      refine .scratch id (copy ⟨init, by simp⟩ (fun x => rfl) (copy (.inr ⟨bootconfig, by simp⟩)
        (fun x => rfl) (.scratch id (copy ?_ (fun x => rfl) (copy ?_ (fun x => rfl) (.nil _))))))
      · exact ⟨.inr (.inl rfl), by simp⟩
      · exact .inr ⟨.inl rfl, by simp⟩
    · exact .of_unused (unused_of_layer (u := .init) h (by decide))
  | updateArchive =>
    by_cases h : c.layerFile .bootramfs ∈ layersOf evs
    · have init := needs_of_layer (u := .updateInit) h (by decide)
      refine .scratch id (copy ⟨init, by simp⟩ (fun x => rfl) (.scratch id (copy ?_ (fun x => rfl)
        (.nil _))))
      exact ⟨.inl rfl, by simp⟩
    · exact .of_unused (unused_of_layer (u := .updateInit) h (by decide))
  | disableLogin =>
    by_cases h : c.layerFile .disableLogin ∈ layersOf evs
    · exact copy (needs_of_layer (u := .disableLogin) h (by decide)) (fun x => rfl)
        (.scratch id (.nil _))
    · exact .of_unused (unused_of_layer (u := .disableLogin) h (by decide))
  | bootFit =>
    by_cases h : c.layerFile .bootimage ∈ layersOf evs
    · exact copy (needs_of_layer (u := .bootimage) h (by decide)) (fun x => rfl)
        (copy (.inl rfl) (fun x => rfl) (.scratch id (.nil _)))
    · exact .of_unused (unused_of_layer (u := .bootimage) h (by decide))
  | updateFit =>
    by_cases h : c.layerFile .updateimage ∈ layersOf evs
    · exact copy (needs_of_layer (u := .updateimage) h (by decide)) (fun x => rfl)
        (copy (.inl rfl) (fun x => rfl) (.scratch id (.nil _)))
    · exact .of_unused (unused_of_layer (u := .updateimage) h (by decide))

/-- The other recipes write no file in use. -/
theorem sound_itemRecipe (i : Item) : Sound {i | InUse c evs i} (wantedOf c render)
    {f | Needs c evs i f} (itemRecipe c render i) := by
  rcases itemRecipe_cases c render i with ⟨s, rfl, recipe⟩ | ⟨n, rfl, -, -, recipe⟩ | ⟨recipe, -⟩
  · rw [recipe]
    exact sound_recipe s
  · rw [recipe]
    exact .scratch id (.nil _)
  · rw [recipe]
    exact .nil _

/-- Only targets have prerequisites, and they have recipes. -/
theorem itemRecipe_ne_nil_of_tracks {i j : Item} (e : Tracks cfg evs i j) :
    itemRecipe c render i ≠ [] := by
  obtain ⟨t, rfl⟩ : ∃ t, i = .node (.target t) := by
    cases i with
    | node n =>
      cases n with
      | target t => exact ⟨t, rfl⟩
      | _ => exact e.elim
    | _ => exact e.elim
  rcases itemRecipe_cases c render (.node (.target t)) with ⟨s, -, recipe⟩ |
    ⟨n, -, -, -, recipe⟩ | ⟨-, other⟩
  · intro nil
    have written : .node (.target (c.target s)) ∈ outs (s.recipe c render) :=
      target_mem_outs_recipe s
    rw [← recipe, nil] at written
    cases written
  · rw [recipe]
    exact List.cons_ne_nil _ _
  · exact absurd rfl (other t)

theorem responsible_ne_nil (h : InUse c evs i) : ∃ s, s ∈ responsible i := by
  cases i with
  | rendered l f =>
    cases l with
    | bootramfs => exact ⟨.bootinit, by simp only [responsible]; split_ifs <;> simp⟩
    | _ => exact ⟨_, List.mem_singleton_self _⟩
  | inUse u => exact ⟨_, List.mem_singleton_self _⟩
  | node | initramfs | staged => exact h.elim

end Plan

section Build

variable {V : Type*} (c : Templates) (render : V → V → Option V) (cfg : Config) (evs : Reading)

/-- **The rendered files, and who is responsible for them.** -/
def templatePlan : Plan Item V where
  tracks := Tracks cfg evs
  recipe := itemRecipe c render
  touches := touches_itemRecipe
  recipe_ne_nil _ _ := itemRecipe_ne_nil_of_tracks
  used := {i | InUse c evs i}
  want := wantedOf c render
  needs n := {f | Needs c evs n f}
  guards i := {g | ∃ s ∈ responsible i, g = .node (.target (c.target s))}
  guarded i hi := by
    obtain ⟨s, hs⟩ := responsible_ne_nil hi
    exact ⟨_, s, hs, rfl⟩
  writes := by
    rintro i hi g ⟨s, hs, rfl⟩
    rw [itemRecipe_target]
    exact mem_outs_of_responsible hi hs
  needs_used n f h := h.1
  sound := sound_itemRecipe
  stable x y same := by
    have renders : ∀ l f, renderOf c render l f x = renderOf c render l f y := by
      intro l f
      rw [renderOf, renderOf, same _ fun i => file_notMem_outs i _,
        same _ fun i => file_notMem_outs i _]
    funext i
    cases i with
    | rendered l f => exact renders l f
    | staged u | inUse u => exact renders _ _
    | node | initramfs => rfl
  shared := by
    rintro i hi g ⟨s, hs, rfl⟩ n written
    rw [target_mem_outs written]
    exact mem_outs_of_responsible hi hs

/-- The order in which make comes to the nodes. -/
structure Walkthrough where
  nodes : List Node
  nodup : nodes.Nodup
  before : ∀ a b, Prereq (makefile cfg evs) a b → a ∈ nodes → nodes.idxOf b < nodes.idxOf a
  wanted : ∀ n, Registered evs n → n ∈ nodes

end Build

section Walkthrough

variable {V : Type*} {c : Templates} {render : V → V → Option V} {cfg : Config} {evs : Reading}
  {o : Walkthrough cfg evs} {a b n : Node} {pre post : List Node} {u : Use} {s : Step}

/-- Prerequisites come before. -/
theorem Walkthrough.mem_pre (split : o.nodes = pre ++ a :: post)
    (h : Prereq (makefile cfg evs) a b) : b ∈ pre := by
  have notMem : a ∉ pre := by
    have nodup := o.nodup
    rw [split] at nodup
    exact fun h => (List.nodup_append.mp nodup).2.2 a h a List.mem_cons_self rfl
  have lt := o.before a b h (by simp [split])
  rw [split, List.idxOf_append_of_notMem notMem, List.idxOf_cons_self, Nat.add_zero] at lt
  by_contra hb
  rw [List.idxOf_append_of_notMem hb] at lt
  omega

/-- A layer file's own prerequisites. -/
theorem prereq_of_own {f : LayerFile} {t t' : Path} (hf : f ∈ layersOf evs)
    (h : (t, t') ∈ f.waits) : Prereq (makefile cfg evs) (.target t) (.target t') := by
  obtain ⟨pre, post, rfl⟩ := mem_layersOf.mp hf
  rcases List.mem_append.mp h with h | h
  · exact .inl (normal_makefile.mpr (.inl ⟨pre, f, post, rfl, .own h⟩))
  · exact .inr (orderOnly_makefile.mpr (.inl ⟨pre, f, post, rfl, .ownAfter h⟩))

/-- Who renders a file comes before who uses it. -/
theorem Walkthrough.responsible_mem_pre (split : o.nodes = pre ++ .target (c.target u.step) :: post)
    (h : c.layerFile u.layer ∈ layersOf evs) (hu : u ≠ .users)
    (hs : s ∈ responsible (.rendered u.layer (u.file c.encrypted))) :
    .target (c.target s) ∈ pre := by
  have own : ∀ s, (c.target u.step, c.target s) ∈ (c.layerFile u.layer).waits →
      .target (c.target s) ∈ pre := fun s w => o.mem_pre split (prereq_of_own h w)
  cases u with
  | users => exact absurd rfl hu
  | disableLogin =>
    obtain rfl := List.mem_singleton.mp hs
    exact own _ (.head _)
  | init =>
    obtain rfl : s = .bootinit := by
      cases e : c.encrypted <;> simpa [responsible, Use.file, Use.layer, e] using hs
    exact own _ (.head _)
  | bootconfig =>
    obtain rfl : s = .bootinit := by simpa [responsible, Use.file, Use.layer] using hs
    exact own _ (.head _)
  | updateInit =>
    have updateinit := own .updateinit (.tail _ (.head _))
    obtain rfl | rfl : s = .bootinit ∨ s = .updateinit := by
      simpa [responsible, Use.file, Use.layer] using hs
    · -- the order-only prerequisite of `$(updateinit.sh)`
      obtain ⟨pre₁, pre₂, rfl⟩ := List.append_of_mem updateinit
      have split₁ : o.nodes = pre₁ ++ .target (c.target .updateinit) ::
          (pre₂ ++ .target (c.target .updateArchive) :: post) := by
        rw [split, List.append_assoc, List.cons_append]
        rfl
      have edge : Prereq (makefile cfg evs) (.target (c.target .updateinit))
          (.target (c.target .bootinit)) := prereq_of_own h (.tail _ (.tail _ (.head _)))
      exact List.mem_append_left _ (o.mem_pre split₁ edge)
    · exact updateinit
  | bootimage | updateimage =>
    obtain rfl := List.mem_singleton.mp hs
    exact own _ (.head _)

/-- Who is responsible is a target of the layer. -/
theorem registered_of_responsible {i : Item} (hi : InUse c evs i) (hs : s ∈ responsible i) :
    Registered evs (.target (c.target s)) := by
  cases i with
  | rendered l f =>
    refine ⟨c.layerFile l, hi.1, _, ?_, rfl⟩
    cases l with
    | bootramfs =>
      obtain rfl | rfl : s = .bootinit ∨ s = .updateinit := by
        simp only [responsible] at hs
        split_ifs at hs <;> simp_all
      · exact .head _
      · exact .tail _ (.tail _ (.head _))
    | disableLogin =>
      obtain rfl := List.mem_singleton.mp hs
      exact .tail _ (.head _)
    | bootimage | updateimage =>
      obtain rfl := List.mem_singleton.mp hs
      exact .tail _ (.head _)
    | _ =>
      obtain rfl := List.mem_singleton.mp hs
      exact .head _
  | inUse u =>
    obtain rfl := List.mem_singleton.mp hs
    refine ⟨c.layerFile u.layer, hi, _, ?_, rfl⟩
    cases u with
    | init | bootconfig => exact .tail _ (.head _)
    | updateInit => exact .tail _ (.tail _ (.tail _ (.head _)))
    | _ => exact .head _
  | node | initramfs | staged => exact hi.elim

/-- **The order is good for the plan.** -/
theorem Walkthrough.complete (o : Walkthrough cfg evs) :
    (templatePlan c render cfg evs).Complete (o.nodes.map .node) := by
  have disjoint : ∀ {pre n post}, o.nodes = pre ++ n :: post → ∀ b ∈ pre, b ∉ n :: post := by
    intro pre n post split b hb hb'
    have nodup := o.nodup
    rw [split] at nodup
    exact (List.nodup_append.mp nodup).2.2 b hb b hb' rfl
  have ordered : ∀ pre ns, o.nodes = pre ++ ns →
      (templatePlan c render cfg evs).Ordered (ns.map .node) := by
    intro pre ns
    induction ns generalizing pre with
    | nil => exact fun _ => trivial
    | cons n ns ih =>
      intro split
      refine ⟨?_, ?_, ih (pre ++ [n]) (by simpa using split)⟩
      · intro i e hi
        obtain ⟨b, hb, rfl⟩ := List.mem_map.mp (show i ∈ (n :: ns).map Item.node from hi)
        cases n with
        | target t => exact disjoint split b (o.mem_pre split (.inl e)) hb
        | _ => exact e.elim
      · rintro f ⟨inUse, u, hu, hn, rfl⟩ g ⟨s, hs, rfl⟩ hi
        obtain ⟨b, hb, e⟩ := List.mem_map.mp (show _ ∈ (n :: ns).map Item.node from hi)
        obtain rfl := Item.node.inj hn
        obtain rfl := Item.node.inj e
        exact disjoint split _ (o.responsible_mem_pre split inUse.1 hu hs) hb
  refine ⟨ordered [] _ rfl, ?_, ?_⟩
  · rintro i hi g ⟨s, hs, rfl⟩
    exact List.mem_map_of_mem (o.wanted _ (registered_of_responsible hi hs))
  · intro n m hn e
    obtain ⟨a, ha, rfl⟩ := List.mem_map.mp hn
    cases m with
    | node b =>
      cases a with
      | target t =>
        have lt := o.before _ b (.inl e) ha
        exact List.mem_map_of_mem (List.idxOf_lt_length_iff.mp
          (lt.trans (List.idxOf_lt_length_iff.mpr ha)))
      | _ => exact e.elim
    | _ => cases a <;> exact e.elim

end Walkthrough

/-! ## Histories -/

section Histories

variable (V : Type*) (c : Templates) (render : V → V → Option V) (cfg : Config) (evs : Reading)

/-- An edit, or a run of make.  A run that provisions the root file system again would delete the
files that are rendered into it; here they stay. -/
inductive TemplateAct
  /-- The configuration, a template or another file of the tree is written. -/
  | edit (p : Path) (v : V)
  /-- Make finishes, or stops after the given commands of a recipe. -/
  | make (o : Walkthrough cfg evs) (e : Option (List (Write Item V))) (w : Disk Item V)

variable {V}

namespace TemplateAct

variable {cfg evs}

/-- The files after an act. -/
def after (w : Disk Item V) : TemplateAct V cfg evs → Disk Item V
  | .edit p v => w.write (.node (.file p)) v
  | .make _ _ w' => w'

/-- Make runs like this. -/
def Happens (w : Disk Item V) : TemplateAct V cfg evs → Prop
  | .edit _ _ => True
  | .make o e w' => (templatePlan c render cfg evs).Runs (o.nodes.map .node) w e w'

/-- When make has finished, every file in use is the rendering of its template as it is now, with
the configuration as it is now. -/
def Fresh (_ : Disk Item V) : TemplateAct V cfg evs → Prop
  | .make _ none w' => ∀ i, InUse c evs i → wantedOf c render w'.content i = some (w'.content i)
  | .edit _ _ | .make _ (some _) _ => True

/-- Make notices an edit, and does not stop between the files that one recipe writes. -/
def Careful (w : Disk Item V) : TemplateAct V cfg evs → Prop
  | .edit p v => (templatePlan c render cfg evs).Noticed w (.node (.file p)) v
  | .make _ none _ => True
  | .make _ (some pre) _ => (templatePlan c render cfg evs).Harmless w pre

end TemplateAct

/-- In every history that begins before the first build. -/
def NeverStale : Prop :=
  ∀ (w : Disk Item V) (as : List (TemplateAct V cfg evs)),
    (∀ s, w.mtime (.node (.target (c.target s))) = 0) →
      Along TemplateAct.after (TemplateAct.Happens c render) w as →
        Along TemplateAct.after (TemplateAct.Fresh c render) w as

variable {c render cfg evs} {w : Disk Item V} {as : List (TemplateAct V cfg evs)} {p : Path} {v : V}

/-- **An edit is noticed if the targets lead to the file** by normal prerequisites, for every file
in use that is rendered with it. -/
theorem noticed_of_tracks (paths : ∀ i, InUse c evs i →
      wantedOf c render (w.write (.node (.file p)) v).content i ≠ wantedOf c render w.content i →
        ∃ s ∈ responsible i,
          Relation.TransGen (Tracks cfg evs) (.node (.target (c.target s))) (.node (.file p))) :
    TemplateAct.Careful c render w (.edit p v : TemplateAct V cfg evs) :=
  Plan.noticed_of_path (fun i => file_notMem_outs i p) fun i hi changed =>
    let ⟨s, hs, path⟩ := paths i hi changed
    ⟨_, ⟨s, hs, rfl⟩, path⟩

/-- **No rendered file in use is stale after a run that finishes**, in every history in which make
notices the edits and no run stops between the files that one recipe writes. -/
theorem rendered_along (c : Templates) (render : V → V → Option V) (cfg : Config) (evs : Reading)
    (w : Disk Item V) (as : List (TemplateAct V cfg evs))
    (missing : ∀ s, w.mtime (.node (.target (c.target s))) = 0)
    (happens : Along TemplateAct.after (TemplateAct.Happens c render) w as)
    (careful : Along TemplateAct.after (TemplateAct.Careful c render) w as) :
    Along TemplateAct.after (TemplateAct.Fresh c render) w as := by
  refine (happens.and careful).of_invariant
    (I := (templatePlan c render cfg evs).Minded fun _ => True) ?_ ?_
  · rintro w a minded ⟨happens, careful⟩
    cases a with
    | edit p v => exact ⟨trivial, minded.edit careful fun i => file_notMem_outs i p⟩
    | make o e w' =>
      have complete : (templatePlan c render cfg evs).Complete (o.nodes.map .node) := o.complete
      have start := minded.complete complete
      cases e with
      | none =>
        have right := start.finished complete.ordered happens
        exact ⟨right, fun i hi => .inl (right i hi)⟩
      | some pre => exact ⟨trivial, start.stopped complete.ordered happens careful⟩
  · refine Plan.minded_of_missing ?_
    rintro i - g ⟨s, -, rfl⟩
    exact missing s

end Histories

/-! ## A recipe with packages -/

/-- What is in the files. -/
inductive AptText
  /-- A configuration with these package sources. -/
  | config (lines : List String)
  /-- `etc/apt/sources.list`, which lists the sources of the configuration. -/
  | template
  /-- A text without tags. -/
  | text (lines : List String)
  deriving DecidableEq

/-- The rendering. -/
def AptText.render : AptText → AptText → Option AptText
  | .config lines, .template => some (.text lines)
  | .config _, .text lines => some (.text lines)
  | _, _ => none

/-- The templates that are named. -/
def namedTemplates : TemplateLayer → List Path
  | .packages => ["etc/apt/sources.list"]
  | .osPatch => ["etc/hostname"]
  | .configure => ["users.sh"]
  | .bootramfs => ["updateinit.sh", "bootinit.sh", "bootconfig.sh", "securebootinit.sh"]
  | .disableLogin => ["disable-login.sh"]
  | .bootimage => ["bootimage.its"]
  | .updateimage => ["updateimage.its"]

/-- A recipe without files of its own. -/
def aptTemplates : Templates where
  recipe := "recipes/rpi"
  top := "recipes/rpi"
  config := "recipes/rpi/config.json"
  release := false
  encrypted := false
  present _ := false
  find p := ([.packages, .osPatch, .configure, .bootramfs, .disableLogin, .bootimage,
    .updateimage] : List TemplateLayer).flatMap fun l =>
      if l.root = p then (namedTemplates l).map (l.root ++ "/" ++ ·) else []
  secure := false
  sffiles := []
  bootargs _ := []
  files := namedTemplates
  find_root l := by cases l <;> decide
  file_mem u := by cases u <;> decide
  bootinit_mem := by decide

/-- Packages are installed. -/
def aptReading : Reading :=
  [.layer debianDebootstrap, .layer debianProvision,
    .layer (debianPackages aptTemplates.toRecipeTree)]

/-- What no edit is about. -/
def aptBase : List Node :=
  [.sourceCheckout, .preamble "debian-debootstrap", .preamble "debian-provision",
    .preamble "debian-packages", .buildDir "debian-debootstrap", .buildDir "debian-provision",
    .buildDir "debian-packages", .file "debian/debootstrap/layer.mk",
    .file "debian/provision/layer.mk", .file "debian/packages/layer.mk",
    .file "debian/packages/scripts/install-packages.sh",
    .target "$(STAMP)/L_debian-debootstrap/debootstrap", .target provisionStamp]

/-- `etc/apt/sources.list` -/
def aptTemplate : Node := .file "debian/packages/rootfs/etc/apt/sources.list"

/-- `$(debian-configure-apt)` -/
def aptStamp : Node := .target "$(STAMP)/L_debian-packages/configure-apt"

/-- `$(debian-install-packages)` -/
def installStamp : Node := .target "$(STAMP)/L_debian-packages/install-packages"

/-- What is rendered. -/
def aptSources : Item := .rendered .packages "etc/apt/sources.list"

/-- The order of the goals. -/
def aptOrder : Walkthrough ⟨false, false⟩ aptReading where
  nodes := aptTemplate :: aptBase ++ [aptStamp, installStamp]
  nodup := by decide
  before := forall_prereq.mpr (by decide)
  wanted := by
    have all : ∀ f ∈ layersOf aptReading, ∀ t ∈ f.targets,
        .target t ∈ aptTemplate :: aptBase ++ [aptStamp, installStamp] := by decide
    rintro n ⟨f, hf, t, ht, rfl⟩
    exact all f hf t ht

/-- The root file system is provisioned, and nothing else is built. -/
def aptDisk : Disk Item AptText where
  content i :=
    if i = .node (.file "recipes/rpi/config.json") then .config ["deb stretch"]
    else if i = .node aptTemplate then .template
    else .text []
  mtime i :=
    if i ∈ (aptTemplate :: aptBase).map Item.node then 1 else 0
  clock := 1
  le_clock i := by split_ifs <;> simp

/-- Both recipes are executed. -/
def aptBuilt (w : Disk Item AptText) (lines : List String) : Disk Item AptText :=
  ((w.write aptSources (.text lines)).write (.node aptStamp) (w.content (.node aptStamp))).write
    (.node installStamp) (w.content (.node installStamp))

/-- Nothing is newer than the prerequisites of these nodes. -/
theorem not_outdated_apt {w : Disk Item AptText} {n : Node} (bs : List Node)
    (prereqs : ∀ r ∈ makefile ⟨false, false⟩ aptReading, n ∈ r.targets → ∀ b ∈ r.normal, b ∈ bs)
    (found : w.mtime (.node n) ≠ 0) (old : ∀ b ∈ bs, w.mtime (.node b) ≤ w.mtime (.node n)) :
    ¬ (templatePlan aptTemplates AptText.render ⟨false, false⟩ aptReading).Outdated w
      (.node n) := by
  rintro ⟨-, missing | ⟨i, e, newer⟩⟩
  · exact found missing
  · obtain ⟨b, rfl⟩ : ∃ b, i = .node b := by
      cases i with
      | node b => exact ⟨b, rfl⟩
      | _ => cases n <;> exact e.elim
    cases n with
    | target t =>
      obtain ⟨r, hr, ht, hb⟩ := e
      exact absurd newer (not_lt.mpr (old b (prereqs r hr ht b hb)))
    | _ => exact e.elim

/-- The base stays as it is while it is not edited. -/
theorem not_outdated_base {w : Disk Item AptText} (same : ∀ n ∈ aptBase, w.mtime (.node n) = 1) :
    ∀ n ∈ aptBase, ¬ (templatePlan aptTemplates AptText.render ⟨false, false⟩
      aptReading).Outdated w (.node n) := by
  have prereqs : ∀ n ∈ aptBase, ∀ r ∈ makefile ⟨false, false⟩ aptReading, n ∈ r.targets →
      ∀ b ∈ r.normal, b ∈ aptBase := by decide
  intro n hn
  refine not_outdated_apt _ (prereqs n hn) (by simp [same n hn]) fun b hb => ?_
  rw [same b hb, same n hn]

/-- Nor does a template. -/
theorem not_outdated_template {w : Disk Item AptText} (template : w.mtime (.node aptTemplate) ≠ 0) :
    ¬ (templatePlan aptTemplates AptText.render ⟨false, false⟩ aptReading).Outdated w
      (.node aptTemplate) :=
  not_outdated_apt [] (by decide) template fun b hb => absurd hb List.not_mem_nil

/-- A run that executes both recipes. -/
theorem runs_aptBuilt (w : Disk Item AptText) (lines : List String)
    (same : ∀ n ∈ aptBase, w.mtime (.node n) = 1) (template : w.mtime (.node aptTemplate) ≠ 0)
    (value : AptText.render (w.content (.node (.file "recipes/rpi/config.json")))
      (w.content (.node aptTemplate)) = some (.text lines)) :
    (templatePlan aptTemplates AptText.render ⟨false, false⟩ aptReading).Runs
      (aptOrder.nodes.map .node) w none (aptBuilt w lines) := by
  have keep : ∀ i ∈ (aptTemplate :: aptBase).map Item.node,
      ¬ (templatePlan aptTemplates AptText.render ⟨false, false⟩ aptReading).Outdated w i := by
    intro i hi
    obtain ⟨n, hn, rfl⟩ := List.mem_map.mp hi
    rcases List.mem_cons.mp hn with rfl | hn
    · exact not_outdated_template template
    · exact not_outdated_base same n hn
  have rendered : execute (Step.recipe aptTemplates AptText.render .configureApt) w =
      some ((w.write aptSources (.text lines)).write (.node aptStamp)
        (w.content (.node aptStamp))) := by
    exact execute_cons_eq_some.mpr ⟨_, value, rfl⟩
  exact .keepAll keep (.make rendered (.make rfl (.finished _)))

/-- The first build. -/
def aptFirst : Disk Item AptText := aptBuilt aptDisk ["deb stretch"]

theorem runs_aptFirst :
    (templatePlan aptTemplates AptText.render ⟨false, false⟩ aptReading).Runs
      (aptOrder.nodes.map .node) aptDisk none aptFirst :=
  runs_aptBuilt aptDisk ["deb stretch"] (by decide) (by decide) rfl

/-- No target with rendered files is there at first. -/
theorem missing_aptDisk (s : Step) : aptDisk.mtime (.node (.target (aptTemplates.target s))) = 0 := by
  cases s <;> decide

/-- Another configuration. -/
def aptEdited : Disk Item AptText :=
  aptFirst.write (.node (.file "recipes/rpi/config.json")) (.config ["deb buster"])

/-- The second run finds nothing to do. -/
theorem runs_aptEdited :
    (templatePlan aptTemplates AptText.render ⟨false, false⟩ aptReading).Runs
      (aptOrder.nodes.map .node) aptEdited none aptEdited := by
  have keep : ∀ i ∈ aptOrder.nodes.map Item.node,
      ¬ (templatePlan aptTemplates AptText.render ⟨false, false⟩ aptReading).Outdated
        aptEdited i := by
    intro i hi
    obtain ⟨n, hn, rfl⟩ := List.mem_map.mp hi
    rcases List.mem_append.mp hn with hn | hn
    · rcases List.mem_cons.mp hn with rfl | hn
      · exact not_outdated_template (by decide)
      · exact not_outdated_base (by decide) n hn
    · rcases List.mem_pair.mp hn with rfl | rfl
      · exact not_outdated_apt (aptTemplate :: aptBase) (by decide) (by decide) (by decide)
      · exact not_outdated_apt (aptStamp :: aptBase) (by decide) (by decide) (by decide)
  have all := Build.Runs.keepAll keep (.finished aptEdited)
  rwa [List.append_nil] at all

/-- **The package sources are stale**: `debian-configure-apt` does not depend on the
configuration. -/
theorem not_neverStale_apt :
    ¬ NeverStale aptTemplates AptText.render ⟨false, false⟩ aptReading := by
  intro h
  have along := h aptDisk [.make aptOrder none aptFirst,
    .edit "recipes/rpi/config.json" (.config ["deb buster"]), .make aptOrder none aptEdited]
    missing_aptDisk ⟨runs_aptFirst, trivial, runs_aptEdited, trivial⟩
  have used : InUse aptTemplates aptReading aptSources := by
    refine ⟨?_, .head _, .inl rfl⟩
    decide
  have fresh := along.2.2.1 aptSources used
  revert fresh
  decide

/-- An edit of the template is noticed, and the file in use follows it. -/
theorem rendered_along_apt :
    Along TemplateAct.after (TemplateAct.Fresh aptTemplates AptText.render) aptDisk
      [.make aptOrder none aptFirst,
        .edit "debian/packages/rootfs/etc/apt/sources.list" (.text ["deb sid"]),
        .make aptOrder none (aptBuilt (aptFirst.write (.node aptTemplate) (.text ["deb sid"]))
          ["deb sid"])] := by
  have second := runs_aptBuilt (aptFirst.write (.node aptTemplate) (.text ["deb sid"])) ["deb sid"]
    (by decide) (by decide) rfl
  have layers : ∀ l, aptTemplates.layerFile l ∈ layersOf aptReading → l = .packages := by
    intro l
    cases l <;> decide
  have edge : Normal (makefile ⟨false, false⟩ aptReading) aptStamp aptTemplate := by decide
  have noticed : TemplateAct.Careful aptTemplates AptText.render aptFirst
      (.edit "debian/packages/rootfs/etc/apt/sources.list" (.text ["deb sid"]) :
        TemplateAct AptText ⟨false, false⟩ aptReading) := by
    refine noticed_of_tracks fun i hi _ => ?_
    cases i with
    | rendered l f =>
      obtain rfl := layers l hi.1
      exact ⟨.configureApt, .head _, .single edge⟩
    | inUse u =>
      have packages := layers u.layer hi
      cases u <;> cases packages
    | node | initramfs | staged => exact hi.elim
  exact rendered_along _ _ _ _ aptDisk _ missing_aptDisk ⟨runs_aptFirst, trivial, second, trivial⟩
    ⟨trivial, noticed, trivial, trivial⟩

end VeRoot
