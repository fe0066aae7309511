import VeRoot.Engine.Layer

/-!
# The layers of the root file system

The layer files below `layers/debian`, `layers/rootfs` and `layers/kernel` that work on
`$(ROOTFS)`, with their targets, what they name in `DEPENDS`, and the files that their own
rules name.

## Main definitions

* `RecipeTree` — the variables and the files that the layer files look at.
* `debianProvision`, `debianRootfs` — the layers that create `$(ROOTFS)`.
* `rootfsLayers` — the layers that modify it.
-/

namespace VeRoot

/-- What the layer files look at while they are read. -/
structure RecipeTree where
  /-- `$(RECIPE)` -/
  recipe : Path
  /-- `$(TOP)` -/
  top : Path
  /-- `$(DEBIAN_PATCH_CONFIG)` -/
  config : Path
  /-- `CONFIG_RELEASE` is `y`. -/
  release : Bool
  /-- `CONFIG_ENCRYPTED_ROOTFS` is `y`. -/
  encrypted : Bool
  /-- `$(wildcard p)` is not empty. -/
  present : Path → Bool
  /-- `$(shell find p -type f)` -/
  find : Path → List Path

namespace RecipeTree

variable (c : RecipeTree)

/-- `ifneq ($(wildcard p),)` around a prerequisite. -/
def optional (p : Path) : List Path := if c.present p then [p] else []

/-- `ifneq ($(wildcard p),)` around the files below `p`. -/
def below (p : Path) : List Path := if c.present p then c.find p else []

/-- `ifneq ($(RECIPE),$(TOP))` -/
def other (ps : List Path) : List Path := if c.recipe = c.top then [] else ps

end RecipeTree

/-- A layer file whose own rules name the files `inputs`, each for one of its targets. -/
def LayerFile.withInputs (name : Name) (file : Path) (decls : List Decl)
    (inputs : List ({t // t ∈ Decl.targets decls} × Path)) (deps : List (Path × Path) := [])
    (own : ∀ e ∈ deps, e.1 ∈ Decl.targets decls ∧ e.2 ∈ Decl.targets decls := by decide) :
    LayerFile where
  name := name
  file := file
  decls := decls
  deps := deps
  own := own
  ownAfter := by simp
  inputs := inputs.map fun e => (e.1.1, e.2)
  ownInputs := by
    intro e he
    obtain ⟨x, -, rfl⟩ := List.mem_map.mp he
    exact x.1.2

/-- The target `t` depends on the files `ps`. -/
def on {ts : List Path} (t : {t // t ∈ ts}) (ps : List Path) : List ({t // t ∈ ts} × Path) :=
  ps.map (t, ·)

/-! ## The base -/

/-- The stamp of `debian-provision`. -/
def provisionStamp : Path := "$(STAMP)/L_debian-provision/provision"

/-- `layers/debian/debootstrap/layer.mk` -/
def debianDebootstrap : LayerFile :=
  .withInputs "debian-debootstrap" "debian/debootstrap/layer.mk"
    [.target "$(STAMP)/L_debian-debootstrap/debootstrap"] []

/-- `layers/debian/provision/layer.mk` -/
def debianProvision : LayerFile :=
  .withInputs "debian-provision" "debian/provision/layer.mk"
    [.target provisionStamp, .depends "debian-debootstrap"] []

/-- `$(debian-rootfs-patch)` -/
def rootfsPatchStamp : Path := "$(STAMP)/L_debian-rootfs/debian-rootfs-patch"

/-- `layers/debian/rootfs/layer.mk`, which creates `$(ROOTFS)` without the two layers above. -/
def debianRootfs (c : RecipeTree) : LayerFile :=
  .withInputs "debian-rootfs" "debian/rootfs/layer.mk"
    [.target "$(STAMP)/L_debian-rootfs/debian-rootfs-base", .target rootfsPatchStamp,
      .target "$(STAMP)/L_debian-rootfs/debian-rootfs-config", .runafter "bootloader",
      .runafter "kernel"]
    (on ⟨_, .head _⟩ [c.recipe ++ "/packages.list"])
    [(rootfsPatchStamp, "$(STAMP)/L_debian-rootfs/debian-rootfs-base"),
      ("$(STAMP)/L_debian-rootfs/debian-rootfs-config", rootfsPatchStamp)]

/-! ## Layers that modify the root file system -/

/-- `layers/debian/packages/layer.mk`.  `$(debian-full-upgrade)` is ordered before the second
target if its layer is read before, as it is anyway. -/
def debianPackages (c : RecipeTree) : LayerFile :=
  .withInputs "debian-packages" "debian/packages/layer.mk"
    [.target "$(STAMP)/L_debian-packages/configure-apt",
      .target "$(STAMP)/L_debian-packages/install-packages", .depends "debian-provision"]
    (on ⟨"$(STAMP)/L_debian-packages/configure-apt", by decide⟩ (c.find "debian/packages/rootfs") ++
      on ⟨"$(STAMP)/L_debian-packages/install-packages", by decide⟩
        ("debian/packages/scripts/install-packages.sh" :: c.optional (c.recipe ++ "/packages.list") ++
          c.optional (c.recipe ++ "/dev-packages.list") ++ c.optional (c.top ++ "/packages.list") ++
          c.optional (c.top ++ "/dev-packages.list")))
    [("$(STAMP)/L_debian-packages/install-packages", "$(STAMP)/L_debian-packages/configure-apt")]

/-- `layers/debian/full-upgrade/layer.mk` -/
def debianFullUpgrade : LayerFile :=
  .withInputs "debian-full-upgrade" "debian/full-upgrade/layer.mk"
    [.target "$(STAMP)/L_debian-full-upgrade/full-upgrade", .depends "debian-provision"]
    (on ⟨_, .head _⟩ ["debian/full-upgrade/full-upgrade.sh"])

/-- `layers/debian/os-patch/layer.mk`.  `$(DEBIAN_OS_PATCH_CONFIG)` is empty. -/
def debianOsPatch (c : RecipeTree) : LayerFile :=
  .withInputs "debian-os-patch" "debian/os-patch/layer.mk"
    [.target "$(STAMP)/L_debian-os-patch/debian-os-patch", .depends "debian-packages",
      .depends "debian-full-upgrade"]
    (on ⟨_, .head _⟩ (c.find "debian/os-patch/rootfs"))

/-- `$(debian-customise)` -/
def customiseStamp (release : Bool) : Path :=
  if release then "$(STAMP)/L_debian-customise/customise.release"
  else "$(STAMP)/L_debian-customise/customise"

/-- `layers/debian/customise.mk` -/
def debianCustomise (c : RecipeTree) : LayerFile :=
  .withInputs "debian-customise" "debian/customise.mk"
    [.target (customiseStamp c.release), .depends "debian-provision", .depends "debian-os-patch"]
    (on ⟨_, .head _⟩
      (c.below (c.recipe ++ "/rootfs") ++ c.below (c.recipe ++ "/dev-rootfs") ++
        c.other (c.below (c.top ++ "/rootfs") ++ c.below (c.top ++ "/dev-rootfs"))))
    [] (by simp)

/-- `layers/debian/configure/layer.mk` -/
def debianConfigure (c : RecipeTree) : LayerFile :=
  .withInputs "debian-configure" "debian/configure/layer.mk"
    [.target "$(STAMP)/L_debian-configure/configure", .depends "debian-provision",
      .depends "debian-packages"]
    (on ⟨_, .head _⟩
      (c.config :: c.optional (c.recipe ++ "/scripts/configure.sh") ++
        c.optional (c.top ++ "/scripts/configure.sh")))

/-- `layers/debian/fixup-libs/layer.mk` -/
def debianFixupLibs : LayerFile :=
  .withInputs "debian-fixup-libs" "debian/fixup-libs/layer.mk"
    [.target "$(STAMP)/L_debian-fixup-libs/debian-fixup-libs", .depends "debian-packages",
      .depends "debian-full-upgrade"] []

/-- `layers/debian/disable-login/layer.mk` -/
def debianDisableLogin : LayerFile :=
  .withInputs "debian-disable-login" "debian/disable-login/layer.mk"
    [.target "$(STAMP)/L_debian-disable-login/debian-disable-login",
      .target "$(BUILD)/L_debian-disable-login/disable-login.sh"]
    (on ⟨"$(BUILD)/L_debian-disable-login/disable-login.sh", by decide⟩
      ["debian/disable-login/scripts/disable-login.sh"])
    [("$(STAMP)/L_debian-disable-login/debian-disable-login",
      "$(BUILD)/L_debian-disable-login/disable-login.sh")]

/-- `layers/debian/minimise.mk` -/
def debianMinimise : LayerFile :=
  .withInputs "debian-minimise" "debian/minimise.mk"
    [.target "$(STAMP)/L_debian-minimise/minimise", .depends "debian-packages"] []

/-- `layers/kernel/modules/layer.mk` -/
def kernelModules : LayerFile :=
  .withInputs "kernel-modules" "kernel/modules/layer.mk"
    [.target "$(STAMP)/L_kernel-modules/modules", .depends "debian-provision", .depends "kernel"] []

/-- `layers/debian/depmod.mk` -/
def debianDepmod : LayerFile :=
  .withInputs "debian-depmod" "debian/depmod.mk"
    [.target "$(STAMP)/L_debian-depmod/depmod", .depends "kernel-modules"] []

/-- `layers/rootfs/permissions/layer.mk` -/
def rootfsPermissions (c : RecipeTree) : LayerFile :=
  .withInputs "rootfs-permissions" "rootfs/permissions/layer.mk"
    [.target "$(STAMP)/L_rootfs-permissions/permissions", .depends "debian-customise"]
    (on ⟨_, .head _⟩
      (c.optional (c.recipe ++ "/permissions.list") ++ c.optional (c.top ++ "/permissions.list") ++
        ["rootfs/permissions/permissions.sh"]))

/-- `layers/rootfs/configure.mk` -/
def rootfsConfigure (c : RecipeTree) : LayerFile :=
  .withInputs "rootfs-configure" "rootfs/configure.mk"
    [.target "$(STAMP)/L_rootfs-configure/rootfs-configure"]
    (on ⟨_, .head _⟩ [c.recipe ++ "/configure.sh"])

/-- The layers that modify the root file system. -/
def rootfsLayers (c : RecipeTree) : List LayerFile :=
  [debianPackages c, debianFullUpgrade, debianOsPatch c, debianCustomise c, debianConfigure c,
    debianFixupLibs, debianDisableLogin, debianMinimise, debianDepmod, kernelModules,
    rootfsPermissions c, rootfsConfigure c]

/-! ## Layers that use the root file system -/

/-- `$(debian-initramfs)` -/
def initramfsStamp : Path := "$(STAMP)/L_debian-initramfs/initramfs-base"

/-- `layers/debian/initramfs.mk` -/
def debianInitramfs : LayerFile :=
  .withInputs "debian-initramfs" "debian/initramfs.mk"
    [.target initramfsStamp, .depends "debian-provision"] []

/-- `$(rootfs-tarball)` -/
def rootfsTar : Path := "$(OUT)/rootfs.tar"

/-- `layers/rootfs/tarball.mk` -/
def rootfsTarball : LayerFile :=
  .withInputs "rootfs-tarball" "rootfs/tarball.mk" [.target rootfsTar] []

/-- `$(rootfs-ext4-image)` -/
def ext4Image (encrypted : Bool) : Path :=
  if encrypted then "$(BUILD)/L_rootfs-ext4-image/rootfs.ext4.encrypted.img"
  else "$(BUILD)/L_rootfs-ext4-image/rootfs.ext4.img"

/-- `layers/rootfs/image-ext4.mk` -/
def rootfsExt4Image (c : RecipeTree) : LayerFile :=
  .withInputs "rootfs-ext4-image" "rootfs/image-ext4.mk"
    [.target (ext4Image c.encrypted), .target (ext4Image c.encrypted ++ ".gz"), .depends "rootfs"] []
    [(ext4Image c.encrypted ++ ".gz", ext4Image c.encrypted)] (by simp [Decl.targets])

end VeRoot
