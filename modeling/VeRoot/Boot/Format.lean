import VeRoot.Boot.Init

/-!
# Formatting and the files of the partitions

A mount point may ask to be formatted on the first flash, or when it cannot be
mounted.  The script formats the data partition whenever it cannot be mounted, and
no other partition for that reason.  Files also go when `/data` cannot be unmounted
before its mount point is removed, and when the network link is not put back.

## Main definitions

* `Startup`, `Startup.trace`, `Startup.leaves` — one boot.
* `UserDataSafe` — what is wanted of it.
* `SafeStartup` — when it goes well.
* `userDataSafe_iff` — the main result.
-/

namespace VeRoot

open Unix

/-- One boot: what is on the media before it, and how its commands end. -/
structure Startup where
  media : Media
  outcome : BootCmd → Bool
  /-- The root device is there from the beginning. -/
  ready : Bool := true
  networkStatic : Bool := false

/-- The device that a command mounts. -/
def BootCmd.mounts : BootCmd → Option Path
  | .mountLower _ dev | .mountData _ dev | .mountNewroot dev | .mountPoint _ dev => some dev
  | _ => none

namespace Startup

variable (cfg : BootConfig) (b : Startup) (dev : Path)

/-- The machine when it is switched on. -/
def start : Machine := cfg.powerOn b.media b.ready b.networkStatic

/-- The commands that are executed up to `switch_root`. -/
def trace : List BootCmd := cfg.bootTrace b.outcome (b.start cfg)

/-- The files of the partitions then. -/
def leaves : Media := (cfg.bootRun b.outcome (b.start cfg)).files

/-- The boot runs `mkfs` on the device. -/
def Formats : Prop := ∃ c ∈ b.trace cfg, c.formats = some dev

/-- A mount of the device fails. -/
def MountFailed : Prop := ∃ c ∈ b.trace cfg, c.mounts = some dev ∧ b.outcome c = false

/-- The marker is found on the root file system. -/
def markerFound : Bool :=
  b.outcome (.mountLower false cfg.root.blkdev) && b.media cfg.root.blkdev firstFlashMarker

end Startup

/-- Partitions are formatted as `format` says, and the others keep their files, up to the
marker. -/
structure UserDataSafe (cfg : BootConfig) (b : Startup) : Prop where
  formats : ∀ m ∈ cfg.mountPoints, b.Formats cfg m.blkdev ↔
    (b.markerFound cfg = true ∧ .firstFlash ∈ m.format) ∨
      (b.MountFailed cfg m.blkdev ∧ .mountError ∈ m.format)
  keeps : ∀ m ∈ cfg.mountPoints, ¬ b.Formats cfg m.blkdev → ∀ f, b.media m.blkdev f = true →
    ¬ (m.blkdev = cfg.root.blkdev ∧ f = firstFlashMarker) → b.leaves cfg m.blkdev f = true

/-! ## When a boot goes well -/

namespace Startup

variable (cfg : BootConfig) (b : Startup) (dev : Path)

/-- The first flash formats the device. -/
def FlashFormats : Prop :=
  b.markerFound cfg = true ∧ ∃ m ∈ cfg.mountPoints, .firstFlash ∈ m.format ∧ m.blkdev = dev

/-- The data partition cannot be mounted. -/
def dataFails : Bool := !b.outcome (.mountData false cfg.data.blkdev)

/-- The data partition is mounted in the end. -/
def dataMounted : Bool := !b.dataFails cfg || b.outcome (.mountData true cfg.data.blkdev)

/-- The data partition is formatted with success. -/
def DataErased : Prop :=
  (b.markerFound cfg = true ∧ ∃ m ∈ cfg.mountPoints, .firstFlash ∈ m.format ∧
      m.blkdev = cfg.data.blkdev ∧ b.outcome (.mkfs false m.path m.blkdev) = true) ∨
    (b.dataFails cfg = true ∧ b.outcome (.mkfs true cfg.data.path cfg.data.blkdev) = true)

/-- The root file system is to be mounted for writing. -/
def RwMount : Prop :=
  b.dataMounted cfg = true ∧ b.media cfg.data.blkdev ".rw-mount" = true ∧ ¬ b.DataErased cfg

instance : Decidable (b.FlashFormats cfg dev) := inferInstanceAs (Decidable (_ ∧ _))
instance : Decidable (b.DataErased cfg) := inferInstanceAs (Decidable (_ ∨ _))
instance : Decidable (b.RwMount cfg) := inferInstanceAs (Decidable (_ ∧ _))

/-- One of the mounts of the root device fails that are not for a mount point. -/
def RootFails : Prop :=
  b.outcome (.mountLower false cfg.root.blkdev) = false ∨
    if b.RwMount cfg then b.outcome (.mountNewroot cfg.root.blkdev) = false
    else b.outcome (.mountLower true cfg.root.blkdev) = false

/-- One of the mounts of the device fails. -/
def DeviceFails : Prop :=
  (b.RootFails cfg ∧ cfg.root.blkdev = dev) ∨ (b.dataFails cfg = true ∧ cfg.data.blkdev = dev) ∨
    ∃ m ∈ cfg.mountPoints, m.path ≠ "/" ∧ b.outcome (.mountPoint m.path m.blkdev) = false ∧
      m.blkdev = dev

/-- The partition that holds the network directory of the new root, and its mount point: the
last one mounted at or above the directory. -/
def networkMount : Option (Path × Path) :=
  ((cfg.mountPoints.filter fun m => m.path ≠ "/" ∧ HoldsNetwork m.path ∧
      b.outcome (.mountPoint m.path m.blkdev) = true).getLast?.map fun m => (m.blkdev, m.path)).or
    (if b.RwMount cfg ∧ b.outcome (.mountNewroot cfg.root.blkdev) = true
      then some (cfg.root.blkdev, "/") else none)

/-- The link that `config_network` replaces, if it is on a partition. -/
def networkLink : Option (Path × Name) := (b.networkMount cfg).map fun p => (p.1, wiredNetwork p.2)

/-- `config_network` makes a new link. -/
def Relinks : Prop := b.networkStatic = false ∧ b.outcome .lnWired = true

instance : Decidable b.Relinks := inferInstanceAs (Decidable (_ ∧ _))

end Startup

/-- When a boot formats what it should, and keeps the rest. -/
structure SafeStartup (cfg : BootConfig) (b : Startup) : Prop where
  /-- Mount points on one device agree about the first flash. -/
  agree : ∀ m ∈ cfg.mountPoints, b.FlashFormats cfg m.blkdev →
    .firstFlash ∈ m.format ∨ (b.DeviceFails cfg m.blkdev ∧ .mountError ∈ m.format)
  /-- When the data partition cannot be mounted, it was to be formatted. -/
  data : b.dataFails cfg = true → ∀ m ∈ cfg.mountPoints, m.blkdev = cfg.data.blkdev →
    .mountError ∈ m.format ∨ (b.markerFound cfg = true ∧ .firstFlash ∈ m.format)
  /-- Another partition can be mounted, or is not to be formatted for that. -/
  others : ∀ m ∈ cfg.mountPoints, .mountError ∈ m.format → b.DeviceFails cfg m.blkdev →
    b.FlashFormats cfg m.blkdev ∨ (b.dataFails cfg = true ∧ m.blkdev = cfg.data.blkdev)
  /-- `/data` can be unmounted, or there is nothing on it. -/
  umount : b.dataFails cfg = false → b.outcome .umountData = false →
    ¬ b.FlashFormats cfg cfg.data.blkdev → ∀ f, b.media cfg.data.blkdev f = true →
      (cfg.data.blkdev = cfg.root.blkdev ∧ f = firstFlashMarker) ∨
        (b.networkLink cfg = some (cfg.data.blkdev, f) ∧ b.Relinks)
  /-- The network link is made again after it is removed. -/
  link : ∀ d f, b.networkLink cfg = some (d, f) → b.media d f = true →
    ¬ b.FlashFormats cfg d → ¬ (b.dataFails cfg = true ∧ d = cfg.data.blkdev) →
      b.outcome .rmWired = true → b.Relinks

section Format

variable {cfg : BootConfig} {b : Startup} {o : BootCmd → Bool} {c : BootCmd} {cs : List BootCmd}
  {s : Machine} {dev d : Path} {f : Name}

/-! ## Lists of commands -/

theorem foldl_data (h : ∀ c ∈ cs, c.movesData = false) :
    (cs.foldl (fun s c => c.exec cfg o s) s).data = s.data :=
  foldl_invariant (P := fun t : Machine => t.data = s.data)
    (fun c hc _ ht => (BootCmd.exec_data (h c hc)).trans ht) rfl

theorem foldl_network (h : ∀ c ∈ cs, c.movesRoot = false) :
    (cs.foldl (fun s c => c.exec cfg o s) s).network = s.network :=
  foldl_invariant (P := fun t : Machine => t.network = s.network)
    (fun c hc _ ht => (BootCmd.exec_network (h c hc)).trans ht) rfl

theorem foldl_surroundings : (cs.foldl (fun s c => c.exec cfg o s) s).ready = s.ready ∧
    (cs.foldl (fun s c => c.exec cfg o s) s).networkStatic = s.networkStatic :=
  foldl_invariant (P := fun t : Machine => t.ready = s.ready ∧ t.networkStatic = s.networkStatic)
    (fun _ _ _ ht => ⟨BootCmd.exec_surroundings.1.trans ht.1, BootCmd.exec_surroundings.2.trans ht.2⟩)
    ⟨rfl, rfl⟩

/-- Of a partition that is not the marker's, only formatting takes files away. -/
theorem foldl_files (h : ∀ c ∈ cs, c.removes = false)
    (hf : ¬ (d = cfg.root.blkdev ∧ f = firstFlashMarker)) :
    (cs.foldl (fun s c => c.exec cfg o s) s).files d f =
      (s.files d f && !(cs.any fun c => c.formats == some d && o c)) := by
  induction cs generalizing s with
  | nil => simp
  | cons c cs ih =>
    rw [List.foldl_cons, ih fun c hc => h c (by simp [hc]),
      BootCmd.exec_files (h c (by simp)) hf, List.any_cons, Bool.not_or, Bool.and_assoc]

/-! ## The commands of a boot -/

namespace Startup

/-- The commands before the root file system is mounted anew. -/
def before (cfg : BootConfig) (b : Startup) : List BootCmd :=
  cfg.beforeTest b.ready ++
    (if b.markerFound cfg then BootConfig.unmark ++ cfg.flash else [.umountLower]) ++
    (.mountData false cfg.data.blkdev :: if b.dataFails cfg then cfg.formatData else [])

/-- The mount of the root file system. -/
def mountRoot (cfg : BootConfig) (b : Startup) : List BootCmd :=
  if b.RwMount cfg then [.echo, .mountNewroot cfg.root.blkdev]
  else [.echo, .mountLower true cfg.root.blkdev, .mountOverlay]

/-- The choice of a network mode. -/
def chooseMode (b : Startup) : List BootCmd :=
  if b.networkStatic then [.echo, .configNetworkStatic] else [.echo, .lnWired]

end Startup

/-- The command only changes `$?`. -/
def BootCmd.idle : BootCmd → Bool
  | .echo | .sleep | .mkdir _ | .chown _ | .mountVirtual _ _ => true
  | _ => false

theorem exec_idle (h : c.idle = true) : c.exec cfg o s = { s with status := o c } := by
  refine BootCmd.exec_cases (P := fun t => t = { s with status := o c }) rfl ?_ ?_
  · cases c with
    | echo | sleep | mkdir | chown | mountVirtual => rfl
    | _ => simp [BootCmd.idle] at h
  · rintro rfl
    simp [BootCmd.idle] at h

theorem foldl_idle (h : ∀ c ∈ cs, c.idle = true) :
    ∃ t, cs.foldl (fun s c => c.exec cfg o s) s = { s with status := t } := by
  refine foldl_invariant (P := fun x : Machine => ∃ t, x = { s with status := t }) ?_ ⟨s.status, rfl⟩
  rintro c hc _ ⟨t, rfl⟩
  exact ⟨o c, exec_idle (h c hc)⟩

/-- The machine at the test for the marker. -/
theorem foldl_beforeTest (cfg : BootConfig) (b : Startup) :
    ∃ t, (cfg.beforeTest b.ready).foldl (fun s c => c.exec cfg b.outcome s) (b.start cfg) =
      { b.start cfg with lower := b.outcome (.mountLower false cfg.root.blkdev), status := t } := by
  have idle : (BootConfig.setUp ++ if b.ready then [] else [BootCmd.sleep]).all BootCmd.idle = true := by
    cases b.ready <;> rfl
  obtain ⟨t, ht⟩ := foldl_idle (s := b.start cfg) (o := b.outcome) (List.all_eq_true.mp idle)
  refine ⟨b.outcome (.mountLower false cfg.root.blkdev), ?_⟩
  rw [BootConfig.beforeTest, List.foldl_append, ht, List.foldl_cons, List.foldl_nil]
  rw [BootCmd.exec_of_ne (by simp)]
  split_ifs with ho <;> simp [ho, BootCmd.effect, Startup.start, BootConfig.powerOn]

/-- The command prepares a device on the first flash. -/
def BootCmd.prepares : BootCmd → Bool
  | .echo | .sfdisk _ _ | .sfdiskDump _ | .linenum _ | .sedSize | .sedFirstLba | .sedLastLba
  | .sfdiskExpand _ _ | .e2fsck _ | .resize2fs _ | .mkfs _ _ _ => true
  | _ => false

theorem prepares_of_mem_flash (hc : c ∈ cfg.flash) : c.prepares = true := by
  simp only [BootConfig.flash, List.mem_append, List.mem_flatMap] at hc
  rcases hc with (⟨b, -, hc⟩ | hc) | ⟨m, -, hc⟩
  · have : (BootConfig.prepareDevice b).all BootCmd.prepares = true := by
      rcases b with ⟨name, _ | f, _ | part⟩ <;> rfl
    exact List.all_eq_true.mp this c hc
  · have : [.echo, .e2fsck cfg.root.blkdev, .resize2fs cfg.root.blkdev,
        .e2fsck cfg.root.blkdev].all BootCmd.prepares = true := rfl
    exact List.all_eq_true.mp this c hc
  · have : (BootConfig.formatFirst m).all BootCmd.prepares = true := by
      unfold BootConfig.formatFirst
      split_ifs <;> rfl
    exact List.all_eq_true.mp this c hc

/-! ## Up to the mount of the root file system -/

/-- Where the commands up to there come from. -/
theorem mem_before (hc : c ∈ b.before cfg) : c ∈ cfg.beforeTest b.ready ∨ c ∈ BootConfig.unmark ∨
    c.prepares = true ∨ c = .umountLower ∨ c = .mountData false cfg.data.blkdev ∨
      c ∈ cfg.formatData := by
  simp only [Startup.before, List.mem_append, List.mem_cons] at hc
  rcases hc with (hc | hc) | rfl | hc
  · exact .inl hc
  · split_ifs at hc
    · rcases List.mem_append.mp hc with hc | hc
      · exact .inr (.inl hc)
      · exact .inr (.inr (.inl (prepares_of_mem_flash hc)))
    · exact .inr (.inr (.inr (.inl (List.mem_singleton.mp hc))))
  · simp
  · split_ifs at hc
    · simp [hc]
    · simp at hc

/-- None of them removes files without formatting, or mounts something into the new root. -/
theorem calm_of_mem_before (hc : c ∈ b.before cfg) : c.removes = false ∧ c.movesRoot = false := by
  have calm : ∀ cs : List BootCmd, (cs.all fun c => !c.removes && !c.movesRoot) = true → c ∈ cs →
      c.removes = false ∧ c.movesRoot = false := by
    intro cs h hc
    simpa using List.all_eq_true.mp h c hc
  rcases mem_before hc with hc | hc | hc | rfl | rfl | hc
  · exact calm _ (by cases b.ready <;> rfl) hc
  · exact calm _ rfl hc
  · cases c <;> first | exact ⟨rfl, rfl⟩ | simp [BootCmd.prepares] at hc
  · exact ⟨rfl, rfl⟩
  · exact ⟨rfl, rfl⟩
  · exact calm _ (by unfold BootConfig.formatData; split_ifs <;> rfl) hc

/-- `/data` is mounted then, if it ever was. -/
theorem data_before : ((b.before cfg).foldl (fun s c => c.exec cfg b.outcome s) (b.start cfg)).data =
    b.dataMounted cfg := by
  have still : ∀ c ∈ cfg.beforeTest b.ready ++
      (if b.markerFound cfg then BootConfig.unmark ++ cfg.flash else [.umountLower]),
      c.movesData = false := by
    intro c hc
    have unmoved : ∀ cs : List BootCmd, (cs.all fun c => !c.movesData) = true → c ∈ cs →
        c.movesData = false := by
      intro cs h hc
      simpa using List.all_eq_true.mp h c hc
    rcases List.mem_append.mp hc with hc | hc
    · exact unmoved _ (by cases b.ready <;> rfl) hc
    · split_ifs at hc
      · rcases List.mem_append.mp hc with hc | hc
        · exact unmoved _ rfl hc
        · have hp := prepares_of_mem_flash hc
          cases c <;> first | rfl | simp [BootCmd.prepares] at hp
      · exact unmoved _ rfl hc
  rw [Startup.before, List.foldl_append, List.foldl_cons, Startup.dataMounted]
  cases hfails : b.dataFails cfg with
  | false =>
    have ho : b.outcome (.mountData false cfg.data.blkdev) = true := by
      simpa [Startup.dataFails] using hfails
    simp only [Bool.false_eq_true, if_false, List.foldl_nil, BootCmd.exec_mountData, ho]
    rfl
  | true =>
    have ho : b.outcome (.mountData false cfg.data.blkdev) = false := by
      simpa [Startup.dataFails] using hfails
    have chown : ∀ c ∈ (if cfg.data.chown then [BootCmd.chown "/data"] else []),
        c.movesData = false := by
      intro c hc
      split_ifs at hc <;> simp at hc
      rw [hc]
      rfl
    simp only [if_true, BootConfig.formatData, List.foldl_append, foldl_data chown, List.foldl_cons,
      List.foldl_nil]
    rw [BootCmd.exec_mountData, BootCmd.exec_data rfl, BootCmd.exec_data rfl, BootCmd.exec_data rfl,
      BootCmd.exec_mountData, ho, ← List.foldl_append, foldl_data still]
    simp [Startup.start, BootConfig.powerOn]

/-- The `mkfs` commands among them. -/
theorem filter_formats_before : (b.before cfg).filter (fun c => c.formats.isSome) =
    (if b.markerFound cfg then (cfg.mountPoints.filter fun m => .firstFlash ∈ m.format).map fun m =>
      .mkfs false m.path m.blkdev else []) ++
    if b.dataFails cfg then [.mkfs true cfg.data.path cfg.data.blkdev] else [] := by
  have tests : (cfg.beforeTest b.ready).filter (fun c => c.formats.isSome) = [] := by
    cases b.ready <;> rfl
  have devices : (cfg.blockDevices.flatMap BootConfig.prepareDevice).filter
      (fun c => c.formats.isSome) = [] := by
    rw [List.filter_flatMap, List.flatMap_eq_nil_iff]
    rintro ⟨name, _ | f, _ | part⟩ - <;> rfl
  have mounts : ∀ ms : List MountPoint, (ms.flatMap BootConfig.formatFirst).filter
      (fun c => c.formats.isSome) =
        (ms.filter fun m => .firstFlash ∈ m.format).map fun m => .mkfs false m.path m.blkdev := by
    intro ms
    induction ms with
    | nil => rfl
    | cons m ms ih =>
      rw [List.flatMap_cons, List.filter_append, ih]
      by_cases hm : FormatOption.firstFlash ∈ m.format
      · simp [BootConfig.formatFirst, hm, BootCmd.formats]
      · simp [BootConfig.formatFirst, hm]
  have data : cfg.formatData.filter (fun c => c.formats.isSome) =
      [.mkfs true cfg.data.path cfg.data.blkdev] := by
    unfold BootConfig.formatData
    split_ifs <;> rfl
  simp only [Startup.before, List.filter_append, tests, List.nil_append]
  congr 1
  · split_ifs
    · rw [List.filter_append, BootConfig.flash, List.filter_append, List.filter_append, devices, mounts]
      rfl
    · rfl
  · rw [List.filter_cons_of_neg (by simp [BootCmd.formats])]
    split_ifs
    · exact data
    · rfl

/-- What has been formatted by then. -/
theorem any_before : ((b.before cfg).any fun c => c.formats == some d && b.outcome c) = true ↔
    (b.markerFound cfg = true ∧ ∃ m ∈ cfg.mountPoints, .firstFlash ∈ m.format ∧ m.blkdev = d ∧
      b.outcome (.mkfs false m.path m.blkdev) = true) ∨
    (b.dataFails cfg = true ∧ cfg.data.blkdev = d ∧
      b.outcome (.mkfs true cfg.data.path cfg.data.blkdev) = true) := by
  have only : ((b.before cfg).any fun c => c.formats == some d && b.outcome c) =
      ((b.before cfg).filter fun c => c.formats.isSome).any fun c =>
        c.formats == some d && b.outcome c := by
    rw [List.any_filter]
    congr 1
    funext c
    cases c.formats <;> simp
  rw [only, filter_formats_before, List.any_append, Bool.or_eq_true]
  refine or_congr ?_ ?_
  · split_ifs with hm <;> simp [hm, BootCmd.formats]
  · split_ifs with hd <;> simp [hd, BootCmd.formats]

/-! ## The whole boot -/

theorem holds_firstFlash : BootTest.holds cfg .firstFlash
    ((cfg.beforeTest b.ready).foldl (fun s c => c.exec cfg b.outcome s) (b.start cfg)) =
      b.markerFound cfg := by
  obtain ⟨t, ht⟩ := foldl_beforeTest cfg b
  rw [ht]
  rfl

theorem holds_failed : BootTest.holds cfg .failed
    ((cs ++ [BootCmd.mountData false cfg.data.blkdev]).foldl (fun s c => c.exec cfg b.outcome s) s) =
      b.dataFails cfg := by
  rw [List.foldl_append, List.foldl_cons, List.foldl_nil, BootTest.holds]
  exact congrArg _ BootCmd.exec_status

theorem holds_rwMount : BootTest.holds cfg .rwMount
    ((b.before cfg).foldl (fun s c => c.exec cfg b.outcome s) (b.start cfg)) =
      decide (b.RwMount cfg) := by
  have hf : ¬ (cfg.data.blkdev = cfg.root.blkdev ∧ ".rw-mount" = firstFlashMarker) :=
    fun h => absurd h.2 (by decide)
  rw [BootTest.holds, data_before, foldl_files (fun c hc => (calm_of_mem_before hc).1) hf,
    Bool.eq_iff_iff, Bool.and_eq_true, Bool.and_eq_true, Bool.not_eq_true', ← Bool.not_eq_true,
    any_before, decide_eq_true_iff, Startup.RwMount, Startup.DataErased]
  simp only [true_and]
  rfl

/-- The commands of a boot, in order. -/
theorem trace_eq : b.trace cfg = b.before cfg ++ b.mountRoot cfg ++ cfg.fillRoot ++ b.chooseMode ++
    [.cd "/mnt/newroot", .switchRoot] := by
  have tests : Script.Resumes (BootCmd.exec cfg b.outcome) (BootTest.holds cfg) cfg.bootinit
      (b.start cfg) (cfg.beforeTest b.ready) cfg.checkFirstFlash := by
    have hready : BootTest.holds cfg .noRootDevice (([] ++ BootConfig.setUp).foldl
        (fun s (c : BootCmd) => c.exec cfg b.outcome s) (b.start cfg)) = !b.ready := by
      rw [BootTest.holds, foldl_surroundings.1]
      rfl
    have start : Script.Resumes (BootCmd.exec cfg b.outcome) (BootTest.holds cfg) cfg.bootinit
        (b.start cfg) [] cfg.bootinit := .start
    cases hb : b.ready with
    | true =>
      rw [hb] at hready
      exact (start.cmds.cond_of_false hready rfl).cmds
    | false =>
      rw [hb] at hready
      exact (start.cmds.cond_of_true hready Script.trace_cmds_done).cmds
  have flash := tests.cond (p := b.markerFound cfg = true) (by simp [holds_firstFlash])
    Script.trace_cmds_done Script.trace_cmds_done
  have data := (flash.cmds).cond (p := b.dataFails cfg = true)
    (by rw [holds_failed, Bool.decide_eq_true]) Script.trace_cmds_done Script.trace_done
  have before := data
  rw [List.append_assoc _ _ (if b.dataFails cfg = true then _ else _)] at before
  have root := before.cond (p := b.RwMount cfg) holds_rwMount Script.trace_cmds_done
    Script.trace_cmds_done
  have mode := (root.cmds).cond (p := b.networkStatic = true)
    (by rw [BootTest.holds, foldl_surroundings.2]; simp [Startup.start, BootConfig.powerOn])
    Script.trace_cmds_done Script.trace_cmds_done
  exact mode.cmds.done

/-- The commands of a kind, after the mount of the root file system. -/
theorem filter_trace (p : BootCmd → Bool) : (b.trace cfg).filter p = (b.before cfg).filter p ++
    (b.mountRoot cfg).filter p ++ cfg.fillRoot.filter p ++ b.chooseMode.filter p ++
      [.cd "/mnt/newroot", .switchRoot].filter p := by
  rw [trace_eq, List.filter_append, List.filter_append, List.filter_append, List.filter_append]

/-- Which devices a boot formats. -/
theorem formats_iff : b.Formats cfg dev ↔
    b.FlashFormats cfg dev ∨ (b.dataFails cfg = true ∧ cfg.data.blkdev = dev) := by
  have fill : cfg.fillRoot.filter (fun c => c.formats.isSome) = [] := by
    have below : (cfg.mountPoints.flatMap BootConfig.mountBelow).filter
        (fun c => c.formats.isSome) = [] := by
      rw [List.filter_flatMap, List.flatMap_eq_nil_iff]
      intro m _
      unfold BootConfig.mountBelow
      split_ifs <;> rfl
    rw [BootConfig.fillRoot, List.filter_append, List.filter_append, below]
    rfl
  have root : (b.mountRoot cfg).filter (fun c => c.formats.isSome) = [] := by
    unfold Startup.mountRoot
    split_ifs <;> rfl
  have mode : b.chooseMode.filter (fun c => c.formats.isSome) = [] := by
    unfold Startup.chooseMode
    split_ifs <;> rfl
  have only : b.Formats cfg dev ↔
      ∃ c ∈ (b.trace cfg).filter fun c => c.formats.isSome, c.formats = some dev := by
    simp only [Startup.Formats, List.mem_filter, and_assoc]
    refine exists_congr fun c => and_congr_right fun _ => ?_
    cases c.formats <;> simp
  rw [only, filter_trace, filter_formats_before, root, fill, mode]
  simp only [List.append_nil, List.filter_cons, List.filter_nil, BootCmd.formats, Option.isSome_none,
    Bool.false_eq_true, if_false, List.mem_append, or_and_right, exists_or]
  refine or_congr ?_ ?_
  · split_ifs with hm <;> simp [hm, Startup.FlashFormats, and_assoc]
  · split_ifs with hd <;> simp [hd]

/-- The mounts of a boot. -/
theorem filter_mounts : (b.trace cfg).filter (fun c => c.mounts.isSome) =
    .mountLower false cfg.root.blkdev :: .mountData false cfg.data.blkdev ::
      (if b.dataFails cfg then [.mountData true cfg.data.blkdev] else []) ++
      (if b.RwMount cfg then [.mountNewroot cfg.root.blkdev] else [.mountLower true cfg.root.blkdev]) ++
      (cfg.mountPoints.filter fun m => m.path ≠ "/").map fun m => .mountPoint m.path m.blkdev := by
  have tests : (cfg.beforeTest b.ready).filter (fun c => c.mounts.isSome) =
      [.mountLower false cfg.root.blkdev] := by
    cases b.ready <;> rfl
  have flash : (if b.markerFound cfg then BootConfig.unmark ++ cfg.flash else [.umountLower]).filter
      (fun c => c.mounts.isSome) = [] := by
    split_ifs
    · have prepare : cfg.flash.filter (fun c => c.mounts.isSome) = [] := by
        refine List.filter_eq_nil_iff.mpr fun c hc => ?_
        have hp := prepares_of_mem_flash hc
        cases c <;> first | exact Bool.false_ne_true | simp [BootCmd.prepares] at hp
      rw [List.filter_append, prepare]
      rfl
    · rfl
  have data : (if b.dataFails cfg then cfg.formatData else []).filter (fun c => c.mounts.isSome) =
      if b.dataFails cfg then [.mountData true cfg.data.blkdev] else [] := by
    unfold BootConfig.formatData
    split_ifs <;> rfl
  have root : (b.mountRoot cfg).filter (fun c => c.mounts.isSome) =
      if b.RwMount cfg then [.mountNewroot cfg.root.blkdev]
        else [.mountLower true cfg.root.blkdev] := by
    unfold Startup.mountRoot
    split_ifs <;> rfl
  have below : ∀ ms : List MountPoint, (ms.flatMap BootConfig.mountBelow).filter
      (fun c => c.mounts.isSome) =
        (ms.filter fun m => m.path ≠ "/").map fun m => .mountPoint m.path m.blkdev := by
    intro ms
    induction ms with
    | nil => rfl
    | cons m ms ih =>
      rw [List.flatMap_cons, List.filter_append, ih]
      by_cases hm : m.path = "/"
      · simp [BootConfig.mountBelow, hm]
      · by_cases hc : m.chown = true <;> simp [BootConfig.mountBelow, hm, hc, BootCmd.mounts]
  have mode : b.chooseMode.filter (fun c => c.mounts.isSome) = [] := by
    unfold Startup.chooseMode
    split_ifs <;> rfl
  rw [filter_trace, root, mode, Startup.before, List.filter_append, List.filter_append, tests, flash,
    List.filter_cons_of_pos rfl, data, BootConfig.fillRoot, List.filter_append, List.filter_append,
    below]
  simp [BootCmd.mounts]

/-- Which mounts fail. -/
theorem mountFailed_iff : b.MountFailed cfg dev ↔ b.DeviceFails cfg dev := by
  have only : b.MountFailed cfg dev ↔ ∃ c ∈ (b.trace cfg).filter fun c => c.mounts.isSome,
      c.mounts = some dev ∧ b.outcome c = false := by
    simp only [Startup.MountFailed, List.mem_filter, and_assoc]
    refine exists_congr fun c => and_congr_right fun _ => ?_
    cases c.mounts <;> simp
  have root : (∃ c ∈ (if b.RwMount cfg then [BootCmd.mountNewroot cfg.root.blkdev]
        else [.mountLower true cfg.root.blkdev]), c.mounts = some dev ∧ b.outcome c = false) ↔
      (if b.RwMount cfg then b.outcome (.mountNewroot cfg.root.blkdev) = false
        else b.outcome (.mountLower true cfg.root.blkdev) = false) ∧ cfg.root.blkdev = dev := by
    split_ifs <;> simp [BootCmd.mounts, and_comm]
  have data : (∃ c ∈ (if b.dataFails cfg then [BootCmd.mountData true cfg.data.blkdev] else []),
        c.mounts = some dev ∧ b.outcome c = false) →
      b.dataFails cfg = true ∧ cfg.data.blkdev = dev := by
    rintro ⟨c, hc, hdev, -⟩
    split_ifs at hc with hd
    · obtain rfl := List.mem_singleton.mp hc
      exact ⟨hd, by simpa [BootCmd.mounts] using hdev⟩
    · simp at hc
  have fails : b.outcome (.mountData false cfg.data.blkdev) = false ↔ b.dataFails cfg = true := by
    simp [Startup.dataFails]
  have points : (∃ c ∈ (cfg.mountPoints.filter fun m => m.path ≠ "/").map fun m =>
        BootCmd.mountPoint m.path m.blkdev, c.mounts = some dev ∧ b.outcome c = false) ↔
      ∃ m ∈ cfg.mountPoints, m.path ≠ "/" ∧ b.outcome (.mountPoint m.path m.blkdev) = false ∧
        m.blkdev = dev := by
    simp only [List.mem_map, List.mem_filter, decide_eq_true_eq]
    constructor
    · rintro ⟨c, ⟨m, ⟨hm, hpath⟩, rfl⟩, hdev, ho⟩
      exact ⟨m, hm, hpath, ho, Option.some.inj hdev⟩
    · rintro ⟨m, hm, hpath, ho, rfl⟩
      exact ⟨_, ⟨m, ⟨hm, hpath⟩, rfl⟩, rfl, ho⟩
  have lower : (BootCmd.mountLower false cfg.root.blkdev).mounts = some cfg.root.blkdev := rfl
  have first : (BootCmd.mountData false cfg.data.blkdev).mounts = some cfg.data.blkdev := rfl
  rw [only, filter_mounts]
  simp only [List.cons_append, List.mem_cons, List.mem_append, or_and_right, exists_or,
    exists_eq_left, root, points, lower, first, Option.some.injEq, fails]
  rw [Startup.DeviceFails, Startup.RootFails]
  constructor
  · rintro (⟨hdev, hl⟩ | ⟨hdev, hd⟩ | (h | ⟨hr, hdev⟩) | h)
    · exact .inl ⟨.inl hl, hdev⟩
    · exact .inr (.inl ⟨hd, hdev⟩)
    · exact .inr (.inl (data h))
    · exact .inl ⟨.inr hr, hdev⟩
    · exact .inr (.inr h)
  · rintro (⟨hl | hr, hdev⟩ | ⟨hd, hdev⟩ | h)
    · exact .inl ⟨hdev, hl⟩
    · exact .inr (.inr (.inl (.inr ⟨hr, hdev⟩)))
    · exact .inr (.inl ⟨hdev, hd⟩)
    · exact .inr (.inr (.inr h))

/-! ## The files that are left -/

/-- The last mount that holds the network directory counts. -/
theorem foldl_mountBelow (cfg : BootConfig) (ms : List MountPoint) :
    ((ms.flatMap BootConfig.mountBelow).foldl (fun s c => c.exec cfg o s) s).network =
      ((ms.filter fun m => m.path ≠ "/" ∧ HoldsNetwork m.path ∧
        o (.mountPoint m.path m.blkdev) = true).getLast?.map fun m => (m.blkdev, m.path)).or
          s.network := by
  induction ms generalizing s with
  | nil => rfl
  | cons m ms ih =>
    have one : ((BootConfig.mountBelow m).foldl (fun s c => c.exec cfg o s) s).network =
        if m.path ≠ "/" ∧ HoldsNetwork m.path ∧ o (.mountPoint m.path m.blkdev) = true
          then some (m.blkdev, m.path) else s.network := by
      have chown : ∀ c ∈ (if m.chown then [BootCmd.chown m.path] else []), c.movesRoot = false := by
        intro c hc
        split_ifs at hc
        · rw [List.mem_singleton.mp hc]
          rfl
        · simp at hc
      by_cases hm : m.path = "/"
      · simp [BootConfig.mountBelow, hm]
      · simp only [BootConfig.mountBelow, hm, if_false, List.foldl_append, foldl_network chown,
          List.foldl_cons, List.foldl_nil, ne_eq, not_false_eq_true, true_and,
          BootCmd.exec_mountPoint]
        rw [BootCmd.exec_network rfl, BootCmd.exec_network rfl]
    rw [List.flatMap_cons, List.foldl_append, ih, one, List.filter_cons]
    by_cases hm : m.path ≠ "/" ∧ HoldsNetwork m.path ∧ o (.mountPoint m.path m.blkdev) = true
    · rw [if_pos hm, if_pos (by simpa using hm), List.getLast?_cons]
      cases (ms.filter fun m => m.path ≠ "/" ∧ HoldsNetwork m.path ∧
        o (.mountPoint m.path m.blkdev) = true).getLast? <;> rfl
    · rw [if_neg hm, if_neg (by simpa using hm)]

theorem foldl_of_not_writes (h : (cs.all fun c => !c.writes) = true) :
    (cs.foldl (fun s c => c.exec cfg o s) s).files = s.files := by
  refine foldl_invariant (P := fun t : Machine => t.files = s.files) ?_ rfl
  intro c hc t ht
  have hw : c.writes = false := by simpa using List.all_eq_true.mp h c hc
  rw [(BootCmd.exec_of_not_writes hw).1, ht]

/-- The machine once the root file system is mounted. -/
theorem mounted_root (hd : ¬ b.Formats cfg d) (hf : ¬ (d = cfg.root.blkdev ∧ f = firstFlashMarker)) :
    ((b.before cfg ++ b.mountRoot cfg).foldl (fun s c => c.exec cfg b.outcome s)
      (b.start cfg)).files d f = b.media d f ∧
    ((b.before cfg ++ b.mountRoot cfg).foldl (fun s c => c.exec cfg b.outcome s)
      (b.start cfg)).data = b.dataMounted cfg ∧
    ((b.before cfg ++ b.mountRoot cfg).foldl (fun s c => c.exec cfg b.outcome s)
      (b.start cfg)).network =
        if b.RwMount cfg ∧ b.outcome (.mountNewroot cfg.root.blkdev) = true
          then some (cfg.root.blkdev, "/") else none := by
  have unformatted : ((b.before cfg).any fun c => c.formats == some d && b.outcome c) = false := by
    refine List.any_eq_false.mpr fun c hc hdev => hd ⟨c, ?_, by simpa using (by simpa using hdev : _ ∧ _).1⟩
    simp [trace_eq, hc]
  rw [List.foldl_append]
  refine ⟨?_, ?_, ?_⟩
  · have still : ((b.mountRoot cfg).all fun c => !c.writes) = true := by
      unfold Startup.mountRoot
      split_ifs <;> rfl
    rw [foldl_of_not_writes still, foldl_files (fun c hc => (calm_of_mem_before hc).1) hf,
      unformatted, Bool.not_false, Bool.and_true]
    rfl
  · have still : ∀ c ∈ b.mountRoot cfg, c.movesData = false := by
      have : ((b.mountRoot cfg).all fun c => !c.movesData) = true := by
        unfold Startup.mountRoot
        split_ifs <;> rfl
      intro c hc
      simpa using List.all_eq_true.mp this c hc
    rw [foldl_data still, data_before]
  · have empty : ((b.before cfg).foldl (fun s c => c.exec cfg b.outcome s) (b.start cfg)).network =
        none := by
      rw [foldl_network fun c hc => (calm_of_mem_before hc).2]
      rfl
    unfold Startup.mountRoot
    by_cases hrw : b.RwMount cfg
    · simp only [hrw, if_true, true_and, List.foldl_cons, List.foldl_nil]
      rw [BootCmd.exec_mountNewroot, BootCmd.exec_network rfl, empty]
    · simp only [hrw, if_false, false_and]
      rw [foldl_network (by simp [BootCmd.movesRoot]), empty]

theorem writes_mountBelow :
    ((cfg.mountPoints.flatMap BootConfig.mountBelow).all fun c => !c.writes) = true := by
  refine List.all_eq_true.mpr fun c hc => ?_
  obtain ⟨m, -, hc⟩ := List.mem_flatMap.mp hc
  have : ((BootConfig.mountBelow m).all fun c => !c.writes) = true := by
    unfold BootConfig.mountBelow
    split_ifs <;> rfl
  exact List.all_eq_true.mp this c hc

/-- The machine once the new root is filled. -/
theorem filled_root (cfg : BootConfig) :
    (cfg.fillRoot.foldl (fun s c => c.exec cfg o s) s).network =
      ((cfg.mountPoints.filter fun m => m.path ≠ "/" ∧ HoldsNetwork m.path ∧
        o (.mountPoint m.path m.blkdev) = true).getLast?.map fun m => (m.blkdev, m.path)).or
          s.network ∧
    (cfg.fillRoot.foldl (fun s c => c.exec cfg o s) s).files d f =
      if (cfg.fillRoot.foldl (fun s c => c.exec cfg o s) s).network.map
          (fun p => (p.1, wiredNetwork p.2)) = some (d, f) ∧ o .rmWired = true then false
      else s.files d f && !(s.data && !o .umountData && d == cfg.data.blkdev) := by
  have split : cfg.fillRoot = .umountData :: .rmData ::
      cfg.mountPoints.flatMap BootConfig.mountBelow ++
        [.cd "/mnt/newroot", .echo, .echo, .cd "etc/systemd/network"] ++ [.rmWired] := by
    simp [BootConfig.fillRoot]
  have network := foldl_mountBelow cfg (o := o)
    (s := BootCmd.rmData.exec cfg o (BootCmd.umountData.exec cfg o s)) cfg.mountPoints
  rw [BootCmd.exec_network rfl, BootCmd.exec_network rfl] at network
  rw [split]
  simp only [List.cons_append, List.foldl_append, List.foldl_cons, List.foldl_nil]
  refine ⟨?_, ?_⟩
  · rw [BootCmd.exec_network rfl, BootCmd.exec_network rfl, BootCmd.exec_network rfl,
      BootCmd.exec_network rfl, BootCmd.exec_network rfl]
    exact network
  · rw [BootCmd.exec_rmWired, BootCmd.exec_network (c := .rmWired) rfl,
      (BootCmd.exec_of_not_writes rfl).1, (BootCmd.exec_of_not_writes rfl).1,
      (BootCmd.exec_of_not_writes rfl).1, (BootCmd.exec_of_not_writes rfl).1,
      foldl_of_not_writes writes_mountBelow, BootCmd.exec_rmData, BootCmd.exec_umountData,
      (BootCmd.exec_of_not_writes rfl).1]

/-- What is left of a partition that is not formatted. -/
theorem leaves_eq (hd : ¬ b.Formats cfg d) (hf : ¬ (d = cfg.root.blkdev ∧ f = firstFlashMarker)) :
    b.leaves cfg d f =
      if b.networkLink cfg = some (d, f) ∧ b.Relinks then true
      else if b.networkLink cfg = some (d, f) ∧ b.outcome .rmWired = true then false
      else b.media d f && !(b.dataMounted cfg && !b.outcome .umountData && d == cfg.data.blkdev) := by
  obtain ⟨hfiles, hdata, hnetwork⟩ := mounted_root hd hf
  obtain ⟨hlink, hfill⟩ := filled_root cfg (o := b.outcome) (d := d) (f := f)
    (s := (b.before cfg ++ b.mountRoot cfg).foldl (fun s c => c.exec cfg b.outcome s) (b.start cfg))
  rw [hnetwork] at hlink
  change _ = b.networkMount cfg at hlink
  rw [hlink, hfiles, hdata] at hfill
  have run : b.leaves cfg = ((b.trace cfg).foldl (fun s c => c.exec cfg b.outcome s)
      (b.start cfg)).files := rfl
  rw [run, trace_eq, List.foldl_append, foldl_of_not_writes rfl, List.foldl_append,
    List.foldl_append]
  unfold Startup.chooseMode
  cases hs : b.networkStatic with
  | true =>
    have hno : ¬ b.Relinks := fun h => absurd (hs.symm.trans h.1) (by decide)
    simp only [if_true, hno, and_false, if_false]
    rw [foldl_of_not_writes rfl, hfill]
    rfl
  | false =>
    have hre : b.Relinks ↔ b.outcome .lnWired = true := by simp [Startup.Relinks, hs]
    simp only [Bool.false_eq_true, if_false, List.foldl_cons, List.foldl_nil, hre]
    rw [BootCmd.exec_lnWired, BootCmd.exec_network rfl, hlink, (BootCmd.exec_of_not_writes rfl).1, hfill]
    rfl

theorem not_formats_iff : ¬ b.Formats cfg d ↔
    ¬ b.FlashFormats cfg d ∧ ¬ (b.dataFails cfg = true ∧ d = cfg.data.blkdev) := by
  rw [formats_iff, not_or, eq_comm (b := d)]

/-- **When a file survives** on a partition that is not formatted. -/
theorem leaves_iff (hd : ¬ b.Formats cfg d) (hf : ¬ (d = cfg.root.blkdev ∧ f = firstFlashMarker))
    (hfile : b.media d f = true) : b.leaves cfg d f = true ↔
      (b.networkLink cfg = some (d, f) ∧ b.Relinks) ∨
        (¬ (b.networkLink cfg = some (d, f) ∧ b.outcome .rmWired = true) ∧
          ¬ (b.dataMounted cfg = true ∧ b.outcome .umountData = false ∧ d = cfg.data.blkdev)) := by
  rw [leaves_eq hd hf]
  split_ifs with hre hrm
  · exact iff_of_true rfl (.inl hre)
  · rw [or_iff_right hre]
    exact iff_of_false not_false fun h => h.1 hrm
  · rw [or_iff_right hre, and_iff_right hrm]
    simp [hfile, or_assoc, imp_iff_not_or]

/-- The network link is on the partition of a mount point, and is not the marker. -/
theorem networkLink_mem (h : b.networkLink cfg = some (d, f)) :
    (∃ m ∈ cfg.mountPoints, m.blkdev = d) ∧ f ≠ firstFlashMarker := by
  obtain ⟨⟨dev, k⟩, hmount, heq⟩ := Option.map_eq_some_iff.mp h
  obtain ⟨rfl, rfl⟩ := Prod.mk.inj heq
  refine ⟨?_, wiredNetwork_ne k⟩
  rw [Startup.networkMount, Option.or_eq_some_iff] at hmount
  rcases hmount with hpoint | ⟨-, hroot⟩
  · obtain ⟨m, hm, heq⟩ := Option.map_eq_some_iff.mp hpoint
    exact ⟨m, (List.mem_filter.mp (List.mem_of_getLast? hm)).1, (Prod.mk.inj heq).1⟩
  · split_ifs at hroot
    obtain ⟨rfl, -⟩ := Prod.mk.inj (Option.some.inj hroot)
    exact ⟨cfg.root, cfg.root_mem.1, rfl⟩

end Format

/-- **Partitions are formatted as documented, and the others keep their files, exactly if** the
boot is safe. -/
theorem userDataSafe_iff (cfg : BootConfig) (b : Startup) :
    UserDataSafe cfg b ↔ SafeStartup cfg b := by
  constructor
  · intro h
    have formats : ∀ m ∈ cfg.mountPoints,
        b.FlashFormats cfg m.blkdev ∨ (b.dataFails cfg = true ∧ cfg.data.blkdev = m.blkdev) ↔
          (b.markerFound cfg = true ∧ .firstFlash ∈ m.format) ∨
            (b.DeviceFails cfg m.blkdev ∧ .mountError ∈ m.format) := by
      intro m hm
      rw [← formats_iff, ← mountFailed_iff]
      exact h.formats m hm
    refine ⟨?_, ?_, ?_, ?_, ?_⟩
    · intro m hm hflash
      exact ((formats m hm).mp (.inl hflash)).imp_left And.right
    · intro hfails m hm hdev
      exact ((formats m hm).mp (.inr ⟨hfails, hdev.symm⟩)).symm.imp_left And.right
    · intro m hm herror hfails
      exact ((formats m hm).mpr (.inr ⟨hfails, herror⟩)).imp_right fun h => ⟨h.1, h.2.symm⟩
    · intro hok hum hflash f hfile
      have hd := not_formats_iff.mpr ⟨hflash, by simp [hok]⟩
      by_contra hno
      rw [not_or] at hno
      have hleft := h.keeps cfg.data cfg.data_mem.1 hd f hfile hno.1
      refine (((leaves_iff hd hno.1 hfile).mp hleft).resolve_left hno.2).2 ?_
      exact ⟨by simp [Startup.dataMounted, hok], hum, rfl⟩
    · intro d f hlink hfile hflash hdata hrm
      obtain ⟨⟨m, hm, rfl⟩, hf⟩ := networkLink_mem hlink
      have hd := not_formats_iff.mpr ⟨hflash, hdata⟩
      have hf' : ¬ (m.blkdev = cfg.root.blkdev ∧ f = firstFlashMarker) := fun h => hf h.2
      rcases (leaves_iff hd hf' hfile).mp (h.keeps m hm hd f hfile hf') with hre | ⟨hkept, -⟩
      · exact hre.2
      · exact absurd ⟨hlink, hrm⟩ hkept
  · intro h
    refine ⟨?_, ?_⟩
    · intro m hm
      rw [formats_iff, mountFailed_iff]
      constructor
      · rintro (hflash | ⟨hfails, hdev⟩)
        · exact (h.agree m hm hflash).imp_left fun hff => ⟨hflash.1, hff⟩
        · refine (h.data hfails m hm hdev.symm).symm.imp_right fun herror => ⟨?_, herror⟩
          exact .inr (.inl ⟨hfails, hdev⟩)
      · rintro (⟨hfound, hff⟩ | ⟨hfails, herror⟩)
        · exact .inl ⟨hfound, m, hm, hff, rfl⟩
        · exact (h.others m hm herror hfails).imp_right fun h => ⟨h.1, h.2.symm⟩
    · intro m hm hd f hfile hf
      obtain ⟨hflash, hdata⟩ := not_formats_iff.mp hd
      rw [leaves_iff hd hf hfile, or_iff_not_imp_left]
      refine fun hre => ⟨fun ⟨hlink, hrm⟩ => hre ⟨hlink, ?_⟩, fun ⟨_, hum, hdev⟩ => ?_⟩
      · exact h.link m.blkdev f hlink hfile hflash hdata hrm
      · have hok : b.dataFails cfg = false := by
          by_contra hfails
          exact hdata ⟨by simpa using hfails, hdev⟩
        rw [hdev] at hflash hfile hf hre
        exact (h.umount hok hum hflash f hfile).elim hf hre

/-- A boot of the Raspberry Pi recipe with one file on `/data`, which cannot be unmounted. -/
def busyData : Startup where
  media dev f := dev == "/dev/mmcblk0p4" && f == "notes"
  outcome c := c != .umountData

/-- The file is gone. -/
theorem not_userDataSafe_busyData : ¬ UserDataSafe rpiBoot busyData := by
  intro h
  have hd : ¬ busyData.Formats rpiBoot rpiBoot.data.blkdev := by
    rw [formats_iff]
    decide
  have hf : ¬ (rpiBoot.data.blkdev = rpiBoot.root.blkdev ∧ "notes" = firstFlashMarker) := by decide
  have hlink : ∀ p : Prop, ¬ (busyData.networkLink rpiBoot = some (rpiBoot.data.blkdev, "notes") ∧ p) := by
    rintro p ⟨hlink, -⟩
    obtain ⟨m, -, heq⟩ := Option.map_eq_some_iff.mp hlink
    have hname : wiredNetwork m.2 ≠ "notes" := by
      unfold wiredNetwork
      split <;> decide
    exact hname (Prod.mk.inj heq).2
  have hleft := h.keeps rpiBoot.data rpiBoot.data_mem.1 hd "notes" (by decide) hf
  rw [leaves_eq hd hf, if_neg (hlink _), if_neg (hlink _)] at hleft
  exact absurd hleft (by decide)

end VeRoot
