import VeRoot.Engine.Layer
import VeRoot.Unix.Path
import VeRoot.Unix.Script
import Mathlib.Data.List.Nodup
import Mathlib.Logic.Function.Basic

/-!
# The init script of the boot ramdisk

`layers/debian/bootramfs/ramdisk/bootinit.sh` is a template: its loops run over the
block devices and mount points of `config.json`.  `bootinit` is the script it
generates, with `config_network` of `bootconfig.sh` up to the link it replaces.

A command ends well or badly, and the script goes on either way.  `o c` says how
the command `c` ends.

## Main definitions

* `MountPoint`, `BlockDevice`, `BootConfig` — the part of `config.json` the template reads.
* `BootCmd`, `BootTest`, `bootinit` — the script.
* `Machine`, `BootCmd.exec` — the partitions and what is mounted.
-/

namespace VeRoot

open Unix

/-- What an entry of `format` asks for. -/
inductive FormatOption
  | firstFlash | mountError
  deriving DecidableEq, Repr

/-- An entry of `mount-points`. -/
structure MountPoint where
  /-- The key: where it is mounted. -/
  path : Path
  blkdev : Path
  /-- `format`; the empty list if there is none. -/
  format : List FormatOption := []
  /-- There is a `chown`. -/
  chown : Bool := false
  deriving DecidableEq, Repr

/-- An entry of `block-devices`. -/
structure BlockDevice where
  /-- The key. -/
  name : Path
  sffile : Option Path := none
  expand : Option Path := none
  deriving DecidableEq, Repr

/-- What the template reads of `config.json`.  It looks up the mount points `/` and
`/data`, and fails without them. -/
structure BootConfig where
  blockDevices : List BlockDevice
  mountPoints : List MountPoint
  nodup : (mountPoints.map MountPoint.path).Nodup := by decide
  root : MountPoint
  root_mem : root ∈ mountPoints ∧ root.path = "/" := by decide
  data : MountPoint
  data_mem : data ∈ mountPoints ∧ data.path = "/data" := by decide

/-- A command of the script. -/
inductive BootCmd
  | echo | sleep | sync | mkdir (d : Path) | chown (d : Path)
  /-- `mount -t fs … d`, of a file system that is on no block device. -/
  | mountVirtual (fs d : Path)
  /-- `mount -t ext4 -o ro dev /mnt/lower`; `again` for the second time. -/
  | mountLower (again : Bool) (dev : Path)
  | remountLower | rmFirstFlash | umountLower
  /-- `sfdisk dev < /partitions/…` -/
  | sfdisk (dev sffile : Path)
  /-- The commands that edit a dump of the partition table, and the one that applies it. -/
  | sfdiskDump (dev : Path) | linenum (part : Path) | sedSize | sedFirstLba | sedLastLba
  | sfdiskExpand (dev part : Path)
  | e2fsck (dev : Path) | resize2fs (dev : Path)
  /-- `yes | mkfs.ext4 dev`, for the mount point at `k`; `again` after a failed mount. -/
  | mkfs (again : Bool) (k dev : Path)
  /-- `mount -t ext4 dev /data`; `again` for the second time. -/
  | mountData (again : Bool) (dev : Path)
  /-- `mount -t ext4 -o rw dev /mnt/newroot` -/
  | mountNewroot (dev : Path)
  | mountOverlay
  | umountData
  /-- `rm -rf /data` -/
  | rmData
  /-- `mount -t ext4 … dev /mnt/newroot/k` -/
  | mountPoint (k dev : Path)
  | cd (d : Path)
  /-- `rm -f wired.network` and `ln -s wired.network.… wired.network` -/
  | rmWired | lnWired
  | configNetworkStatic
  | switchRoot
  deriving DecidableEq, Repr

/-- A test of the script. -/
inductive BootTest
  /-- The device of the root file system is not there yet. -/
  | noRootDevice
  /-- `/mnt/lower/.first-flash` exists. -/
  | firstFlash
  /-- `$? -ne 0` -/
  | failed
  /-- `/data/.rw-mount` exists. -/
  | rwMount
  /-- The mode of the network is `static`. -/
  | networkStatic
  deriving DecidableEq, Repr

/-- The partitions of the Raspberry Pi recipe. -/
def rpiBoot : BootConfig where
  blockDevices := [⟨"/dev/mmcblk0", some "partitions/mmcblk0.sfdisk", some "/dev/mmcblk0p4"⟩]
  mountPoints := [⟨"/", "/dev/mmcblk0p3", [], false⟩, ⟨"/boot", "/dev/mmcblk0p1", [], false⟩,
    ⟨"/config", "/dev/mmcblk0p2", [.firstFlash], true⟩,
    ⟨"/data", "/dev/mmcblk0p4", [.firstFlash, .mountError], true⟩]
  root := ⟨"/", "/dev/mmcblk0p3", [], false⟩
  data := ⟨"/data", "/dev/mmcblk0p4", [.firstFlash, .mountError], true⟩

/-! ## The script -/

namespace BootConfig

open BootCmd

variable (cfg : BootConfig)

/-- The commands before the first test. -/
def setUp : List BootCmd :=
  [mkdir "/proc", mkdir "/sys", mkdir "/mnt", mkdir "/data",
    mountVirtual "proc" "/proc", mountVirtual "sysfs" "/sys", mountVirtual "devtmpfs" "/dev",
    mountVirtual "tmpfs" "/mnt", echo, mkdir "/mnt/lower", mkdir "/mnt/rw",
    mountVirtual "tmpfs" "/mnt/rw", mkdir "/mnt/rw/upper", mkdir "/mnt/rw/work",
    mkdir "/mnt/newroot"]

/-- What a boot executes up to the test for the marker. -/
def beforeTest (ready : Bool) : List BootCmd :=
  setUp ++ (if ready then [] else [sleep]) ++ [mountLower false cfg.root.blkdev]

/-- What is done to one block device on the first flash. -/
def prepareDevice (b : BlockDevice) : List BootCmd :=
  echo :: (b.sffile.toList.map fun f => sfdisk b.name f) ++
    b.expand.toList.flatMap fun part =>
      [echo, sfdiskDump b.name, linenum part, sedSize, sedFirstLba, sedLastLba,
        sfdiskExpand b.name part]

/-- What is done to one mount point on the first flash. -/
def formatFirst (m : MountPoint) : List BootCmd :=
  if .firstFlash ∈ m.format then [echo, mkfs false m.path m.blkdev] else []

/-- What is done on the first flash, once the marker is gone. -/
def flash : List BootCmd :=
  cfg.blockDevices.flatMap prepareDevice ++
    [echo, e2fsck cfg.root.blkdev, resize2fs cfg.root.blkdev, e2fsck cfg.root.blkdev] ++
    cfg.mountPoints.flatMap formatFirst

/-- The commands that take the marker away. -/
def unmark : List BootCmd := [remountLower, rmFirstFlash, sync, umountLower]

/-- What is done when `/data` cannot be mounted. -/
def formatData : List BootCmd :=
  [echo, echo, mkfs true cfg.data.path cfg.data.blkdev, mountData true cfg.data.blkdev] ++
    if cfg.data.chown then [chown "/data"] else []

/-- The mount of one mount point below the new root. -/
def mountBelow (m : MountPoint) : List BootCmd :=
  if m.path = "/" then [] else
    [echo, mkdir m.path, mountPoint m.path m.blkdev] ++ if m.chown then [chown m.path] else []

/-- The commands between the mount of the new root and the choice of a network mode. -/
def fillRoot : List BootCmd :=
  [umountData, rmData] ++ cfg.mountPoints.flatMap mountBelow ++
    [cd "/mnt/newroot", echo, echo, cd "etc/systemd/network", rmWired]

/-- The part that sets up the new root. -/
def newRoot : Script BootCmd BootTest :=
  .cond .rwMount
    (.cmds [.echo, .mountNewroot cfg.root.blkdev] .done)
    (.cmds [.echo, .mountLower true cfg.root.blkdev, .mountOverlay] .done) <|
  .cmds cfg.fillRoot <|
  .cond .networkStatic (.cmds [.echo, .configNetworkStatic] .done) (.cmds [.echo, .lnWired] .done) <|
  .cmds [.cd "/mnt/newroot", .switchRoot] .done

/-- The part after the first-flash block. -/
def finish : Script BootCmd BootTest :=
  .cmds [.mountData false cfg.data.blkdev] <|
  .cond .failed (.cmds cfg.formatData .done) .done <|
  cfg.newRoot

/-- The first-flash block, and what follows it. -/
def checkFirstFlash : Script BootCmd BootTest :=
  .cond .firstFlash (.cmds (unmark ++ cfg.flash) .done) (.cmds [.umountLower] .done) <|
  cfg.finish

/-- The generated `bootinit.sh`. -/
def bootinit : Script BootCmd BootTest :=
  .cmds setUp <|
  .cond .noRootDevice (.cmds [.sleep] .done) .done <|
  .cmds [.mountLower false cfg.root.blkdev] <|
  cfg.checkFirstFlash

end BootConfig

/-! ## What the commands do -/

/-- The name of the first-flash marker. -/
def firstFlashMarker : Name := ".first-flash"

/-- The directory that `config_network` works in. -/
def networkDir : Unix.Path := ["etc".toList, "systemd".toList, "network".toList]

/-- Mounted at `k`, a partition holds `networkDir`. -/
def HoldsNetwork (k : Path) : Prop := resolve (components k.toList) <+: networkDir

instance (k : Path) : Decidable (HoldsNetwork k) :=
  inferInstanceAs (Decidable (_ <+: _))

/-- The file that `config_network` replaces, on the partition mounted at `k`. -/
def wiredNetwork (k : Path) : Name :=
  match (resolve (components k.toList)).length with
  | 0 => "etc/systemd/network/wired.network"
  | 1 => "systemd/network/wired.network"
  | 2 => "network/wired.network"
  | _ => "wired.network"

theorem wiredNetwork_ne (k : Path) : wiredNetwork k ≠ firstFlashMarker := by
  unfold wiredNetwork
  split <;> decide

/-- The machine while the script runs. -/
structure Machine where
  /-- `$?` is 0. -/
  status : Bool := true
  /-- The root file system is mounted at `/mnt/lower`. -/
  lower : Bool := false
  /-- The data partition is mounted at `/data`. -/
  data : Bool := false
  /-- The partition that holds the network directory of the new root, and where in the new
  root it is mounted; none if changes to the directory reach no partition. -/
  network : Option (Path × Path) := none
  /-- The files of the partitions. -/
  files : Path → Name → Bool
  /-- The marker is on the medium. -/
  marked : Bool
  /-- The root device is there from the beginning. -/
  ready : Bool := true
  /-- The mode of the network is `static`. -/
  networkStatic : Bool := false

namespace Machine

/-- A change to one file of one partition. -/
def setFile (s : Machine) (dev : Path) (f : Name) (b : Bool) : Machine :=
  { s with files := Function.update s.files dev (Function.update (s.files dev) f b) }

/-- All files of a partition go. -/
def wipe (s : Machine) (dev : Path) : Machine :=
  { s with files := Function.update s.files dev fun _ => false }

/-- The marker is removed from the partition mounted at `/mnt/lower`. -/
def unmark (s : Machine) (dev : Path) : Machine :=
  { s with files := if s.lower then (s.setFile dev firstFlashMarker false).files else s.files }

/-- A change to the file that `config_network` replaces. -/
def setWired (s : Machine) (b : Bool) : Machine :=
  { s with files := s.network.elim s.files fun p => (s.setFile p.1 (wiredNetwork p.2) b).files }

variable {s : Machine} {dev d : Path} {f g : Name} {b : Bool}

theorem setFile_files :
    (s.setFile dev f b).files d g = if d = dev ∧ g = f then b else s.files d g := by
  by_cases hd : d = dev
  · subst hd
    simp [setFile, Function.update_apply]
  · simp [setFile, hd]

theorem wipe_files : (s.wipe dev).files d g = if d = dev then false else s.files d g := by
  simp only [wipe, Function.update_apply]
  split_ifs <;> rfl

@[simp] theorem setFile_marked : (s.setFile dev f b).marked = s.marked := rfl
@[simp] theorem wipe_marked : (s.wipe dev).marked = s.marked := rfl

theorem unmark_files : (s.unmark dev).files d g =
    if s.lower = true ∧ d = dev ∧ g = firstFlashMarker then false else s.files d g := by
  cases hl : s.lower <;> simp [unmark, hl, setFile_files]

theorem setWired_files : (s.setWired b).files d g =
    if s.network.map (fun p => (p.1, wiredNetwork p.2)) = some (d, g) then b else s.files d g := by
  unfold setWired
  cases hn : s.network with
  | none => simp
  | some p =>
    simp only [Option.elim_some, setFile_files, Option.map_some, Option.some.injEq, Prod.mk.injEq]
    congr 1
    simp only [eq_comm]

end Machine

/-- What a command does that ends well. -/
def BootCmd.effect (cfg : BootConfig) (c : BootCmd) (s : Machine) : Machine :=
  match c with
  | .mountLower _ _ => { s with lower := true }
  | .rmFirstFlash => s.unmark cfg.root.blkdev
  | .sync => { s with marked := s.files cfg.root.blkdev firstFlashMarker }
  | .umountLower => { s with lower := false }
  | .mkfs _ _ dev => s.wipe dev
  | .mountData _ _ => { s with data := true }
  | .mountNewroot dev => { s with network := some (dev, "/") }
  | .umountData => { s with data := false }
  | .mountPoint k dev => { s with network := if HoldsNetwork k then some (dev, k) else s.network }
  | .rmWired => s.setWired false
  | .lnWired => s.setWired true
  | _ => s

/-- What a command does.  `rm -rf` removes what it finds below a mount point, and then fails
to remove the mount point. -/
def BootCmd.exec (cfg : BootConfig) (o : BootCmd → Bool) (c : BootCmd) (s : Machine) : Machine :=
  let s' := { s with status := o c }
  if c = .rmData ∧ s.data = true then s'.wipe cfg.data.blkdev
  else if o c then c.effect cfg s' else s'

section Exec

variable {cfg : BootConfig} {o : BootCmd → Bool} {c : BootCmd} {s : Machine}

/-- What holds of the effect, and of a machine on which nothing has happened, holds of a command;
`rm -rf` aside. -/
theorem BootCmd.exec_cases {P : Machine → Prop} (fails : P { s with status := o c })
    (effect : P (c.effect cfg { s with status := o c }))
    (rmData : c = .rmData → P (Machine.wipe { s with status := o c } cfg.data.blkdev)) :
    P (c.exec cfg o s) := by
  unfold BootCmd.exec
  split_ifs with hc
  · exact rmData hc.1
  · exact effect
  · exact fails

theorem BootCmd.exec_of_ne (h : c ≠ .rmData) : c.exec cfg o s =
    if o c then c.effect cfg { s with status := o c } else { s with status := o c } :=
  if_neg fun hc => h hc.1

/-- The command may change the files of a partition. -/
def BootCmd.writes : BootCmd → Bool
  | .rmFirstFlash | .sync | .mkfs _ _ _ | .rmData | .rmWired | .lnWired => true
  | _ => false

/-- The other commands leave the files alone. -/
theorem BootCmd.exec_of_not_writes (h : c.writes = false) :
    (c.exec cfg o s).files = s.files ∧ (c.exec cfg o s).marked = s.marked := by
  refine BootCmd.exec_cases (P := fun t => t.files = s.files ∧ t.marked = s.marked) ⟨rfl, rfl⟩ ?_ ?_
  · cases c with
    | rmFirstFlash | sync | mkfs | rmData | rmWired | lnWired => exact nomatch h
    | _ => exact ⟨rfl, rfl⟩
  · rintro rfl
    exact nomatch h

theorem BootCmd.exec_status : (c.exec cfg o s).status = o c := by
  refine BootCmd.exec_cases (P := fun t => t.status = o c) rfl ?_ fun _ => rfl
  cases c <;> rfl

/-- The command mounts or unmounts `/data`. -/
def BootCmd.movesData : BootCmd → Bool
  | .mountData _ _ | .umountData => true
  | _ => false

theorem BootCmd.exec_data (h : c.movesData = false) : (c.exec cfg o s).data = s.data := by
  refine BootCmd.exec_cases (P := fun t => t.data = s.data) rfl ?_ fun _ => rfl
  cases c with
  | mountData | umountData => exact nomatch h
  | _ => rfl

theorem BootCmd.exec_mountData {again : Bool} {dev : Path} :
    ((BootCmd.mountData again dev).exec cfg o s).data = (o (.mountData again dev) || s.data) := by
  rw [BootCmd.exec_of_ne BootCmd.noConfusion]
  cases ho : o (.mountData again dev) <;> simp [BootCmd.effect]

theorem BootCmd.exec_umountData :
    (BootCmd.umountData.exec cfg o s).data = (s.data && !o .umountData) := by
  rw [BootCmd.exec_of_ne BootCmd.noConfusion]
  cases ho : o .umountData <;> simp [BootCmd.effect]

/-- The command mounts something that may hold the network directory. -/
def BootCmd.movesRoot : BootCmd → Bool
  | .mountNewroot _ | .mountPoint _ _ => true
  | _ => false

theorem BootCmd.exec_network (h : c.movesRoot = false) : (c.exec cfg o s).network = s.network := by
  refine BootCmd.exec_cases (P := fun t => t.network = s.network) rfl ?_ fun _ => rfl
  cases c with
  | mountNewroot | mountPoint => exact nomatch h
  | _ => rfl

theorem BootCmd.exec_mountNewroot {dev : Path} : ((BootCmd.mountNewroot dev).exec cfg o s).network =
    if o (.mountNewroot dev) then some (dev, "/") else s.network := by
  rw [BootCmd.exec_of_ne BootCmd.noConfusion]
  cases ho : o (.mountNewroot dev) <;> simp [BootCmd.effect]

theorem BootCmd.exec_mountPoint {k dev : Path} : ((BootCmd.mountPoint k dev).exec cfg o s).network =
    if HoldsNetwork k ∧ o (.mountPoint k dev) = true then some (dev, k) else s.network := by
  rw [BootCmd.exec_of_ne BootCmd.noConfusion]
  by_cases hk : HoldsNetwork k <;> cases ho : o (.mountPoint k dev) <;> simp [BootCmd.effect, hk]

/-- No command changes the machine's surroundings. -/
theorem BootCmd.exec_surroundings :
    (c.exec cfg o s).ready = s.ready ∧ (c.exec cfg o s).networkStatic = s.networkStatic := by
  refine BootCmd.exec_cases (P := fun t => t.ready = s.ready ∧ t.networkStatic = s.networkStatic)
    ⟨rfl, rfl⟩ ?_ fun _ => ⟨rfl, rfl⟩
  cases c <;> exact ⟨rfl, rfl⟩

/-- The command may delete files other than the marker, without formatting. -/
def BootCmd.removes : BootCmd → Bool
  | .rmData | .rmWired | .lnWired => true
  | _ => false

/-- The device that a command formats. -/
def BootCmd.formats : BootCmd → Option Path
  | .mkfs _ _ dev => some dev
  | _ => none

/-- Other files than the marker only go when their partition is formatted. -/
theorem BootCmd.exec_files {d : Path} {f : Name} (h : c.removes = false)
    (hf : ¬ (d = cfg.root.blkdev ∧ f = firstFlashMarker)) :
    (c.exec cfg o s).files d f = (s.files d f && !(c.formats == some d && o c)) := by
  cases c with
  | rmData | rmWired | lnWired => exact nomatch h
  | mkfs again k dev =>
    rw [BootCmd.exec_of_ne BootCmd.noConfusion]
    by_cases ho : o (.mkfs again k dev) = true
    · rcases eq_or_ne dev d with rfl | hd
      · simp [ho, BootCmd.effect, BootCmd.formats, Machine.wipe_files]
      · simp [ho, BootCmd.effect, BootCmd.formats, Machine.wipe_files, hd, hd.symm]
    · simp [ho]
  | rmFirstFlash =>
    rw [BootCmd.exec_of_ne BootCmd.noConfusion]
    simp only [BootCmd.effect, BootCmd.formats]
    split_ifs <;> simp [Machine.unmark_files, hf]
  | sync =>
    rw [BootCmd.exec_of_ne BootCmd.noConfusion]
    simp only [BootCmd.effect, BootCmd.formats]
    split_ifs <;> simp
  | _ =>
    rw [(BootCmd.exec_of_not_writes rfl).1]
    simp [BootCmd.formats]

theorem BootCmd.exec_rmData {d : Path} {f : Name} : (BootCmd.rmData.exec cfg o s).files d f =
    (s.files d f && !(s.data && d == cfg.data.blkdev)) := by
  unfold BootCmd.exec
  cases hs : s.data with
  | true =>
    simp only [and_self, if_true, Machine.wipe_files]
    by_cases hd : d = cfg.data.blkdev <;> simp [hd]
  | false => simp [BootCmd.effect]

theorem BootCmd.exec_rmWired {d : Path} {f : Name} : (BootCmd.rmWired.exec cfg o s).files d f =
    if s.network.map (fun p => (p.1, wiredNetwork p.2)) = some (d, f) ∧ o .rmWired = true then false
    else s.files d f := by
  rw [BootCmd.exec_of_ne BootCmd.noConfusion]
  cases ho : o .rmWired <;> simp [BootCmd.effect, Machine.setWired_files]

theorem BootCmd.exec_lnWired {d : Path} {f : Name} : (BootCmd.lnWired.exec cfg o s).files d f =
    if s.network.map (fun p => (p.1, wiredNetwork p.2)) = some (d, f) ∧ o .lnWired = true then true
    else s.files d f := by
  rw [BootCmd.exec_of_ne BootCmd.noConfusion]
  cases ho : o .lnWired <;> simp [BootCmd.effect, Machine.setWired_files]

end Exec

/-- How a test comes out. -/
def BootTest.holds (cfg : BootConfig) (t : BootTest) (s : Machine) : Bool :=
  match t with
  | .noRootDevice => !s.ready
  | .firstFlash => s.lower && s.files cfg.root.blkdev firstFlashMarker
  | .failed => !s.status
  | .rwMount => s.data && s.files cfg.data.blkdev ".rw-mount"
  | .networkStatic => s.networkStatic

/-- The files on the media of a machine that is switched off. -/
abbrev Media := Path → Name → Bool

namespace BootConfig

variable (cfg : BootConfig) (o : BootCmd → Bool) (s : Machine)

/-- The machine when it is switched on. -/
def powerOn (m : Media) (ready networkStatic : Bool) : Machine where
  files := m
  marked := m cfg.root.blkdev firstFlashMarker
  ready := ready
  networkStatic := networkStatic

/-- The commands one boot executes. -/
def bootTrace : List BootCmd := cfg.bootinit.trace (BootCmd.exec cfg o) (BootTest.holds cfg) s

/-- What they leave. -/
def bootRun : Machine := cfg.bootinit.run (BootCmd.exec cfg o) (BootTest.holds cfg) s

end BootConfig

end VeRoot
