import VeRoot.Boot.Init

/-!
# The init script of an encrypted root file system

`layers/debian/bootramfs/ramdisk/securebootinit.sh` is a copy of `bootinit.sh` that calls
`unlock_rootfs` of the recipe's `secureroot.sh` and mounts `$MAPPER_DEVICE` where the other one
mounts the root device.  The two are compared up to `switch_root`, with the same commands on the
same partitions, but for the root device, whose plaintext only the mapper device has.

## Main definitions

* `secureinit` — the script.
* `Board`, `Tools` — a machine, and what commands and tests do on it.
* `Encryption`, `SecureCmd.exec` — the mapper device, and what commands do behind it.
* `alike_iff` — the main result.
-/

namespace VeRoot

open Unix

/-! ## The script -/

/-- A command of `securebootinit.sh`. -/
inductive SecureCmd
  | unlockRootfs
  /-- A command that `bootinit.sh` might have. -/
  | cmd (c : BootCmd)
  deriving DecidableEq, Repr

namespace BootConfig

variable (cfg : BootConfig) (mapper : Path)

/-- The commands up to the test for the marker. -/
def secureBeforeTest (ready : Bool) : List SecureCmd :=
  setUp.map .cmd ++ (if ready then [] else [.cmd .sleep]) ++
    [.unlockRootfs, .cmd .echo, .cmd (.mountLower false mapper)]

/-- The part that sets up the new root. -/
def secureNewRoot : Script SecureCmd BootTest :=
  .cond .rwMount
    (.cmds ([.echo, .mountNewroot mapper].map .cmd) .done)
    (.cmds ([.echo, .mountLower true mapper, .mountOverlay].map .cmd) .done) <|
  .cmds (cfg.fillRoot.map .cmd) <|
  .cond .networkStatic
    (.cmds ([.echo, .configNetworkStatic].map .cmd) .done)
    (.cmds ([.echo, .lnWired].map .cmd) .done) <|
  .cmds ([.cd "/mnt/newroot", .switchRoot].map .cmd) .done

/-- The part after the first-flash block. -/
def secureFinish : Script SecureCmd BootTest :=
  .cmds ([.mountData false cfg.data.blkdev].map .cmd) <|
  .cond .failed (.cmds (cfg.formatData.map .cmd) .done) .done <|
  cfg.secureNewRoot mapper

/-- The first-flash block, and what follows it. -/
def secureCheckFirstFlash : Script SecureCmd BootTest :=
  .cond .firstFlash
    (.cmds ((unmark ++ cfg.flash).map .cmd) .done) (.cmds ([.umountLower].map .cmd) .done) <|
  cfg.secureFinish mapper

/-- The generated `securebootinit.sh`. -/
def secureinit : Script SecureCmd BootTest :=
  .cmds (setUp.map .cmd) <|
  .cond .noRootDevice (.cmds [.cmd .sleep] .done) .done <|
  .cmds [.unlockRootfs, .cmd .echo, .cmd (.mountLower false mapper)] <|
  cfg.secureCheckFirstFlash mapper

end BootConfig

/-! ## Machines -/

/-- The block device that a command is given. -/
def BootCmd.device : BootCmd → Option Path
  | .mountLower _ d | .sfdisk d _ | .sfdiskDump d | .sfdiskExpand d _ | .e2fsck d | .resize2fs d
  | .mkfs _ _ d | .mountData _ d | .mountNewroot d | .mountPoint _ d => some d
  | _ => none

/-- The command, given the device `b` for `a`. -/
def BootCmd.redirect (a b : Path) : BootCmd → BootCmd
  | .mountLower again d => .mountLower again (if d = a then b else d)
  | .sfdisk d f => .sfdisk (if d = a then b else d) f
  | .sfdiskDump d => .sfdiskDump (if d = a then b else d)
  | .sfdiskExpand d p => .sfdiskExpand (if d = a then b else d) p
  | .e2fsck d => .e2fsck (if d = a then b else d)
  | .resize2fs d => .resize2fs (if d = a then b else d)
  | .mkfs again k d => .mkfs again k (if d = a then b else d)
  | .mountData again d => .mountData again (if d = a then b else d)
  | .mountNewroot d => .mountNewroot (if d = a then b else d)
  | .mountPoint k d => .mountPoint k (if d = a then b else d)
  | c => c

/-- A machine that is switched off: what is on its block devices, and the files of its ramdisk. -/
structure Disks (C P F : Type*) where
  /-- The file systems. -/
  contents : Path → C
  /-- The partition tables. -/
  tables : Path → P
  ramdisk : F

/-- A machine that is switched on. -/
structure Board (C P F : Type*) extends Disks C P F where
  /-- The block devices that are mounted, and where. -/
  mounts : List (Path × Path)

/-- What the commands do, and whether they end well; and how the tests come out that look for
files. -/
structure Tools (C P F : Type*) where
  exec : BootCmd → Board C P F → Board C P F × Bool
  test : BootTest → Board C P F → Bool
  echo : ∀ w, exec .echo w = (w, true)
  /-- A command mounts no other device than the one it is given. -/
  mounts_given : ∀ c w m, m ∈ (exec c w).1.mounts → m ∈ w.mounts ∨ c.device = some m.1

/-- A machine on which a script runs. -/
structure InitState (C P F : Type*) where
  board : Board C P F
  /-- `$?` is 0. -/
  status : Bool := true

section Plain

variable {C P F : Type*} (T : Tools C P F) (cfg : BootConfig) (d : Disks C P F)

/-- The machine when the script begins. -/
def Disks.powerOn : InitState C P F where
  board := { d with mounts := [] }

namespace Tools

/-- A command of `bootinit.sh`.  The run ends at `switch_root`. -/
def step (c : BootCmd) (s : InitState C P F) : InitState C P F :=
  if c = .switchRoot then s else ⟨(T.exec c s.board).1, (T.exec c s.board).2⟩

/-- A test of `bootinit.sh`. -/
def holds (t : BootTest) (s : InitState C P F) : Bool :=
  if t = .failed then !s.status else T.test t s.board

/-- What `bootinit.sh` leaves. -/
def bootRun : InitState C P F := cfg.bootinit.run T.step T.holds d.powerOn

/-- The root device is there. -/
def ready : Bool :=
  !T.holds .noRootDevice (BootConfig.setUp.foldl (fun s c => T.step c s) d.powerOn)

/-- The machine when `bootinit.sh` tests for the marker. -/
def atTest : InitState C P F :=
  (cfg.beforeTest (T.ready d)).foldl (fun s c => T.step c s) d.powerOn

/-- **The first flash**: the root file system is mounted and has the marker. -/
def FirstFlash : Prop := T.holds .firstFlash (T.atTest cfg d) = true

end Tools

end Plain

/-! ## Encryption -/

/-- The encryption of the root device.  The name of the mapper device is not in `config.json`, as
it is there only when the root device is unlocked. -/
structure Encryption (cfg : BootConfig) (C : Type*) where
  /-- `$MAPPER_DEVICE` -/
  mapper : Path
  fresh : ∀ m ∈ cfg.mountPoints, m.blkdev ≠ mapper
  encrypt : C → C
  decrypt : C → C
  decrypt_encrypt : ∀ x, decrypt (encrypt x) = x

/-- A machine on which `securebootinit.sh` runs. -/
structure SecureState (C P F : Type*) extends InitState C P F where
  unlocked : Bool := false

namespace Encryption

variable {cfg : BootConfig} {C P F : Type*} (e : Encryption cfg C) (T : Tools C P F)

/-- The corresponding machine without encryption. -/
def plainDisks (d : Disks C P F) : Disks C P F where
  contents := Function.update d.contents cfg.root.blkdev (e.decrypt (d.contents cfg.root.blkdev))
  tables := d.tables
  ramdisk := d.ramdisk

/-- The machine, with the plaintext for the root device, which is mounted where the mapper device
is. -/
def reveal (w : Board C P F) : Board C P F where
  toDisks := e.plainDisks w.toDisks
  mounts := w.mounts.map fun m => (if m.1 = e.mapper then cfg.root.blkdev else m.1, m.2)

/-- The machine with the ciphertext. -/
def conceal (w : Board C P F) : Board C P F where
  contents := Function.update w.contents cfg.root.blkdev (e.encrypt (w.contents cfg.root.blkdev))
  tables := w.tables
  ramdisk := w.ramdisk
  mounts := w.mounts.map fun m => (if m.1 = cfg.root.blkdev then e.mapper else m.1, m.2)

end Encryption

/-- A command of `securebootinit.sh`.  One that is given the root device finds the ciphertext; all
others do as in `bootinit.sh`, with the mapper device, once it is there, for the root device. -/
def SecureCmd.exec {cfg : BootConfig} {C P F : Type*} (e : Encryption cfg C) (T : Tools C P F)
    (c : SecureCmd) (s : SecureState C P F) : SecureState C P F :=
  match c with
  | .unlockRootfs => { s with unlocked := true }
  | .cmd c =>
    if c.device = some cfg.root.blkdev ∨ c.device = some e.mapper ∧ s.unlocked = false then
      { s with toInitState := T.step c s.toInitState }
    else
      let t := T.step (c.redirect e.mapper cfg.root.blkdev) ⟨e.reveal s.board, s.status⟩
      { s with board := e.conceal t.board, status := t.status }

namespace Encryption

variable {cfg : BootConfig} {C P F : Type*} (e : Encryption cfg C) (T : Tools C P F)
  (d : Disks C P F)

/-- A test of `securebootinit.sh`. -/
def holds (t : BootTest) (s : SecureState C P F) : Bool :=
  T.holds t ⟨e.reveal s.board, s.status⟩

/-- The commands that `securebootinit.sh` executes. -/
def secureTrace : List SecureCmd :=
  (cfg.secureinit e.mapper).trace (SecureCmd.exec e T) (e.holds T) ⟨d.powerOn, false⟩

/-- What it leaves. -/
def secureRun : SecureState C P F :=
  (cfg.secureinit e.mapper).run (SecureCmd.exec e T) (e.holds T) ⟨d.powerOn, false⟩

/-- **The boots agree**: behind the mapper device, the encrypted machine comes to what the
unencrypted one comes to, and nothing but `unlock_rootfs` is given the root device. -/
structure Alike : Prop where
  effect : e.reveal (e.secureRun T d).board = (T.bootRun cfg (e.plainDisks d)).board
  raw : ∀ c, .cmd c ∈ e.secureTrace T d → c.device ≠ some cfg.root.blkdev

end Encryption

section Simulation

variable {cfg : BootConfig} {C P F : Type*} {e : Encryption cfg C} {T : Tools C P F}
  {d : Disks C P F} {c : BootCmd} {cs : List BootCmd} {a b : Path} {s : SecureState C P F}
  {t : InitState C P F}

/-! ## One command -/

@[simp] theorem BootCmd.device_redirect :
    (c.redirect a b).device = c.device.map fun d => if d = a then b else d := by
  cases c <;> rfl

/-- A command that is given another device stays as it is. -/
theorem BootCmd.redirect_of_ne (h : c.device ≠ some a) : c.redirect a b = c := by
  cases c <;> simp_all [BootCmd.redirect, BootCmd.device]

namespace Encryption

/-- The root device has a name of its own. -/
theorem root_ne (e : Encryption cfg C) : cfg.root.blkdev ≠ e.mapper := e.fresh _ cfg.root_mem.1

/-- What is concealed can be revealed. -/
theorem reveal_conceal {w : Board C P F} (h : ∀ m ∈ w.mounts, m.1 ≠ e.mapper) :
    e.reveal (e.conceal w) = w := by
  have contents : Function.update (e.conceal w).contents cfg.root.blkdev
      (e.decrypt ((e.conceal w).contents cfg.root.blkdev)) = w.contents := by
    simp [conceal, e.decrypt_encrypt]
  have mounts : (e.reveal (e.conceal w)).mounts = w.mounts := by
    rw [reveal, conceal]
    dsimp only
    rw [List.map_map]
    refine List.map_congr_left (g := id) (fun m hm => ?_) |>.trans (List.map_id _)
    by_cases hroot : m.1 = cfg.root.blkdev
    · simp [hroot, Prod.ext_iff]
    · simp [hroot, h m hm]
  obtain ⟨⟨_, _, _⟩, _⟩ := w
  simp only [reveal, plainDisks, Board.mk.injEq, Disks.mk.injEq] at contents mounts ⊢
  exact ⟨⟨contents, rfl, rfl⟩, mounts⟩

/-- The encrypted machine is the unencrypted one, behind the mapper device. -/
structure Agrees (e : Encryption cfg C) (s : SecureState C P F) (t : InitState C P F) : Prop where
  board : e.reveal s.board = t.board
  status : s.status = t.status
  mounts : ∀ m ∈ t.board.mounts, m.1 ≠ e.mapper

theorem agrees_powerOn : e.Agrees ⟨d.powerOn, false⟩ (e.plainDisks d).powerOn :=
  ⟨rfl, rfl, by simp [Disks.powerOn]⟩

/-- The machines agree on the tests. -/
theorem Agrees.holds (h : e.Agrees s t) (x : BootTest) : e.holds T x s = T.holds x t := by
  rw [Encryption.holds, h.board, h.status]

/-- No command mounts a device that it is not given. -/
theorem mounts_step (ht : ∀ m ∈ t.board.mounts, m.1 ≠ a) (hc : c.device ≠ some a) :
    ∀ m ∈ (T.step c t).board.mounts, m.1 ≠ a := by
  intro m hm
  rw [Tools.step] at hm
  split_ifs at hm with hs
  · exact ht m hm
  · rcases T.mounts_given c t.board m hm with hm | hm
    · exact ht m hm
    · rintro rfl
      exact hc hm

/-- **A command that is not given the root device** does behind the mapper device what it does
without encryption. -/
theorem Agrees.step (h : e.Agrees s t) (hroot : c.device ≠ some cfg.root.blkdev)
    (hmapper : c.device = some e.mapper → s.unlocked = true) :
    e.Agrees (SecureCmd.exec e T (.cmd c) s)
      (T.step (c.redirect e.mapper cfg.root.blkdev) t) := by
  have through : ¬ (c.device = some cfg.root.blkdev ∨
      c.device = some e.mapper ∧ s.unlocked = false) := by
    rintro (h | ⟨hd, locked⟩)
    · exact hroot h
    · simp [hmapper hd] at locked
  have plain : (⟨e.reveal s.board, s.status⟩ : InitState C P F) = t := by
    rw [h.board, h.status]
  have other : (c.redirect e.mapper cfg.root.blkdev).device ≠ some e.mapper := by
    rw [BootCmd.device_redirect]
    intro hd
    obtain ⟨x, -, hx⟩ := Option.map_eq_some_iff.mp hd
    split_ifs at hx with hxm
    · exact e.root_ne hx
    · exact hxm hx
  have mounts := mounts_step (T := T) h.mounts other
  rw [SecureCmd.exec, if_neg through, plain]
  exact ⟨e.reveal_conceal mounts, rfl, mounts⟩

@[simp] theorem unlocked_exec :
    (SecureCmd.exec e T (.cmd c) s).unlocked = s.unlocked := by
  rw [SecureCmd.exec]
  split_ifs <;> rfl

/-- `unlock_rootfs` leaves everything else alone. -/
theorem Agrees.unlock (h : e.Agrees s t) :
    e.Agrees (SecureCmd.exec e T .unlockRootfs s) t :=
  ⟨h.board, h.status, h.mounts⟩

/-! ## Several commands -/

/-- The root device is unlocked, and the machines agree. -/
def Unlocked (e : Encryption cfg C) (s : SecureState C P F) (t : InitState C P F) : Prop :=
  s.unlocked = true ∧ e.Agrees s t

/-- The commands are not given the root device. -/
def Avoids (cfg : BootConfig) (cs : List BootCmd) : Prop :=
  ∀ c ∈ cs, c.device ≠ some cfg.root.blkdev

/-- Commands that are given neither device do not need the mapper device. -/
theorem Agrees.foldl (h : e.Agrees s t) (hcs : ∀ c ∈ cs, c.device = none) :
    e.Agrees ((cs.map .cmd).foldl (fun s c => SecureCmd.exec e T c s) s)
      (cs.foldl (fun s c => T.step c s) t) := by
  induction cs generalizing s t with
  | nil => exact h
  | cons c cs ih =>
    have hc : c.device = none := hcs c (by simp)
    have next := h.step (T := T) (c := c) (by simp [hc]) (by simp [hc])
    rw [BootCmd.redirect_of_ne (by simp [hc])] at next
    exact ih next fun c hc => hcs c (by simp [hc])

/-- **The commands of a script**, once the root device is unlocked. -/
theorem Unlocked.foldl (h : e.Unlocked s t) (hcs : Avoids cfg cs) :
    e.Unlocked ((cs.map .cmd).foldl (fun s c => SecureCmd.exec e T c s) s)
      ((cs.map (BootCmd.redirect e.mapper cfg.root.blkdev)).foldl
        (fun s c => T.step c s) t) := by
  induction cs generalizing s t with
  | nil => exact h
  | cons c cs ih =>
    have next := h.2.step (T := T) (hcs c (by simp)) fun _ => h.1
    exact ih ⟨by rw [unlocked_exec, h.1], next⟩ fun c hc => hcs c (by simp [hc])

/-! ## The scripts -/

/-- The command is given no device but those of the mount points below `/`. -/
def Below (cfg : BootConfig) (c : BootCmd) : Prop :=
  ∀ x, c.device = some x → ∃ m ∈ cfg.mountPoints, m.path ≠ "/" ∧ m.blkdev = x

/-- No mount point below `/` is on the root device. -/
def Apart (cfg : BootConfig) : Prop :=
  ∀ m ∈ cfg.mountPoints, m.path ≠ "/" → m.blkdev ≠ cfg.root.blkdev

theorem below_of_none (h : c.device = none) : Below cfg c := by
  intro x hx
  simp [h] at hx

theorem below_data (h : c.device = some cfg.data.blkdev) : Below cfg c := by
  intro x hx
  obtain rfl : cfg.data.blkdev = x := Option.some.inj (h.symm.trans hx)
  exact ⟨cfg.data, cfg.data_mem.1, by simp [cfg.data_mem.2], rfl⟩

theorem below_formatData : ∀ c ∈ cfg.formatData, Below cfg c := by
  intro c hc
  rcases List.mem_append.mp hc with hc | hc
  · simp only [List.mem_cons, List.not_mem_nil, or_false] at hc
    rcases hc with rfl | rfl | rfl | rfl
    · exact below_of_none rfl
    · exact below_of_none rfl
    · exact below_data rfl
    · exact below_data rfl
  · split_ifs at hc
    · obtain rfl := List.mem_singleton.mp hc
      exact below_of_none rfl
    · simp at hc

theorem below_mountBelow {m : MountPoint} (hm : m ∈ cfg.mountPoints) :
    ∀ c ∈ BootConfig.mountBelow m, Below cfg c := by
  intro c hc
  rw [BootConfig.mountBelow] at hc
  split_ifs at hc with hroot hchown
  · simp at hc
  all_goals
    simp only [List.cons_append, List.nil_append, List.append_nil, List.mem_cons,
      List.not_mem_nil, or_false] at hc
  · rcases hc with rfl | rfl | rfl | rfl
    · exact below_of_none rfl
    · exact below_of_none rfl
    · exact fun x hx => ⟨m, hm, hroot, Option.some.inj hx⟩
    · exact below_of_none rfl
  · rcases hc with rfl | rfl | rfl
    · exact below_of_none rfl
    · exact below_of_none rfl
    · exact fun x hx => ⟨m, hm, hroot, Option.some.inj hx⟩

theorem below_fillRoot : ∀ c ∈ cfg.fillRoot, Below cfg c := by
  intro c hc
  rw [BootConfig.fillRoot, List.mem_append, List.mem_append] at hc
  rcases hc with (hc | hc) | hc
  · exact below_of_none ((show ∀ c ∈ [BootCmd.umountData, .rmData], c.device = none by decide) c hc)
  · obtain ⟨m, hm, hc⟩ := List.mem_flatMap.mp hc
    exact below_mountBelow hm c hc
  · exact below_of_none ((show ∀ c ∈ [BootCmd.cd "/mnt/newroot", .echo, .echo,
      .cd "etc/systemd/network", .rmWired], c.device = none by decide) c hc)

theorem Below.avoids (apart : Apart cfg) (h : ∀ c ∈ cs, Below cfg c) : Avoids cfg cs := by
  intro c hc hd
  obtain ⟨m, hm, hp, he⟩ := h c hc _ hd
  exact apart m hm hp he

theorem Below.redirect (e : Encryption cfg C) (h : ∀ c ∈ cs, Below cfg c) (b : Path) :
    cs.map (BootCmd.redirect e.mapper b) = cs := by
  refine (List.map_congr_left (g := id) fun c hc => ?_).trans (List.map_id _)
  refine BootCmd.redirect_of_ne fun hd => ?_
  obtain ⟨m, hm, -, he⟩ := h c hc _ hd
  exact e.fresh m hm he

/-- Commands on the mount points below `/` keep the machines alike. -/
theorem Unlocked.below (apart : Apart cfg) (h : ∀ c ∈ cs, Below cfg c) :
    ∀ (s : SecureState C P F) (t : InitState C P F), e.Unlocked s t →
      e.Unlocked ((cs.map .cmd).foldl (fun s c => SecureCmd.exec e T c s) s)
        (cs.foldl (fun s c => T.step c s) t) := by
  intro s t agrees
  have next := agrees.foldl (T := T) (Below.avoids apart h)
  rwa [Below.redirect e h] at next

/-- So do those that mount the root file system. -/
theorem Unlocked.mounts {ps : List BootCmd} (h : Avoids cfg cs)
    (hps : cs.map (BootCmd.redirect e.mapper cfg.root.blkdev) = ps) :
    ∀ (s : SecureState C P F) (t : InitState C P F), e.Unlocked s t →
      e.Unlocked ((cs.map .cmd).foldl (fun s c => SecureCmd.exec e T c s) s)
        (ps.foldl (fun s c => T.step c s) t) := by
  intro s t agrees
  subst hps
  exact agrees.foldl h

theorem avoids_mountNewroot (e : Encryption cfg C) :
    Avoids cfg [.echo, .mountNewroot e.mapper] := by
  have := e.root_ne.symm
  simp [Avoids, BootCmd.device, this]

theorem avoids_mountLower (e : Encryption cfg C) :
    Avoids cfg [.echo, .mountLower true e.mapper, .mountOverlay] := by
  have := e.root_ne.symm
  simp [Avoids, BootCmd.device, this]

/-- **From the first-flash block on**, the scripts match. -/
theorem matches_finish (e : Encryption cfg C) (T : Tools C P F) (apart : Apart cfg) :
    Script.Matches e.Unlocked (SecureCmd.exec e T) (e.holds T) T.step T.holds
      (cfg.secureFinish e.mapper) cfg.finish := by
  have same : ∀ (x : BootTest) (s : SecureState C P F) (t : InitState C P F), e.Unlocked s t →
      e.holds T x s = T.holds x t := fun x s t h => h.2.holds x
  have none : ∀ {cs : List BootCmd}, (∀ c ∈ cs, c.device = none) → ∀ c ∈ cs, Below cfg c :=
    fun h c hc => below_of_none (h c hc)
  refine .cmds (Unlocked.below apart fun c hc => ?_) <|
    .cond (same _) (.cmds (Unlocked.below apart below_formatData) .done) .done <|
    .cond (same _)
      (.cmds (Unlocked.mounts (avoids_mountNewroot e) (by simp [BootCmd.redirect])) .done)
      (.cmds (Unlocked.mounts (avoids_mountLower e) (by simp [BootCmd.redirect])) .done) <|
    .cmds (Unlocked.below apart below_fillRoot) <|
    .cond (same _) (.cmds (Unlocked.below apart (none (by decide))) .done)
      (.cmds (Unlocked.below apart (none (by decide))) .done) <|
    .cmds (Unlocked.below apart (none (by decide))) .done
  obtain rfl := List.mem_singleton.mp hc
  exact below_data rfl

/-! ## Up to the test for the marker -/

theorem device_setUp : ∀ c ∈ BootConfig.setUp, c.device = none := by decide

/-- What `securebootinit.sh` executes up to the test. -/
theorem resumes_secure (e : Encryption cfg C) (T : Tools C P F) (d : Disks C P F) :
    (cfg.secureinit e.mapper).Resumes (SecureCmd.exec e T) (e.holds T) ⟨d.powerOn, false⟩
      (BootConfig.secureBeforeTest e.mapper (T.ready (e.plainDisks d)))
      (cfg.secureCheckFirstFlash e.mapper) := by
  have agrees := (agrees_powerOn (e := e) (d := d)).foldl (T := T) device_setUp
  have start : (cfg.secureinit e.mapper).Resumes (SecureCmd.exec e T) (e.holds T)
      ⟨d.powerOn, false⟩ (BootConfig.setUp.map .cmd) _ := Script.Resumes.start.cmds
  rw [BootConfig.secureBeforeTest]
  cases hr : T.ready (e.plainDisks d) with
  | true =>
    refine (start.cond_of_false ?_ rfl).cmds
    rw [agrees.holds]
    simpa [Tools.ready] using hr
  | false =>
    refine (start.cond_of_true ?_ rfl).cmds
    rw [agrees.holds]
    simpa [Tools.ready] using hr

/-- What `bootinit.sh` executes up to the test. -/
theorem resumes_boot (cfg : BootConfig) (T : Tools C P F) (d : Disks C P F) :
    cfg.bootinit.Resumes T.step T.holds d.powerOn (cfg.beforeTest (T.ready d))
      cfg.checkFirstFlash := by
  have start : cfg.bootinit.Resumes T.step T.holds d.powerOn BootConfig.setUp _ :=
    Script.Resumes.start.cmds
  rw [BootConfig.beforeTest]
  cases hr : T.ready d with
  | true =>
    refine (start.cond_of_false ?_ rfl).cmds
    simpa [Tools.ready] using hr
  | false =>
    refine (start.cond_of_true ?_ rfl).cmds
    simpa [Tools.ready] using hr

/-- The machine when `securebootinit.sh` tests for the marker. -/
def secureAtTest (e : Encryption cfg C) (T : Tools C P F) (d : Disks C P F) :
    SecureState C P F :=
  (BootConfig.secureBeforeTest e.mapper (T.ready (e.plainDisks d))).foldl
    (fun s c => SecureCmd.exec e T c s) ⟨d.powerOn, false⟩

/-- An `echo` makes no difference to the next command. -/
theorem step_echo (c : BootCmd) (hc : c ≠ .switchRoot) (t : InitState C P F) :
    T.step c (T.step .echo t) = T.step c t := by
  simp only [Tools.step, hc, if_false, reduceCtorEq, T.echo]

/-- **The machines agree when the scripts test for the marker**, and the root device is
unlocked. -/
theorem unlocked_atTest (e : Encryption cfg C) (T : Tools C P F) (d : Disks C P F) :
    e.Unlocked (e.secureAtTest T d) (T.atTest cfg (e.plainDisks d)) := by
  have before : ∀ c ∈ BootConfig.setUp ++ if T.ready (e.plainDisks d) then [] else [BootCmd.sleep],
      c.device = none := by
    intro c hc
    rcases List.mem_append.mp hc with hc | hc
    · exact device_setUp c hc
    · split_ifs at hc
      · simp at hc
      · obtain rfl := List.mem_singleton.mp hc
        rfl
  have secure : BootConfig.secureBeforeTest e.mapper (T.ready (e.plainDisks d)) =
      (BootConfig.setUp ++ if T.ready (e.plainDisks d) then [] else [BootCmd.sleep]).map .cmd ++
        .unlockRootfs :: [BootCmd.echo, .mountLower false e.mapper].map .cmd := by
    rw [BootConfig.secureBeforeTest, List.map_append]
    split_ifs <;> rfl
  have redirected : [BootCmd.echo, .mountLower false e.mapper].map
      (BootCmd.redirect e.mapper cfg.root.blkdev) = [.echo, .mountLower false cfg.root.blkdev] := by
    simp [BootCmd.redirect]
  have avoids : Avoids cfg [.echo, .mountLower false e.mapper] := by
    have := e.root_ne.symm
    simp [Avoids, BootCmd.device, this]
  rw [secureAtTest, secure, Tools.atTest, BootConfig.beforeTest, List.foldl_append, List.foldl_cons,
    List.foldl_append (l := _ ++ _)]
  -- the commands before the root device is unlocked, which is given to none of them
  have agrees := (agrees_powerOn (e := e) (d := d)).foldl (T := T) before
  generalize (BootConfig.setUp ++ if T.ready (e.plainDisks d) then [] else [BootCmd.sleep]).foldl
    (fun s c => T.step c s) (e.plainDisks d).powerOn = t at agrees ⊢
  have mounted := (show e.Unlocked _ t from ⟨rfl, agrees.unlock (T := T)⟩).foldl (T := T) avoids
  rw [redirected, List.foldl_cons, List.foldl_cons, step_echo _ (by simp)] at mounted
  exact mounted

/-! ## Both runs -/

/-- A first flash repairs the root device itself. -/
theorem mem_trace_of_firstFlash (h : T.FirstFlash cfg (e.plainDisks d)) :
    .cmd (.e2fsck cfg.root.blkdev) ∈ e.secureTrace T d := by
  have test : e.holds T .firstFlash (e.secureAtTest T d) = true := by
    rw [(unlocked_atTest e T d).2.holds]
    exact h
  rw [secureTrace, resumes_secure, ← secureAtTest, BootConfig.secureCheckFirstFlash,
    Script.trace_cond_of_true test, Script.trace_cmds_done]
  simp [BootConfig.flash]

/-- Each mount point below `/` is mounted. -/
theorem mem_trace_mountPoint {m : MountPoint} (hm : m ∈ cfg.mountPoints) (hp : m.path ≠ "/") :
    .cmd (.mountPoint m.path m.blkdev) ∈ e.secureTrace T d := by
  have fill : BootCmd.mountPoint m.path m.blkdev ∈ cfg.fillRoot := by
    simp only [BootConfig.fillRoot, List.mem_append, List.mem_flatMap]
    exact .inl (.inr ⟨m, hm, by simp [BootConfig.mountBelow, hp]⟩)
  refine Script.mem_trace_cmds fun s => Script.mem_trace_cond fun s =>
    Script.mem_trace_cmds fun s => Script.mem_trace_cond fun s => Script.mem_trace_cmds fun s =>
    Script.mem_trace_cond fun s => Script.mem_trace_cond fun s => ?_
  exact List.mem_append_left _ (List.mem_map_of_mem fill)

/-- From the first-flash block on, no command is given the root device. -/
theorem avoids_secureFinish (apart : Apart cfg)
    (h : .cmd c ∈ (cfg.secureFinish e.mapper).commands) : c.device ≠ some cfg.root.blkdev := by
  have none : ∀ {cs : List BootCmd}, (∀ c ∈ cs, c.device = none) → Avoids cfg cs :=
    fun h c hc => by simp [h c hc]
  have all : Avoids cfg ([.mountData false cfg.data.blkdev] ++ cfg.formatData ++
      [.echo, .mountNewroot e.mapper] ++ [.echo, .mountLower true e.mapper, .mountOverlay] ++
      cfg.fillRoot ++ [.echo, .configNetworkStatic, .echo, .lnWired, .cd "/mnt/newroot",
        .switchRoot]) := by
    intro c hc
    simp only [List.mem_append] at hc
    rcases hc with ((((hc | hc) | hc) | hc) | hc) | hc
    · obtain rfl := List.mem_singleton.mp hc
      exact fun hd => apart _ cfg.data_mem.1 (by simp [cfg.data_mem.2]) (Option.some.inj hd)
    · exact Below.avoids apart below_formatData c hc
    · exact avoids_mountNewroot e c hc
    · exact avoids_mountLower e c hc
    · exact Below.avoids apart below_fillRoot c hc
    · exact none (by decide) c hc
  refine all c ?_
  simp only [BootConfig.secureFinish, BootConfig.secureNewRoot, Script.commands] at h
  simp only [List.mem_append, List.mem_map, SecureCmd.cmd.injEq, exists_eq_right,
    List.append_nil] at h
  simp only [List.mem_append]
  grind

/-- Up to the test for the marker, no command is given the root device. -/
theorem avoids_secureBeforeTest {ready : Bool}
    (h : .cmd c ∈ BootConfig.secureBeforeTest e.mapper ready) :
    c.device ≠ some cfg.root.blkdev := by
  rw [BootConfig.secureBeforeTest, List.mem_append, List.mem_append] at h
  rcases h with (h | h) | h
  · obtain ⟨c', hc, e⟩ := List.mem_map.mp h
    obtain rfl := SecureCmd.cmd.inj e
    simp [device_setUp c' hc]
  · split_ifs at h
    · simp at h
    · obtain rfl := SecureCmd.cmd.inj (List.mem_singleton.mp h)
      simp [BootCmd.device]
  · have := e.root_ne.symm
    simp only [List.mem_cons, reduceCtorEq, SecureCmd.cmd.injEq, List.not_mem_nil, or_false,
      false_or] at h
    rcases h with rfl | rfl
    · simp [BootCmd.device]
    · simpa [BootCmd.device] using this

/-- **The boots agree exactly if this is not the first flash and no other mount point is on the
root device.** -/
theorem alike_iff (e : Encryption cfg C) (T : Tools C P F) (d : Disks C P F) :
    e.Alike T d ↔ ¬ T.FirstFlash cfg (e.plainDisks d) ∧ Apart cfg := by
  constructor
  · intro h
    exact ⟨fun first => h.raw _ (mem_trace_of_firstFlash first) rfl,
      fun m hm hp he => h.raw _ (mem_trace_mountPoint hm hp) (congrArg some he)⟩
  · rintro ⟨first, apart⟩
    have agrees := unlocked_atTest e T d
    have plain : T.holds .firstFlash (T.atTest cfg (e.plainDisks d)) = false :=
      Bool.eq_false_of_not_eq_true first
    have secure : e.holds T .firstFlash (e.secureAtTest T d) = false := by
      rw [agrees.2.holds, plain]
    have idle : ∀ c ∈ [BootCmd.umountLower], Below cfg c := fun c hc =>
      below_of_none (by rw [List.mem_singleton.mp hc]; rfl)
    have unmounted := Unlocked.below (T := T) apart idle _ _ agrees
    constructor
    · rw [secureRun, (resumes_secure e T d).run_eq, ← secureAtTest,
        BootConfig.secureCheckFirstFlash, Script.run_cond_of_false secure, Tools.bootRun,
        (resumes_boot cfg T _).run_eq, ← Tools.atTest, BootConfig.checkFirstFlash,
        Script.run_cond_of_false plain, Script.run_cmds, Script.run_cmds]
      exact ((matches_finish e T apart).run unmounted).2.board
    · intro c hc
      rw [secureTrace, resumes_secure, ← secureAtTest, BootConfig.secureCheckFirstFlash,
        Script.trace_cond_of_false secure, Script.trace_cmds_done] at hc
      rcases List.mem_append.mp hc with hc | hc
      · exact avoids_secureBeforeTest hc
      · rcases List.mem_append.mp hc with hc | hc
        · simp only [List.map_cons, List.map_nil, List.mem_singleton, SecureCmd.cmd.injEq] at hc
          subst hc
          simp [BootCmd.device]
        · exact avoids_secureFinish apart (Script.mem_commands hc)

end Encryption

end Simulation

/-! ## A first flash -/

/-- The files of a partition. -/
structure SealedFiles where
  files : List Name
  /-- It holds ciphertext. -/
  sealed : Bool := false
  deriving DecidableEq

/-- `mount` refuses ciphertext, and `e2fsck -y` repairs it to an empty file system. -/
def someTools : Tools SealedFiles Unit Unit where
  exec c w :=
    match c with
    | .mountLower _ dev =>
      if (w.contents dev).sealed then (w, false)
      else ({ w with mounts := (dev, "/mnt/lower") :: w.mounts }, true)
    | .rmFirstFlash =>
      let on (dev : Path) : Bool := w.mounts.any fun m => m.1 = dev && m.2 = "/mnt/lower"
      let remove (dev : Path) (p : SealedFiles) : SealedFiles :=
        if on dev then { p with files := p.files.erase firstFlashMarker } else p
      ({ w with contents := fun dev => remove dev (w.contents dev) }, true)
    | .umountLower => ({ w with mounts := w.mounts.filter fun m => m.2 ≠ "/mnt/lower" }, true)
    | .e2fsck dev =>
      if (w.contents dev).sealed then
        ({ w with contents := Function.update w.contents dev ⟨[], false⟩ }, true)
      else (w, true)
    | _ => (w, true)
  test t w := t = .firstFlash && w.mounts.any fun m =>
    m.2 = "/mnt/lower" && (w.contents m.1).files.contains firstFlashMarker
  echo _ := rfl
  mounts_given c w m h := by
    cases c <;> simp only at h
    case mountLower =>
      split_ifs at h
      · exact .inl h
      · rcases List.mem_cons.mp h with rfl | h
        · exact .inr rfl
        · exact .inl h
    case umountLower => exact .inl (List.mem_of_mem_filter h)
    case e2fsck => split_ifs at h <;> exact .inl h
    all_goals exact .inl h

/-- The root partition of the Raspberry Pi recipe, encrypted. -/
def rpiEncryption : Encryption rpiBoot SealedFiles where
  mapper := "/dev/mapper/root"
  fresh := by decide
  encrypt p := { p with sealed := !p.sealed }
  decrypt p := { p with sealed := !p.sealed }
  decrypt_encrypt p := by simp

/-- The machine after it was flashed. -/
def flashedDisks : Disks SealedFiles Unit Unit where
  contents dev :=
    if dev = "/dev/mmcblk0p3" then ⟨[firstFlashMarker, "sbin/init"], true⟩ else ⟨[], false⟩
  tables _ := ()
  ramdisk := ()

/-- The first boot repairs the ciphertext. -/
theorem not_alike_firstFlash : ¬ rpiEncryption.Alike someTools flashedDisks := by
  intro h
  have root := congrArg (fun w => (w.contents "/dev/mmcblk0p3").files) h.effect
  revert root
  decide

end VeRoot
