import VeRoot.Boot.Init

/-!
# The first flash and power loss

A device that boots with the first-flash marker first removes the marker, and then
writes the partition tables, grows partitions and file systems and formats.  When
it loses power in between, the next boot does not know that something is left to
be done.

## Main definitions

* `FlashAction`, `BootConfig.actions` — what the first flash has to do.
* `PowerCycle`, `PowerCycle.executed`, `Flashed` — boots that may lose power.
* `Provisioned` — what is wanted.
* `FlashSafe` — when power may be lost.
* `provisioned_iff` — the main result.
-/

namespace VeRoot

open Unix

/-- One thing the first flash has to do. -/
inductive FlashAction
  | writeTable (dev : Path)
  | expand (dev part : Path)
  | resizeRoot
  | format (k : Path)
  deriving DecidableEq, Repr

/-- The action that a command carries out. -/
def BootCmd.action : BootCmd → Option FlashAction
  | .sfdisk dev _ => some (.writeTable dev)
  | .sfdiskExpand dev part => some (.expand dev part)
  | .resize2fs _ => some .resizeRoot
  | .mkfs _ k _ => some (.format k)
  | _ => none

namespace BootConfig

variable (cfg : BootConfig)

/-- What `config.json` asks for on the first flash: for every block device to write its table
and to grow its partition, to resize the root file system, and to format. -/
def actions : List FlashAction :=
  cfg.blockDevices.flatMap (fun b => (b.sffile.toList.map fun _ => .writeTable b.name) ++
    b.expand.toList.map fun part => .expand b.name part) ++
  [.resizeRoot] ++
  (cfg.mountPoints.filter fun m => .firstFlash ∈ m.format).map fun m => .format m.path

end BootConfig

/-- One boot.  Power is lost after the command number `after`, if there are that many, and
is switched off otherwise. -/
structure PowerCycle where
  after : ℕ
  /-- What was not synced has reached the medium all the same. -/
  flushed : Bool
  /-- The root device is there from the beginning. -/
  ready : Bool := true
  networkStatic : Bool := false

namespace PowerCycle

variable (cfg : BootConfig) (b : PowerCycle) (m : Media)

/-- The machine when it is switched on. -/
def start : Machine := cfg.powerOn m b.ready b.networkStatic

/-- The commands that are executed before power is lost.  All of them end well. -/
def executed : List BootCmd := (cfg.bootTrace (fun _ => true) (b.start cfg m)).take b.after

/-- The machine at that moment. -/
def last : Machine := (b.executed cfg m).foldl (fun s c => c.exec cfg (fun _ => true) s) (b.start cfg m)

/-- What is then on the media. -/
def leaves : Media :=
  if b.flushed then (b.last cfg m).files
  else ((b.last cfg m).setFile cfg.root.blkdev firstFlashMarker (b.last cfg m).marked).files

/-- The first commands of a boot that finds the marker, as far as they are executed: up to
the end of the first flash. -/
def flashCommands : List BootCmd :=
  (cfg.beforeTest b.ready ++ (BootConfig.unmark ++ cfg.flash)).take b.after

/-- The removal of the marker reaches the medium. -/
def Unmarks : Prop :=
  .sync ∈ b.flashCommands cfg ∨ (.rmFirstFlash ∈ b.flashCommands cfg ∧ b.flushed = true)

instance : Decidable (b.Unmarks cfg) := inferInstanceAs (Decidable (_ ∨ _))

end PowerCycle

/-- A device: its media, and the actions that have been carried out. -/
structure Flashed where
  media : Media
  completed : List FlashAction := []

/-- One boot of a device. -/
def Flashed.boot (cfg : BootConfig) (d : Flashed) (b : PowerCycle) : Flashed where
  media := b.leaves cfg d.media
  completed := d.completed ++ (b.executed cfg d.media).filterMap BootCmd.action

/-- A device that has just been flashed: the marker is there. -/
def factory (cfg : BootConfig) (m : Media) : Flashed where
  media := Function.update m cfg.root.blkdev
    (Function.update (m cfg.root.blkdev) firstFlashMarker true)

/-- The device after a history of boots. -/
def afterBoots (cfg : BootConfig) (m : Media) (h : List PowerCycle) : Flashed :=
  h.foldl (Flashed.boot cfg) (factory cfg m)

/-- Whenever, in the course of a history, the next boot reaches `switch_root`, every action has
been carried out by then. -/
def Provisioned (cfg : BootConfig) (m : Media) (h : List PowerCycle) : Prop :=
  ∀ p, p <+: h → ∀ b : PowerCycle, .switchRoot ∈ b.executed cfg (afterBoots cfg m p).media →
    ∀ a ∈ cfg.actions, a ∈ (afterBoots cfg m (p ++ [b])).completed

/-- The boot in which the removal of the marker reaches the medium does not lose power before
the last action has been carried out. -/
def FlashSafe (cfg : BootConfig) : List PowerCycle → Prop
  | [] => True
  | b :: h =>
    if b.Unmarks cfg then ∀ a ∈ cfg.actions, a ∈ (b.flashCommands cfg).filterMap BootCmd.action
    else FlashSafe cfg h

section FirstFlash

variable {cfg : BootConfig} {b : PowerCycle} {m : Media} {s : Machine} {c : BootCmd}
  {h : List PowerCycle} {d : Flashed}

/-! ## What the commands are -/

/-- A prefix of a list either ends before an element or goes past it. -/
theorem prefix_split {α : Type*} {p A B : List α} {x : α} (hp : p <+: A ++ x :: B) (hx : x ∉ A) :
    (x ∉ p ∧ p <+: A) ∨ ∃ q, p = A ++ x :: q ∧ q <+: B := by
  obtain ⟨r, hr⟩ := hp
  rcases List.append_eq_append_iff.mp hr with ⟨A', rfl, -⟩ | ⟨C, rfl, hC⟩
  · exact .inl ⟨fun h => hx (by simp [h]), List.prefix_append _ _⟩
  · cases C with
    | nil => exact .inl ⟨by simpa using hx, by simp⟩
    | cons y C =>
      obtain ⟨rfl, rfl⟩ : x = y ∧ B = C ++ r := by simpa using hC
      exact .inr ⟨C, rfl, List.prefix_append _ _⟩

/-- The first flash carries out the actions, in their order. -/
theorem filterMap_flash : cfg.flash.filterMap BootCmd.action = cfg.actions := by
  have devices : ∀ bs : List BlockDevice,
      (bs.flatMap BootConfig.prepareDevice).filterMap BootCmd.action =
        bs.flatMap fun b => (b.sffile.toList.map fun _ => .writeTable b.name) ++
          b.expand.toList.map fun part => .expand b.name part := by
    intro bs
    induction bs with
    | nil => rfl
    | cons b bs ih =>
      simp only [List.flatMap_cons, List.filterMap_append, ih]
      congr 1
      rcases b with ⟨name, _ | f, _ | part⟩ <;> rfl
  have mounts : ∀ ms : List MountPoint,
      (ms.flatMap BootConfig.formatFirst).filterMap BootCmd.action =
        (ms.filter fun m => .firstFlash ∈ m.format).map fun m => .format m.path := by
    intro ms
    induction ms with
    | nil => rfl
    | cons m ms ih =>
      simp only [List.flatMap_cons, List.filterMap_append, ih]
      by_cases hm : FormatOption.firstFlash ∈ m.format
      · simp [BootConfig.formatFirst, hm]
        rfl
      · simp [BootConfig.formatFirst, hm]
  rw [BootConfig.flash, List.filterMap_append, List.filterMap_append, devices, mounts,
    BootConfig.actions]
  rfl

/-- Setting up the new root carries out no action. -/
theorem action_newRoot (hc : c ∈ cfg.newRoot.commands) : c.action = none := by
  have below : ∀ m, (BootConfig.mountBelow m).filterMap BootCmd.action = [] := by
    intro m
    unfold BootConfig.mountBelow
    split_ifs <;> rfl
  have mounts : (cfg.mountPoints.flatMap BootConfig.mountBelow).filterMap BootCmd.action = [] := by
    rw [List.filterMap_flatMap]
    simp [below]
  have all : cfg.newRoot.commands.filterMap BootCmd.action = [] := by
    simp only [BootConfig.newRoot, BootConfig.fillRoot, Script.commands, List.filterMap_append, mounts]
    rfl
  exact List.filterMap_eq_nil_iff.mp all c hc

/-- Nor does anything after the first-flash block, when `/data` can be mounted. -/
theorem action_finish
    (hc : c ∈ cfg.finish.trace (BootCmd.exec cfg fun _ => true) (BootTest.holds cfg) s) :
    c.action = none := by
  rw [BootConfig.finish, Script.trace_cmds, Script.trace_cond_of_false rfl] at hc
  simp only [Script.trace_done, List.nil_append, List.mem_append, List.mem_singleton] at hc
  rcases hc with rfl | hc
  · rfl
  · exact action_newRoot (Script.mem_commands hc)

/-- A boot up to the test for the marker. -/
theorem bootTrace_eq : cfg.bootTrace (fun _ => true) (b.start cfg m) =
    cfg.beforeTest b.ready ++ cfg.checkFirstFlash.trace (BootCmd.exec cfg fun _ => true)
      (BootTest.holds cfg) { b.start cfg m with lower := true } := by
  rcases b with ⟨after, flushed, _ | _, networkStatic⟩ <;> rfl

/-- A boot that finds the marker executes the first flash, and then nothing that carries out
an action. -/
theorem bootTrace_of_marked (hm : m cfg.root.blkdev firstFlashMarker = true) :
    ∃ rest, (∀ c ∈ rest, c.action = none) ∧
      cfg.bootTrace (fun _ => true) (b.start cfg m) =
        cfg.beforeTest b.ready ++ (BootConfig.unmark ++ cfg.flash) ++ rest := by
  have found : BootTest.holds cfg .firstFlash { b.start cfg m with lower := true } = true := hm
  rw [bootTrace_eq, BootConfig.checkFirstFlash, Script.trace_cond_of_true found, Script.trace_cmds,
    Script.trace_done, List.append_nil, ← List.append_assoc]
  exact ⟨_, fun c hc => action_finish hc, rfl⟩

/-- A boot that does not find it carries out nothing. -/
theorem action_of_unmarked (hm : m cfg.root.blkdev firstFlashMarker = false)
    (hc : c ∈ cfg.bootTrace (fun _ => true) (b.start cfg m)) : c.action = none := by
  have missing : BootTest.holds cfg .firstFlash { b.start cfg m with lower := true } = false := hm
  rw [bootTrace_eq, BootConfig.checkFirstFlash, Script.trace_cond_of_false missing] at hc
  simp only [Script.trace_cmds, Script.trace_done, List.append_nil, List.mem_append,
    List.mem_singleton] at hc
  rcases hc with hc | rfl | hc
  · have all : (cfg.beforeTest b.ready).filterMap BootCmd.action = [] := by
      cases b.ready <;> rfl
    exact List.filterMap_eq_nil_iff.mp all c hc
  · rfl
  · exact action_finish hc

theorem switchRoot_mem_bootTrace (o : BootCmd → Bool) (s : Machine) :
    .switchRoot ∈ cfg.bootTrace o s := by
  refine Script.mem_trace_cmds fun s => Script.mem_trace_cond fun s => Script.mem_trace_cmds fun s =>
    Script.mem_trace_cond fun s => Script.mem_trace_cmds fun s => Script.mem_trace_cond fun s => ?_
  refine Script.mem_trace_cond fun s => Script.mem_trace_cmds fun s => Script.mem_trace_cond fun s => ?_
  simp [Script.trace]

/-! ## What the commands do to the marker -/

/-- The marker is neither on the medium nor seen on it. -/
def Unmarked (cfg : BootConfig) (s : Machine) : Prop :=
  s.files cfg.root.blkdev firstFlashMarker = false ∧ s.marked = false

theorem Unmarked.unmark {dev : Path} (h : Unmarked cfg s) : Unmarked cfg (s.unmark dev) := by
  refine ⟨?_, h.2⟩
  rw [Machine.unmark_files]
  split_ifs
  · rfl
  · exact h.1

theorem Unmarked.setWired {v : Bool} (h : Unmarked cfg s) : Unmarked cfg (s.setWired v) := by
  refine ⟨?_, h.2⟩
  rw [Machine.setWired_files]
  split_ifs with he
  · obtain ⟨p, -, hp⟩ := Option.map_eq_some_iff.mp he
    exact absurd (Prod.ext_iff.mp hp).2 (wiredNetwork_ne _)
  · exact h.1

theorem Unmarked.wipe {dev : Path} (h : Unmarked cfg s) : Unmarked cfg (s.wipe dev) := by
  refine ⟨?_, h.2⟩
  rw [Machine.wipe_files]
  split_ifs
  · rfl
  · exact h.1

/-- Once the marker is off the medium, it stays off. -/
theorem Unmarked.exec {o : BootCmd → Bool} (h : Unmarked cfg s) (c : BootCmd) :
    Unmarked cfg (c.exec cfg o s) := by
  have status : Unmarked cfg { s with status := o c } := h
  refine BootCmd.exec_cases status ?_ fun _ => status.wipe
  cases c with
  | rmFirstFlash => exact status.unmark
  | rmWired | lnWired => exact status.setWired
  | mkfs again k dev => exact status.wipe
  | sync => exact ⟨h.1, h.1⟩
  | _ => exact h

theorem Unmarked.leaves (h : Unmarked cfg (b.last cfg m)) :
    b.leaves cfg m cfg.root.blkdev firstFlashMarker = false := by
  unfold PowerCycle.leaves
  split_ifs
  · exact h.1
  · rw [Machine.setFile_files, if_pos ⟨rfl, rfl⟩]
    exact h.2

/-- Without the marker a boot changes nothing about that, and carries out nothing. -/
theorem boot_of_unmarked (hm : d.media cfg.root.blkdev firstFlashMarker = false) :
    (d.boot cfg b).media cfg.root.blkdev firstFlashMarker = false ∧
      (d.boot cfg b).completed = d.completed := by
  have hstart : Unmarked cfg (b.start cfg d.media) := ⟨hm, hm⟩
  refine ⟨Unmarked.leaves (foldl_invariant (fun c _ s hs => hs.exec c) hstart), ?_⟩
  have none : (b.executed cfg d.media).filterMap BootCmd.action = [] :=
    List.filterMap_eq_nil_iff.mpr fun c hc => action_of_unmarked hm (List.mem_of_mem_take hc)
  simp [Flashed.boot, none]

/-! ## Boots that find the marker -/

/-- The actions of such a boot are those of its first flash. -/
theorem completed_of_marked (hm : d.media cfg.root.blkdev firstFlashMarker = true) :
    (d.boot cfg b).completed =
      d.completed ++ (b.flashCommands cfg).filterMap BootCmd.action := by
  obtain ⟨rest, hrest, htrace⟩ := bootTrace_of_marked (b := b) hm
  have none : (rest.take (b.after - (cfg.beforeTest b.ready ++ (BootConfig.unmark ++ cfg.flash)).length)
      ).filterMap BootCmd.action = [] :=
    List.filterMap_eq_nil_iff.mpr fun c hc => hrest c (List.mem_of_mem_take hc)
  simp only [Flashed.boot, PowerCycle.executed, PowerCycle.flashCommands, htrace]
  rw [List.take_append, List.filterMap_append, none, List.append_nil]

/-- The commands before the removal of the marker. -/
def beforeRemoval (cfg : BootConfig) (b : PowerCycle) : List BootCmd :=
  cfg.beforeTest b.ready ++ [.remountLower]

theorem notMem_beforeRemoval (cfg : BootConfig) (b : PowerCycle) :
    .rmFirstFlash ∉ beforeRemoval cfg b ∧ .sync ∉ beforeRemoval cfg b := by
  simp only [beforeRemoval, BootConfig.beforeTest, BootConfig.setUp]
  cases b.ready <;> simp

theorem writes_beforeRemoval (hc : c ∈ beforeRemoval cfg b) : c.writes = false := by
  revert c
  simp only [beforeRemoval, BootConfig.beforeTest, BootConfig.setUp]
  cases b.ready <;> simp [BootCmd.writes]

/-- What is executed beyond the first flash is executed after all of it. -/
theorem executed_eq (hm : m cfg.root.blkdev firstFlashMarker = true) :
    ∃ tail, b.executed cfg m = b.flashCommands cfg ++ tail ∧ (tail = [] ∨ b.flashCommands cfg =
      beforeRemoval cfg b ++ .rmFirstFlash :: .sync :: .umountLower :: cfg.flash) := by
  obtain ⟨rest, -, htrace⟩ := bootTrace_of_marked (b := b) hm
  have hX : beforeRemoval cfg b ++ .rmFirstFlash :: .sync :: .umountLower :: cfg.flash =
      cfg.beforeTest b.ready ++ (BootConfig.unmark ++ cfg.flash) := by
    simp [beforeRemoval, BootConfig.unmark]
  rw [hX]
  refine ⟨_, by rw [PowerCycle.executed, htrace, List.take_append, PowerCycle.flashCommands], ?_⟩
  rcases Nat.le_total b.after (cfg.beforeTest b.ready ++ (BootConfig.unmark ++ cfg.flash)).length
    with hle | hle
  · exact .inl (by rw [Nat.sub_eq_zero_of_le hle, List.take_zero])
  · exact .inr (List.take_of_length_le hle)

/-- Where a boot that finds the marker may lose power: before the marker is removed, between
its removal and the sync, or later. -/
theorem executed_cases (hm : m cfg.root.blkdev firstFlashMarker = true) :
    (b.executed cfg m <+: beforeRemoval cfg b ∧ .rmFirstFlash ∉ b.flashCommands cfg ∧
      .sync ∉ b.flashCommands cfg) ∨
    (b.executed cfg m = beforeRemoval cfg b ++ [.rmFirstFlash] ∧
      .rmFirstFlash ∈ b.flashCommands cfg ∧ .sync ∉ b.flashCommands cfg) ∨
    ∃ r, b.executed cfg m = beforeRemoval cfg b ++ .rmFirstFlash :: .sync :: r ∧
      .sync ∈ b.flashCommands cfg := by
  obtain ⟨tail, hexec, htail⟩ := executed_eq (b := b) hm
  have hprefix : b.flashCommands cfg <+:
      beforeRemoval cfg b ++ .rmFirstFlash :: (.sync :: .umountLower :: cfg.flash) := by
    have hX : cfg.beforeTest b.ready ++ (BootConfig.unmark ++ cfg.flash) =
        beforeRemoval cfg b ++ .rmFirstFlash :: (.sync :: .umountLower :: cfg.flash) := by
      simp [beforeRemoval, BootConfig.unmark]
    rw [PowerCycle.flashCommands, ← hX]
    exact List.take_prefix _ _
  obtain ⟨hrm, hsync⟩ := notMem_beforeRemoval cfg b
  rcases prefix_split hprefix hrm with ⟨hno, hp⟩ | ⟨q, hq, hp⟩
  · have htail : tail = [] := htail.resolve_right fun h => hno (by rw [h]; simp)
    rw [hexec, htail, List.append_nil]
    exact .inl ⟨hp, hno, fun h => hsync (hp.subset h)⟩
  · rcases q with _ | ⟨x, q⟩
    · have htail : tail = [] := htail.resolve_right fun h => by simp [hq] at h
      rw [hexec, htail, List.append_nil, hq]
      exact .inr (.inl ⟨rfl, by simp, by simp [hsync]⟩)
    · obtain ⟨rfl, -⟩ := List.cons_prefix_cons.mp hp
      refine .inr (.inr ⟨q ++ tail, ?_, ?_⟩)
      · rw [hexec, hq]
        simp
      · rw [hq]
        simp

/-- The root file system is mounted when the marker is to be removed. -/
theorem foldl_beforeRemoval :
    (beforeRemoval cfg b).foldl (fun s c => c.exec cfg (fun _ => true) s) (b.start cfg m) =
      { b.start cfg m with lower := true } := by
  rcases b with ⟨after, flushed, _ | _, networkStatic⟩ <;> rfl

/-- The marker is on the medium as long as its removal has not reached it. -/
theorem media_of_not_unmarks (hm : m cfg.root.blkdev firstFlashMarker = true)
    (h : ¬ b.Unmarks cfg) : b.leaves cfg m = m := by
  have restore : ∀ s : Machine, s.marked = true → (∀ dev f,
      ¬ (dev = cfg.root.blkdev ∧ f = firstFlashMarker) → s.files dev f = m dev f) →
      (s.setFile cfg.root.blkdev firstFlashMarker s.marked).files = m := by
    intro s hmarked hfiles
    funext dev f
    rw [Machine.setFile_files]
    split_ifs with he
    · rw [he.1, he.2, hmarked, hm]
    · exact hfiles dev f he
  rw [PowerCycle.Unmarks, not_or] at h
  rcases executed_cases (b := b) hm with ⟨hp, -, -⟩ | ⟨hexec, hrm, -⟩ | ⟨r, -, hsync⟩
  · -- nothing has happened to the files yet
    have hlast : (b.last cfg m).files = m ∧ (b.last cfg m).marked = true := by
      refine foldl_invariant (P := fun s : Machine => s.files = m ∧ s.marked = true) ?_ ⟨rfl, hm⟩
      intro c hc s hs
      obtain ⟨hfiles, hmarked⟩ :=
        BootCmd.exec_of_not_writes (o := fun _ => true) (s := s)
          (writes_beforeRemoval (hp.subset hc))
      rw [hfiles, hmarked]
      exact hs
    unfold PowerCycle.leaves
    split_ifs
    · exact hlast.1
    · exact restore _ hlast.2 fun dev f _ => by rw [hlast.1]
  · have hflushed : b.flushed = false := by
      by_contra hf
      exact h.2 ⟨hrm, by simpa using hf⟩
    have hlast : b.last cfg m = BootCmd.exec cfg (fun _ => true) .rmFirstFlash
        { b.start cfg m with lower := true } := by
      rw [PowerCycle.last, hexec, List.foldl_append, foldl_beforeRemoval]
      rfl
    rw [PowerCycle.leaves, if_neg (by simp [hflushed]), hlast]
    refine restore _ hm fun dev f he => ?_
    simp [BootCmd.exec, BootCmd.effect, Machine.unmark_files, he, PowerCycle.start,
      BootConfig.powerOn]
  · exact absurd hsync h.1

/-- Until then no action is carried out. -/
theorem actions_of_not_unmarks (hm : m cfg.root.blkdev firstFlashMarker = true)
    (h : ¬ b.Unmarks cfg) : (b.flashCommands cfg).filterMap BootCmd.action = [] := by
  obtain ⟨tail, hexec, -⟩ := executed_eq (b := b) hm
  have hsub : ∀ c ∈ b.flashCommands cfg, c ∈ beforeRemoval cfg b ++ [.rmFirstFlash] := by
    intro c hc
    have hc : c ∈ b.executed cfg m := by
      rw [hexec]
      exact List.mem_append_left _ hc
    rcases executed_cases (b := b) hm with ⟨hp, -, -⟩ | ⟨he, -, -⟩ | ⟨r, -, hsync⟩
    · exact List.mem_append_left _ (hp.subset hc)
    · rwa [he] at hc
    · exact absurd (.inl hsync) h
  refine List.filterMap_eq_nil_iff.mpr fun c hc => ?_
  have all : (beforeRemoval cfg b ++ [BootCmd.rmFirstFlash]).filterMap BootCmd.action = [] := by
    rw [beforeRemoval]
    cases b.ready <;> rfl
  exact List.filterMap_eq_nil_iff.mp all c (hsub c hc)

/-- Otherwise it is gone. -/
theorem media_of_unmarks (hm : m cfg.root.blkdev firstFlashMarker = true) (h : b.Unmarks cfg) :
    b.leaves cfg m cfg.root.blkdev firstFlashMarker = false := by
  rcases executed_cases (b := b) hm with ⟨-, hrm, hsync⟩ | ⟨hexec, hrm, hsync⟩ | ⟨r, hexec, -⟩
  · exact absurd h (by simp [PowerCycle.Unmarks, hrm, hsync])
  · have hflushed : b.flushed = true := by simpa [PowerCycle.Unmarks, hrm, hsync] using h
    rw [PowerCycle.leaves, if_pos hflushed, PowerCycle.last, hexec, List.foldl_append,
      foldl_beforeRemoval]
    simp [BootCmd.exec, BootCmd.effect, Machine.unmark_files]
  · refine Unmarked.leaves ?_
    rw [PowerCycle.last, hexec, List.foldl_append, foldl_beforeRemoval, List.foldl_cons,
      List.foldl_cons]
    refine foldl_invariant (fun c _ s hs => hs.exec c) ?_
    simp [Unmarked, BootCmd.exec, BootCmd.effect, Machine.unmark_files]

/-! ## Histories -/

theorem factory_marked : (factory cfg m).media cfg.root.blkdev firstFlashMarker = true := by
  simp [factory]

theorem switchRoot_notMem_flashCommands : .switchRoot ∉ b.flashCommands cfg := by
  intro h
  have hdevice : ∀ b, .switchRoot ∉ BootConfig.prepareDevice b := by
    rintro ⟨name, _ | f, _ | part⟩ <;> simp [BootConfig.prepareDevice]
  have hformat : ∀ m, .switchRoot ∉ BootConfig.formatFirst m := by
    intro m
    unfold BootConfig.formatFirst
    split_ifs <;> simp
  have hflash : .switchRoot ∉ cfg.flash := by simp [BootConfig.flash, hdevice, hformat]
  have hbefore : .switchRoot ∉ cfg.beforeTest b.ready := by
    simp only [BootConfig.beforeTest, BootConfig.setUp]
    cases b.ready <;> simp
  have := List.mem_of_mem_take h
  simp [BootConfig.unmark, hflash, hbefore] at this

/-- A boot that reaches `switch_root` with the marker present has executed the first flash. -/
theorem completed_of_switchRoot (hm : d.media cfg.root.blkdev firstFlashMarker = true)
    (h : .switchRoot ∈ b.executed cfg d.media) : ∀ a ∈ cfg.actions, a ∈ (d.boot cfg b).completed := by
  obtain ⟨tail, hexec, rfl | hall⟩ := executed_eq (b := b) hm
  · rw [hexec, List.append_nil] at h
    exact absurd h switchRoot_notMem_flashCommands
  · intro a ha
    rw [← filterMap_flash] at ha
    rw [completed_of_marked hm, hall, List.filterMap_append]
    exact List.mem_append_right _ (List.mem_append_right _ ha)

/-- Every device has a boot that reaches `switch_root`. -/
theorem exists_switchRoot (cfg : BootConfig) (m : Media) :
    ∃ b : PowerCycle, .switchRoot ∈ b.executed cfg m := by
  let t := cfg.bootTrace (fun _ => true) (({ after := 0, flushed := true } : PowerCycle).start cfg m)
  refine ⟨{ after := t.length, flushed := true }, ?_⟩
  change .switchRoot ∈ t.take t.length
  rw [List.take_length]
  exact switchRoot_mem_bootTrace _ _

/-- What a history makes of a device without the marker. -/
theorem foldl_of_unmarked (hm : d.media cfg.root.blkdev firstFlashMarker = false)
    (p : List PowerCycle) : (p.foldl (Flashed.boot cfg) d).completed = d.completed := by
  induction p generalizing d with
  | nil => rfl
  | cons b p ih => rw [List.foldl_cons, ih (boot_of_unmarked hm).1, (boot_of_unmarked hm).2]

/-- `provisioned_iff` from any device that has the marker and has carried out nothing: no boot of a
history starts the system with an action left exactly if the history is safe. -/
theorem provisioned_iff_of_marked (hm : d.media cfg.root.blkdev firstFlashMarker = true)
    (hd : d.completed = []) (h : List PowerCycle) :
    (∀ p, p <+: h → ∀ b : PowerCycle,
      .switchRoot ∈ b.executed cfg (p.foldl (Flashed.boot cfg) d).media →
        ∀ a ∈ cfg.actions, a ∈ ((p ++ [b]).foldl (Flashed.boot cfg) d).completed) ↔
      FlashSafe cfg h := by
  have now : ∀ b : PowerCycle, .switchRoot ∈ b.executed cfg d.media →
      ∀ a ∈ cfg.actions, a ∈ (d.boot cfg b).completed := fun b hb => completed_of_switchRoot hm hb
  induction h generalizing d with
  | nil => simpa [FlashSafe] using now
  | cons b h ih =>
    have hsplit : (∀ p, p <+: b :: h → ∀ b' : PowerCycle,
        .switchRoot ∈ b'.executed cfg (p.foldl (Flashed.boot cfg) d).media →
          ∀ a ∈ cfg.actions, a ∈ ((p ++ [b']).foldl (Flashed.boot cfg) d).completed) ↔
        ∀ p, p <+: h → ∀ b' : PowerCycle,
          .switchRoot ∈ b'.executed cfg (p.foldl (Flashed.boot cfg) (d.boot cfg b)).media →
            ∀ a ∈ cfg.actions, a ∈ ((p ++ [b']).foldl (Flashed.boot cfg) (d.boot cfg b)).completed := by
      constructor
      · intro hall p hp
        simpa only [List.foldl_cons, List.cons_append] using hall (b :: p) (by simpa using hp)
      · intro hall p hp
        rcases List.prefix_cons_iff.mp hp with rfl | ⟨q, rfl, hq⟩
        · simpa only [List.foldl_nil, List.nil_append, List.foldl_cons] using now
        · simpa only [List.foldl_cons, List.cons_append] using hall q hq
    rw [hsplit, FlashSafe]
    by_cases hu : b.Unmarks cfg
    · -- from here on nothing is carried out any more
      have hgone : (d.boot cfg b).media cfg.root.blkdev firstFlashMarker = false :=
        media_of_unmarks hm hu
      have hdone : (d.boot cfg b).completed = (b.flashCommands cfg).filterMap BootCmd.action := by
        rw [completed_of_marked hm, hd, List.nil_append]
      rw [if_pos hu, ← hdone]
      constructor
      · intro hall a ha
        obtain ⟨b', hb'⟩ := exists_switchRoot cfg (d.boot cfg b).media
        have := hall [] List.nil_prefix b' hb' a ha
        rwa [foldl_of_unmarked hgone] at this
      · intro hall p hp b' hb' a ha
        rw [foldl_of_unmarked hgone]
        exact hall a ha
    · have hmedia : (d.boot cfg b).media = d.media := media_of_not_unmarks hm hu
      have hdone : (d.boot cfg b).completed = [] := by
        rw [completed_of_marked hm, hd, List.nil_append]
        exact actions_of_not_unmarks hm hu
      rw [if_neg hu]
      refine ih (by rw [hmedia]; exact hm) hdone ?_
      exact fun b' hb' => completed_of_switchRoot (by rw [hmedia]; exact hm) hb'

end FirstFlash

/-- **The first flash survives power loss exactly if** the boot that gets the removal of the
marker onto the medium completes every action. -/
theorem provisioned_iff (cfg : BootConfig) (m : Media) (h : List PowerCycle) :
    Provisioned cfg m h ↔ FlashSafe cfg h :=
  provisioned_iff_of_marked factory_marked rfl h

/-- Power is lost right after the `sync` that follows the removal of the marker. -/
def lostAfterSync : PowerCycle := { after := 19, flushed := false }

/-- The next boot goes into a system none of whose partitions has been touched. -/
theorem not_provisioned_lostAfterSync :
    (lostAfterSync.flashCommands rpiBoot).getLast? = some .sync ∧
      ∀ m, ¬ Provisioned rpiBoot m [lostAfterSync] := by
  refine ⟨by decide, fun m h => ?_⟩
  have safe : FlashSafe rpiBoot [lostAfterSync] :=
    (provisioned_iff_of_marked factory_marked rfl [lostAfterSync]).mp h
  rw [FlashSafe, if_pos (by decide)] at safe
  exact absurd safe (by decide)

end VeRoot
