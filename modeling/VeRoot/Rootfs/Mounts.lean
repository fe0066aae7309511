import VeRoot.Build.Rebuild
import VeRoot.Engine.Acyclic
import VeRoot.Make.History
import VeRoot.Rootfs.Layers

/-!
# What is mounted beneath the root file system

`debian-initramfs` binds its output directory to `$(ROOTFS)/mnt` and leaves it there.  The next
provisioning deletes what is mounted together with `$(ROOTFS)`, and an image that is made
afterwards has it inside.

## Main definitions

* `RootfsCmd`, `rootfsRecipe` — the recipes, as far as mounts are concerned.
* `RootfsBuild` — one run of make.
* `Whole` — the tasks that delete or copy all of `$(ROOTFS)`.
* `NoForeignMount` — nothing is mounted when such a task starts.
* `noForeignMount_iff` — the main result.
-/

namespace VeRoot

open Make

/-! ## Recipes -/

/-- A command of a recipe. -/
inductive RootfsCmd
  /-- A command that leaves the mounts beneath `$(ROOTFS)` alone. -/
  | task (c : String)
  /-- `-umount $(ROOTFS)/mnt` -/
  | umount
  /-- `mount --bind $(INITRAMFS_OUT) $(ROOTFS)/mnt` -/
  | bind
  deriving DecidableEq, Repr

/-- What a command does to the number of mounts on `$(ROOTFS)/mnt`, a directory that may be there
from an earlier recipe with the same `$(OUT)`.  To unmount may fail, which is ignored; when
another command fails the run ends. -/
inductive RootfsCmd.Does : RootfsCmd → ℕ → ℕ → Prop
  | task (c : String) (mnt : ℕ) : Does (.task c) mnt mnt
  | umount (mnt : ℕ) : Does .umount (mnt + 1) mnt
  | umountFails (mnt : ℕ) : Does .umount mnt mnt
  | bind (mnt : ℕ) : Does .bind mnt (mnt + 1)

/-- Commands that leave the mounts alone. -/
def tasks (cs : List String) : List RootfsCmd := cs.map .task

/-- The recipe of `$(debian-provision)`. -/
def provisionRecipe : List RootfsCmd :=
  tasks ["-rm -rf $(ROOTFS)", "mkdir -p $(ROOTFS)",
    "rsync -av $(BUILD_debian-debootstrap)/rootfs/* $(ROOTFS)/", "$(stamp)"]

/-- The recipe of `$(debian-rootfs-patch)`. -/
def rootfsPatchRecipe : List RootfsCmd :=
  tasks ["rm -rf $(ROOTFS)", "mkdir -p $(ROOTFS)", "rsync -av $(ROOTFS_OUT)/* $(ROOTFS)/",
    "python3 $(BASE_debian-rootfs)/rootfspatch/generate.py " ++
      "$(BASE_debian-rootfs)/rootfspatch/rootfs $(ROOTFS) " ++
      "$(call select_file,$(TOP)/config.json,$(RECIPE)/config.json)", "$(stamp)"]

/-- The recipe of `$(debian-initramfs)`. -/
def initramfsRecipe : List RootfsCmd :=
  tasks ["@echo", "mkdir -p $(INITRAMFS_OUT)"] ++ [.umount, .bind] ++
    tasks ["$(QEMU_START)", "chroot $(ROOTFS) mkinitramfs -v -o /mnt/initramfs v0.0.1",
      "$(QEMU_DONE)", "cd $(INITRAMFS_OUT) && zcat initramfs | cpio -idmv", "$(stamp)"]

/-- The recipe of `$(rootfs-tarball)`. -/
def tarballRecipe : List RootfsCmd := tasks ["tar cvf $@ -C $(ROOTFS) ."]

/-- The recipe of `$(rootfs-ext4-image)`, which mounts the image in its build directory. -/
def ext4Recipe (encrypted firstFlash : Bool) : List RootfsCmd :=
  tasks (["-umount $(builddir)/mntfs", "mkdir -p $(dir $@)", "-rm $@.tmp",
      "fallocate -l $(SYSTEM_IMAGE_SIZE) $@.tmp", "-mkdir $(builddir)/mntfs"] ++
    (if encrypted then
      ["-cryptsetup luksClose rbImage", "cryptsetup -q luksFormat $@.tmp -",
        "cryptsetup luksOpen $@.tmp rbImage -", "mkfs.ext4 /dev/mapper/rbImage",
        "mount /dev/mapper/rbImage $(builddir)/mntfs"]
     else ["mkfs.ext4 $@.tmp", "mount -o loop -t ext4 $@.tmp $(builddir)/mntfs"]) ++
    ["rsync -av $(ROOTFS)/ $(builddir)/mntfs/", "sync"] ++
    (if firstFlash then ["touch $(builddir)/mntfs/.first-flash"] else []) ++
    ["umount $(builddir)/mntfs", "sync", "rm -rf $(builddir)/mntfs"] ++
    (if encrypted then ["cryptsetup luksClose rbImage"] else []) ++ ["mv $@.tmp $@", "touch $@"])

/-- The recipe of every node.  That of any other node `n` has the commands `others n`. -/
def rootfsRecipe (firstFlash : Bool) (others : Node → List String) (n : Node) : List RootfsCmd :=
  if n = .target initramfsStamp then initramfsRecipe
  else if n = .target provisionStamp then provisionRecipe
  else if n = .target rootfsPatchStamp then rootfsPatchRecipe
  else if n = .target rootfsTar then tarballRecipe
  else if n = .target (ext4Image false) then ext4Recipe false firstFlash
  else if n = .target (ext4Image true) then ext4Recipe true firstFlash
  else tasks (others n)

/-- The tasks that delete or copy the whole of `$(ROOTFS)`.  `make mrproper` is none of them: it
deletes `$(OUT)`, and means what is mounted as well. -/
def Whole (n : Node) : Prop :=
  n = .target provisionStamp ∨ n = .target rootfsPatchStamp ∨ n = .target rootfsTar ∨
    ∃ b, n = .target (ext4Image b)

/-! ## Runs -/

/-- One run of make: its goals, the recipes of other nodes, and what make finds. -/
structure RootfsBuild where
  goals : Node → Prop
  /-- `CONFIG_EXT4_IMAGE_FIRST_FLASH` is `y`. -/
  firstFlash : Bool
  others : Node → List String
  /-- When make executes the recipe of a file. -/
  outdated : State Node RootfsCmd ℕ → Node → Prop
  /-- When make leaves a file as it is. -/
  upToDate : State Node RootfsCmd ℕ → Node → Prop

section Runs

variable (cfg : Config) (evs : Reading) (W : Walk cfg evs)

/-- The runs of a build. -/
def RootfsBuild.system (B : RootfsBuild) : System Node RootfsCmd ℕ where
  prereq := Prereq (makefile cfg evs)
  drop := W.drop
  drop_circular := W.drop_circular
  wanted n := ∃ g, B.goals g ∧ Relation.ReflTransGen (Prereq (makefile cfg evs)) g n
  recipe := rootfsRecipe B.firstFlash B.others
  exec := RootfsCmd.Does
  mayMake s n := IsTarget (makefile cfg evs) n ∧ (Phony n ∨ B.outdated s n)
  mayKeep s n := ¬ (Phony n ∧ IsTarget (makefile cfg evs) n) ∧ B.upToDate s n

/-- A run, up to its end or to a failure. -/
structure RootfsRun where
  build : RootfsBuild
  /-- The state in which it ends. -/
  last : State Node RootfsCmd ℕ

namespace RootfsRun

/-- The mounts that a run leaves behind. -/
def after (_ : ℕ) (r : RootfsRun) : ℕ := r.last.world

/-- Make can come to this state. -/
def Happens (mnt : ℕ) (r : RootfsRun) : Prop := (r.build.system cfg evs W).Reachable mnt r.last

/-- Nothing is mounted whenever a task starts that deletes or copies the whole tree. -/
def Clear (mnt : ℕ) (r : RootfsRun) : Prop :=
  ∀ s s', (r.build.system cfg evs W).Reachable mnt s → (r.build.system cfg evs W).Step s s' →
    Relation.ReflTransGen (r.build.system cfg evs W).Step s' r.last →
      ∀ n, Whole n → s.phase n = .idle → (s'.phase n).Running → s.world = 0

end RootfsRun

/-- In every sequence of runs. -/
def NoForeignMount : Prop :=
  ∀ rs, Along RootfsRun.after (RootfsRun.Happens cfg evs W) 0 rs →
    Along RootfsRun.after (RootfsRun.Clear cfg evs W) 0 rs

end Runs

section Mounts

variable {cfg : Config} {evs : Reading} {W : Walk cfg evs} {B : RootfsBuild} {mnt mnt' : ℕ}
  {s s' : State Node RootfsCmd ℕ} {n m : Node} {c : RootfsCmd} {firstFlash : Bool}
  {others : Node → List String} {rest : List RootfsCmd} {f : LayerFile}

/-! ## One run -/

/-- Only the initramfs has to do with mounts. -/
theorem task_of_mem (hn : n ≠ .target initramfsStamp) (hc : c ∈ rootfsRecipe firstFlash others n) :
    ∃ t, c = .task t := by
  have all : ∀ cs, c ∈ tasks cs → ∃ t, c = .task t := by
    intro cs hc
    obtain ⟨t, -, rfl⟩ := List.mem_map.mp hc
    exact ⟨t, rfl⟩
  rw [rootfsRecipe, if_neg hn] at hc
  split_ifs at hc
  all_goals exact all _ hc

/-- A command of another recipe leaves the mounts alone. -/
theorem RootfsBuild.world_eq_of_exec (hs : (B.system cfg evs W).Reachable mnt s)
    (hn : n ≠ .target initramfsStamp) (running : s.phase n = .running (c :: rest))
    (does : RootfsCmd.Does c s.world mnt') : mnt' = s.world := by
  obtain ⟨t, rfl⟩ := task_of_mem hn ((hs.suffix running).subset List.mem_cons_self)
  cases does
  rfl

/-- What is executed has a rule. -/
theorem RootfsBuild.isTarget_of_executed (h : (B.system cfg evs W).Reachable mnt s)
    (hn : (s.phase n).Executed) : IsTarget (makefile cfg evs) n := by
  refine h.invariant (P := fun s => (s.phase n).Executed → IsTarget (makefile cfg evs) n)
    (fun h => h.elim) ?_ hn
  intro s s' _ ih step hn
  rcases step.phase_cases n with same | ⟨-, -, -, -, ⟨may, -⟩ | ⟨-, kept⟩⟩ |
    ⟨c, rest, running, -⟩ | ⟨running, -⟩
  · exact ih (same ▸ hn)
  · exact may.1
  · simp [kept] at hn
  · exact ih (by simp [running])
  · exact ih (by simp [running])

/-- **Without the initramfs nothing is mounted**, in any run. -/
theorem RootfsBuild.world_eq (absent : ¬ IsTarget (makefile cfg evs) (.target initramfsStamp))
    (h : (B.system cfg evs W).Reachable mnt s) : s.world = mnt := by
  refine h.invariant (P := fun s => s.world = mnt) rfl ?_
  intro s s' hs ih step
  cases step with
  | make | keep | finish => exact ih
  | exec m c rest w running does =>
    have hm : m ≠ .target initramfsStamp := by
      rintro rfl
      exact absent (isTarget_of_executed hs (by simp [running]))
    rw [← ih]
    exact world_eq_of_exec hs hm running does

/-- Where the mount is. -/
structure Bound (mnt : ℕ) (s : State Node RootfsCmd ℕ) : Prop where
  /-- Before the initramfs is begun, or when it is kept, the mounts are as they were. -/
  before : s.phase (.target initramfsStamp) = .idle ∨ s.phase (.target initramfsStamp) = .kept →
    s.world = mnt
  /-- Once it has mounted its directory, it stays. -/
  running : ∀ rest, s.phase (.target initramfsStamp) = .running rest → .bind ∉ rest → 0 < s.world
  made : s.phase (.target initramfsStamp) = .made → 0 < s.world

/-- A step of another task leaves it where it is. -/
theorem Bound.of_other (h : Bound mnt s)
    (phase : s'.phase (.target initramfsStamp) = s.phase (.target initramfsStamp))
    (world : s'.world = s.world) : Bound mnt s' := by
  constructor
  · rw [phase, world]
    exact h.before
  · rw [phase, world]
    exact h.running
  · rw [phase, world]
    exact h.made

/-- The mount follows the unmount. -/
theorem bind_mem_of_umount (h : .umount :: rest <:+ initramfsRecipe) : .bind ∈ rest := by
  simp [initramfsRecipe, tasks, List.suffix_cons_iff] at h
  simp [h]

/-- **The directory stays mounted.** -/
theorem RootfsBuild.bound (h : (B.system cfg evs W).Reachable mnt s) : Bound mnt s := by
  refine h.invariant (P := Bound mnt) ⟨fun _ => rfl, by simp [System.start], by simp [System.start]⟩
    ?_
  intro s s' hs ih step
  cases step with
  | make m idle =>
    by_cases e : .target initramfsStamp = m
    · subst e
      refine ⟨by simp, fun rest hr hbind => ?_, by simp⟩
      obtain rfl : initramfsRecipe = rest := by simpa [system, rootfsRecipe] using hr
      exact absurd (by decide) hbind
    · exact ih.of_other (by simp [e]) rfl
  | keep m idle =>
    by_cases e : .target initramfsStamp = m
    · subst e
      exact ⟨fun _ => ih.before (.inl idle), by simp, by simp⟩
    · exact ih.of_other (by simp [e]) rfl
  | finish m running =>
    by_cases e : .target initramfsStamp = m
    · subst e
      exact ⟨by simp, by simp, fun _ => ih.running [] running (by simp)⟩
    · exact ih.of_other (by simp [e]) rfl
  | exec m c rest w running does =>
    have does : RootfsCmd.Does c s.world w := does
    by_cases e : .target initramfsStamp = m
    · subst e
      refine ⟨by simp, fun rest' hr hbind => ?_, by simp⟩
      obtain rfl : rest = rest' := by simpa using hr
      have suffix : c :: rest <:+ initramfsRecipe := hs.suffix running
      cases c with
      | task t =>
        cases does
        exact ih.running _ running (by simpa using hbind)
      | umount => exact absurd (bind_mem_of_umount suffix) hbind
      | bind =>
        cases does
        exact Nat.succ_pos _
    · exact ih.of_other (by simp [e]) (world_eq_of_exec hs (Ne.symm e) running does)

/-! ## Sequences of runs -/

/-- Make remakes everything that has a rule. -/
def rebuildAll (evs : Reading) (cfg : Config) : RootfsBuild where
  goals g := g = .all
  firstFlash := false
  others _ := []
  outdated _ n := IsTarget (makefile cfg evs) n
  upToDate _ n := ¬ IsTarget (makefile cfg evs) n

theorem exists_does (c : RootfsCmd) (mnt : ℕ) : ∃ mnt', RootfsCmd.Does c mnt mnt' := by
  cases c with
  | task t => exact ⟨_, .task t mnt⟩
  | umount => exact ⟨_, .umountFails mnt⟩
  | bind => exact ⟨_, .bind mnt⟩

/-- What has a rule is not kept then. -/
theorem rebuildAll_not_kept (h : ((rebuildAll evs cfg).system cfg evs W).Reachable mnt s)
    (hn : IsTarget (makefile cfg evs) n) : s.phase n ≠ .kept := by
  refine h.invariant (P := fun s => s.phase n ≠ .kept) (by simp [System.start]) ?_
  intro s s' _ ih step
  rcases step.phase_cases n with same | ⟨-, -, -, -, ⟨-, running⟩ | ⟨may, -⟩⟩ |
    ⟨c, rest, -, running, -⟩ | ⟨-, made, -⟩
  · rwa [same]
  · simp [running]
  · exact absurd hn may.2
  · simp [running]
  · simp [made]

/-- Such a run can finish a set of nodes. -/
theorem exists_rebuilt (C : Set Node) (closed : ∀ a ∈ C, ∀ b,
      ((rebuildAll evs cfg).system cfg evs W).Honours a b → b ∈ C)
    (wanted : ∀ n ∈ C, Relation.ReflTransGen (Prereq (makefile cfg evs)) .all n) (mnt : ℕ) :
    ∃ s, ((rebuildAll evs cfg).system cfg evs W).Reachable mnt s ∧
      (∀ n ∈ C, (s.phase n).Finished) ∧ ∀ n ∉ C, s.phase n = .idle := by
  have may : ∀ s n, ((rebuildAll evs cfg).system cfg evs W).mayMake s n ∨
      ((rebuildAll evs cfg).system cfg evs W).mayKeep s n := by
    intro s n
    by_cases hn : IsTarget (makefile cfg evs) n
    · exact .inl ⟨hn, .inr hn⟩
    · exact .inr ⟨fun h => hn h.2, hn⟩
  exact System.exists_finished exists_does (P := fun _ => True) (fun _ _ _ _ => trivial)
    (fun s n _ _ _ => may s n) W.acyclic (s := System.start mnt) trivial C
    ((finite_descendants _ _).subset wanted) closed (fun n hn => ⟨.all, rfl, wanted n hn⟩)
    (fun m _ => by simp [System.start, Phase.Running])

/-- **A build with the initramfs leaves it mounted**, and the next build deletes or copies the
tree with it. -/
theorem not_noForeignMount (hi : Registered evs (.target initramfsStamp)) (hw : Whole n)
    (hn : Registered evs n) : ¬ NoForeignMount cfg evs W := by
  intro h
  have wanted : ∀ {n}, Registered evs n →
      Relation.ReflTransGen (Prereq (makefile cfg evs)) .all n := by
    rintro n ⟨f, hf, t, ht, rfl⟩
    have asked : (project cfg evs W fun _ => []).system.wanted (.target t) := wanted_target hf ht
    exact asked
  -- the first build finishes everything
  obtain ⟨s₁, run₁, done₁, -⟩ := exists_rebuilt (W := W)
    {m | Relation.ReflTransGen (Prereq (makefile cfg evs)) .all m} (fun a ha b e => ha.tail e.1)
    (fun m hm => hm) 0
  have pos₁ : 0 < s₁.world := by
    have done := done₁ _ (wanted hi)
    have kept := rebuildAll_not_kept run₁ (isTarget_of_registered hi)
    cases hp : s₁.phase (.target initramfsStamp) with
    | made => exact (RootfsBuild.bound run₁).made hp
    | kept => exact absurd hp kept
    | idle | running cs => simp [hp] at done
  -- the second one comes to the task
  obtain ⟨s₂, run₂, done₂, idle₂⟩ := exists_rebuilt (W := W)
    {m | Relation.TransGen ((rebuildAll evs cfg).system cfg evs W).Honours n m}
    (fun a ha b e => ha.tail e) (fun m hm => (wanted hn).trans
      (Relation.TransGen.mono (fun _ _ e => e.1) _ _ hm).to_reflTransGen) s₁.world
  have pos₂ : 0 < s₂.world := by
    have bound := RootfsBuild.bound run₂
    by_cases hm : Relation.TransGen ((rebuildAll evs cfg).system cfg evs W).Honours n
        (.target initramfsStamp)
    · have done := done₂ _ hm
      cases hp : s₂.phase (.target initramfsStamp) with
      | made => exact bound.made hp
      | kept => exact (bound.before (.inr hp)).symm ▸ pos₁
      | idle | running cs => simp [hp] at done
    · exact (bound.before (.inl (idle₂ _ hm))).symm ▸ pos₁
  have idle : s₂.phase n = .idle := idle₂ n (W.acyclic n)
  have start : ((rebuildAll evs cfg).system cfg evs W).Step s₂ _ :=
    .make n idle ⟨.all, rfl, wanted hn⟩ (fun m e nd => done₂ m (.single ⟨e, nd⟩))
      ⟨isTarget_of_registered hn, .inr (isTarget_of_registered hn)⟩
  have clear := h [⟨rebuildAll evs cfg, s₁⟩, ⟨rebuildAll evs cfg, _⟩]
    ⟨run₁, run₂.step start, trivial⟩
  have zero := clear.2.1 s₂ _ run₂ start .refl n hw idle (by simp [Phase.Running])
  omega

/-- **Nothing is ever mounted beneath the root file system when it is deleted or copied exactly
if the recipe does not include `debian-initramfs`**, or nothing that deletes or copies the tree. -/
theorem noForeignMount_iff (cfg : Config) (evs : Reading) (W : Walk cfg evs) :
    NoForeignMount cfg evs W ↔
      ¬ Registered evs (.target initramfsStamp) ∨ ∀ n, Whole n → ¬ Registered evs n := by
  constructor
  · intro h
    by_cases hi : Registered evs (.target initramfsStamp)
    · exact .inr fun n hw hn => not_noForeignMount hi hw hn h
    · exact .inl hi
  · rintro (absent | absent) rs happens
    · -- no run ever mounts anything
      have absent : ¬ IsTarget (makefile cfg evs) (.target initramfsStamp) :=
        fun h => absent (registered_of_isTarget h)
      refine happens.of_invariant (I := fun mnt => mnt = 0) ?_ rfl
      rintro mnt r rfl happens
      exact ⟨fun s s' hs _ _ n _ _ _ => RootfsBuild.world_eq absent hs,
        RootfsBuild.world_eq absent happens⟩
    · -- no such task is ever executed
      refine happens.mono fun mnt r _ s s' hs step _ n hw _ begun => ?_
      have rule := RootfsBuild.isTarget_of_executed (hs.step step) (Phase.Running.executed begun)
      obtain ⟨t, rfl⟩ : ∃ t, n = .target t := by
        rcases hw with rfl | rfl | rfl | ⟨b, rfl⟩ <;> exact ⟨_, rfl⟩
      exact absurd (registered_of_isTarget rule) (absent _ hw)

/-- The layers of the repository that delete or copy the tree register such a task. -/
theorem exists_whole_registered (c : RecipeTree) (hf : f ∈ layersOf evs)
    (h : f = debianProvision ∨ f = debianRootfs c ∨ f = rootfsTarball ∨ f = rootfsExt4Image c) :
    ∃ n, Whole n ∧ Registered evs n := by
  rcases h with rfl | rfl | rfl | rfl
  · exact ⟨_, .inl rfl, _, hf, _, .head _, rfl⟩
  · exact ⟨_, .inr (.inl rfl), _, hf, _, .tail _ (.head _), rfl⟩
  · exact ⟨_, .inr (.inr (.inl rfl)), _, hf, _, .head _, rfl⟩
  · exact ⟨_, .inr (.inr (.inr ⟨c.encrypted, rfl⟩)), _, hf, _, .head _, rfl⟩

/-- So a recipe with the initramfs and one of these layers has it mounted there. -/
theorem not_noForeignMount_of_layers (c : RecipeTree) (hi : debianInitramfs ∈ layersOf evs)
    (hf : f ∈ layersOf evs)
    (h : f = debianProvision ∨ f = debianRootfs c ∨ f = rootfsTarball ∨ f = rootfsExt4Image c) :
    ¬ NoForeignMount cfg evs W := by
  obtain ⟨n, hw, hn⟩ := exists_whole_registered c hf h
  exact not_noForeignMount ⟨_, hi, _, .head _, rfl⟩ hw hn

end Mounts

/-! ## A recipe -/

/-- The tree is provisioned, its initramfs is made, and it is packed. -/
def tarballReading : Reading :=
  [.layer debianDebootstrap, .layer debianProvision, .layer debianInitramfs, .layer rootfsTarball]

theorem acyclic_tarball : Acyclic (Prereq (makefile ⟨true, false⟩ tarballReading)) := by
  have own : ∀ f ∈ layersOf tarballReading, ∀ e ∈ f.waits, ∀ e' ∈ f.waits, e.2 ≠ e'.1 := by decide
  have kept : Distinct tarballReading ∧ DisjointTargets tarballReading ∧
      Earlier tarballReading := by
    decide
  obtain ⟨hn, hd, he⟩ := kept
  exact acyclic_of_earlier hn hd (fun f hf => acyclic_waits (own f hf)) he

/-- **The tarball has the initramfs in it**: nothing unmounts `$(ROOTFS)/mnt`. -/
theorem not_noForeignMount_tarball :
    ¬ NoForeignMount ⟨true, false⟩ tarballReading (.ofAcyclic acyclic_tarball) := by
  have initramfs : debianInitramfs ∈ layersOf tarballReading := by decide
  have tarball : rootfsTarball ∈ layersOf tarballReading := by decide
  exact not_noForeignMount ⟨_, initramfs, _, .head _, rfl⟩ (.inr (.inr (.inl rfl)))
    ⟨_, tarball, _, .head _, rfl⟩

end VeRoot
