import VeRoot.Engine.Layer
import VeRoot.Store.WriteBack
import VeRoot.Unix.Script
import Mathlib.Data.List.Infix
import Mathlib.Data.List.TakeDrop

/-!
# The firmware update

`layers/debian/bootramfs/ramdisk/updateinit.sh` writes the images it finds on `/data`
to the boot and root partitions, renames the request and syncs.  It is the init of
the image that the request names: as long as the request is there, the next boot
makes another attempt.

No command is checked, and power may be lost after any.  What is written reaches
the medium some time before the sync, block by block, and so does the renaming.

## Main definitions

* `UpdateFiles`, `updateinit` — what is on `/data`, and the script.
* `Attempt`, `Attempt.state`, `afterAttempts` — boots into the script.
* `UpdateSafe` — what is wanted of a history of attempts.
* `SafeAttempts` — when power may be lost, and commands may fail.
* `updateSafe` — the main result.
-/

namespace VeRoot

open Unix Store

/-- A partition that is written. -/
inductive Partition
  | boot | root
  deriving DecidableEq, Repr

/-- A block of one of them. -/
abbrev Block := Partition × ℕ

/-- A file that is renamed to `….done`. -/
inductive Request
  | updateimage | bootimage
  deriving DecidableEq, Repr

/-- What is on `/data`. -/
structure UpdateFiles (β : Type*) where
  bootImg : Option (List β) := none
  systemImg : Option (List β) := none
  /-- What `gunzip` makes of `system.img.gz`. -/
  systemImgGz : Option (List β) := none
  /-- The requests, renamed or not. -/
  present : Request → Bool

/-- A command of the script. -/
inductive UpdateCmd
  | sleep | echo | mkdir (d : Path) | mountVirtual (fs d : Path) | mountData
  /-- `pv /data/boot.img | dd` -/
  | ddBoot
  /-- `pv /data/system.img | dd` -/
  | ddSystem
  /-- `pv /data/system.img.gz | gunzip -c | dd` -/
  | ddSystemGz
  /-- `again` for the second time. -/
  | e2fsck (again : Bool)
  | resize2fs
  | mv (r : Request)
  | sync | reboot
  deriving DecidableEq, Repr

/-- A test of the script: a file exists. -/
inductive UpdateTest
  | bootImg | systemImg | systemImgGz | request (r : Request)
  deriving DecidableEq, Repr

/-! ## The script -/

section Script

open UpdateCmd

/-- The commands before the first test. -/
def updateSetUp : List UpdateCmd :=
  [sleep, echo, mkdir "/proc", mkdir "/sys", mkdir "/mnt", mkdir "/data",
    mountVirtual "proc" "/proc", mountVirtual "sysfs" "/sys", mountVirtual "devtmpfs" "/dev",
    mountVirtual "tmpfs" "/mnt", echo, mountData]

/-- What is done with a compressed image. -/
def installGz : List UpdateCmd := [echo, ddSystemGz, e2fsck false, resize2fs, e2fsck true]

/-- The end of the script. -/
def updateEnd : List UpdateCmd := [sync, sleep, echo, sleep, reboot]

/-- The part that renames the requests. -/
def updateRequests : Script UpdateCmd UpdateTest :=
  .cond (.request .updateimage) (.cmds [mv .updateimage] .done) .done <|
  .cond (.request .bootimage) (.cmds [mv .bootimage] .done) .done <|
  .cmds updateEnd .done

/-- The part that installs the system image, and what follows it. -/
def updateSystem : Script UpdateCmd UpdateTest :=
  .cond .systemImg (.cmds [echo, ddSystem] .done)
    (.cond .systemImgGz (.cmds installGz .done) .done .done) updateRequests

/-- The generated `updateinit.sh`. -/
def updateinit : Script UpdateCmd UpdateTest :=
  .cmds updateSetUp <|
  .cond .bootImg (.cmds [echo, ddBoot] .done) .done updateSystem

end Script

/-! ## One attempt -/

/-- How a pipeline into `dd` ends. -/
inductive Pipeline (β : Type*)
  | succeeds
  /-- One of its commands fails, and `dd` has written this. -/
  | fails (written : List β)

/-- What a pipeline writes that has the image at its beginning. -/
def Pipeline.writes {β : Type*} (p : Pipeline β) (img : List β) : List β :=
  match p with
  | succeeds => img
  | fails written => written

/-- One boot into the script: how its commands end, and what reaches the medium when. -/
structure Attempt (β : Type*) where
  /-- `/data` can be mounted. -/
  mounts : Bool := true
  boot : Pipeline β := .succeeds
  system : Pipeline β := .succeeds
  systemGz : Pipeline β := .succeeds
  /-- What `e2fsck` writes. -/
  e2fsck : Bool → ℕ → Option β := fun _ _ => none
  /-- What `resize2fs` writes. -/
  resize2fs : ℕ → Option β := fun _ => none
  /-- The blocks that reach the medium after the command of this number. -/
  settleBlocks : ℕ → Block → Bool := fun _ _ => false
  /-- The names that do. -/
  settleNames : ℕ → Request → Bool := fun _ _ => false
  /-- Power is lost after that many commands, if there are that many. -/
  after : ℕ

/-- A device that is switched off. -/
structure Device (β : Type*) where
  blocks : Block → β
  /-- The request has been renamed. -/
  retired : Request → Bool

/-- The machine while the script runs. -/
structure Updater (β : Type*) where
  blocks : Disk Block β
  retired : Disk Request Bool
  /-- `/data` is mounted. -/
  data : Bool := false
  /-- How many commands have been executed. -/
  clock : ℕ := 0

variable {β : Type*}

/-- The blocks that a command writes. -/
def UpdateCmd.writes (f : UpdateFiles β) (a : Attempt β) : UpdateCmd → Block → Option β
  | .ddBoot, (.boot, n) => (a.boot.writes (f.bootImg.getD []))[n]?
  | .ddSystem, (.root, n) => (a.system.writes (f.systemImg.getD []))[n]?
  | .ddSystemGz, (.root, n) => (a.systemGz.writes (f.systemImgGz.getD []))[n]?
  | .e2fsck again, (.root, n) => a.e2fsck again n
  | .resize2fs, (.root, n) => a.resize2fs n
  | _, _ => none

/-- What a command does to what the machine reads. -/
def UpdateCmd.effect (f : UpdateFiles β) (a : Attempt β) (c : UpdateCmd) (s : Updater β) :
    Updater β :=
  match c with
  | .mountData => { s with data := a.mounts }
  | .mv r => { s with retired := s.retired.write fun q => if q = r then some true else none }
  | .sync => { s with blocks := s.blocks.sync, retired := s.retired.sync }
  | c => { s with blocks := s.blocks.write (c.writes f a) }

/-- What a command does, and what then reaches the medium. -/
def UpdateCmd.exec (f : UpdateFiles β) (a : Attempt β) (c : UpdateCmd) (s : Updater β) :
    Updater β :=
  let t := c.effect f a s
  { t with
    blocks := t.blocks.settle (a.settleBlocks s.clock)
    retired := t.retired.settle (a.settleNames s.clock)
    clock := s.clock + 1 }

/-- The file that a test looks for is on the data partition. -/
def UpdateTest.finds (f : UpdateFiles β) (t : UpdateTest) (s : Updater β) : Bool :=
  match t with
  | .bootImg => f.bootImg.isSome
  | .systemImg => f.systemImg.isSome
  | .systemImgGz => f.systemImgGz.isSome
  | .request r => f.present r && !s.retired.cache r

/-- How a test comes out. -/
def UpdateTest.holds (f : UpdateFiles β) (t : UpdateTest) (s : Updater β) : Bool :=
  s.data && t.finds f s

namespace Attempt

variable (f : UpdateFiles β) (a : Attempt β) (d : Device β)

/-- The machine when it is switched on. -/
def start : Updater β where
  blocks := .found d.blocks
  retired := .found d.retired

/-- The commands of the attempt, if power is not lost. -/
def trace : List UpdateCmd := updateinit.trace (UpdateCmd.exec f a) (UpdateTest.holds f) (start d)

/-- The machine after `n` commands. -/
def state (n : ℕ) : Updater β := ((a.trace f d).take n).foldl (fun s c => c.exec f a s) (start d)

/-- What the attempt leaves. -/
def leaves : Device β where
  blocks := (a.state f d a.after).blocks.medium
  retired := (a.state f d a.after).retired.medium

end Attempt

/-- A device on which an update is requested. -/
def requested (m : Block → β) : Device β := ⟨m, fun _ => false⟩

/-- The device after some attempts.  There are none after the request is renamed. -/
def afterAttempts (f : UpdateFiles β) (m : Block → β) (h : List (Attempt β)) : Device β :=
  h.foldl (fun d a => if d.retired .updateimage then d else a.leaves f d) (requested m)

/-! ## What is wanted -/

/-- What the update puts into a block. -/
def UpdateFiles.image (f : UpdateFiles β) : Block → Option β
  | (.boot, n) => f.bootImg.bind fun img => img[n]?
  | (.root, n) => (f.systemImg.or f.systemImgGz).bind fun img => img[n]?

namespace Attempt

variable (f : UpdateFiles β) (a : Attempt β) (d : Device β)

/-- `e2fsck` or `resize2fs` writes to the block. -/
def Repairs (l : Block) : Prop :=
  l.1 = .root ∧ f.systemImg = none ∧
    ((a.e2fsck false l.2).isSome = true ∨ (a.resize2fs l.2).isSome = true ∨
      (a.e2fsck true l.2).isSome = true)

/-- The blocks hold the images, up to the repairs. -/
def Installed (blocks : Block → β) : Prop :=
  ∀ l b, f.image l = some b → ¬ a.Repairs f l → blocks l = b

/-- Every pipeline writes all of its image. -/
structure Delivers : Prop where
  boot : ∀ img, f.bootImg = some img → img <+: a.boot.writes img
  system : ∀ img, f.systemImg = some img → img <+: a.system.writes img
  systemGz : f.systemImg = none → ∀ img, f.systemImgGz = some img → img <+: a.systemGz.writes img

/-- The attempt is complete. -/
structure Completes : Prop where
  mounts : a.mounts = true
  delivers : a.Delivers f
  powered : (a.trace f d).length ≤ a.after

end Attempt

/-- The request is only gone when the update is there; and a complete attempt makes up for the
others. -/
structure UpdateSafe (f : UpdateFiles β) (m : Block → β) (h : List (Attempt β)) : Prop where
  retired : ∀ p a, p ++ [a] <+: h → (afterAttempts f m p).retired .updateimage = false →
    ∀ n ≤ a.after, (a.state f (afterAttempts f m p) n).retired.medium .updateimage = true →
      a.Installed f (a.state f (afterAttempts f m p) n).blocks.medium
  same : ∀ p a, p ++ [a] <+: h → a.Completes f (afterAttempts f m p) →
    ∀ u : Attempt β, u.Completes f (requested m) → ∀ l, (f.image l).isSome = true →
      (∀ a' ∈ p ++ [a], ¬ a'.Repairs f l) → ¬ u.Repairs f l →
        (afterAttempts f m (p ++ [a])).blocks l = (u.leaves f (requested m)).blocks l

/-! ## When it is so -/

/-- An attempt renames the request only after all images are written, and the renaming does not
reach the medium before them. -/
structure Attempt.Safe (f : UpdateFiles β) (a : Attempt β) (d : Device β) : Prop where
  delivers : .mv .updateimage ∈ (a.trace f d).take a.after → a.Delivers f
  ordered : ∀ n < a.after, ∀ c, (a.trace f d)[n]? = some c →
    (c.effect f a (a.state f d n)).retired.cache .updateimage = true →
      a.settleNames n .updateimage = true → ∀ l, (f.image l).isSome = true →
        a.settleBlocks n l = true ∨ (c.effect f a (a.state f d n)).blocks.medium l =
          (c.effect f a (a.state f d n)).blocks.cache l

/-- All attempts that are made are safe. -/
def SafeAttempts (f : UpdateFiles β) (m : Block → β) (h : List (Attempt β)) : Prop :=
  ∀ p a, p ++ [a] <+: h → (afterAttempts f m p).retired .updateimage = false →
    a.Safe f (afterAttempts f m p)

section Update

variable {f : UpdateFiles β} {a u : Attempt β} {d : Device β} {s : Updater β} {c : UpdateCmd}
  {cs : List UpdateCmd} {m : Block → β} {l : Block} {r : Request} {b : β} {n : ℕ}

/-! ## What the commands do -/

namespace UpdateCmd

theorem exec_cache : (c.exec f a s).blocks.cache l = (c.writes f a l).getD (s.blocks.cache l) := by
  cases c <;> rfl

theorem exec_cache_of_some (h : c.writes f a l = some b) : (c.exec f a s).blocks.cache l = b := by
  rw [exec_cache, h, Option.getD_some]

theorem exec_cache_of_none (h : c.writes f a l = none) :
    (c.exec f a s).blocks.cache l = s.blocks.cache l := by
  rw [exec_cache, h, Option.getD_none]

theorem exec_data (h : c ≠ .mountData) : (c.exec f a s).data = s.data := by
  cases c with
  | mountData => exact absurd rfl h
  | _ => rfl

theorem exec_retired (h : c ≠ .mv r) : (c.exec f a s).retired.cache r = s.retired.cache r := by
  cases c with
  | mv q =>
    have hne : ¬ r = q := fun he => h (by rw [he])
    simp [UpdateCmd.exec, UpdateCmd.effect, Disk.write, hne]
  | _ => rfl

/-- Before the request is renamed, it is not renamed on the medium either. -/
theorem exec_pending (h : c ≠ .mv r)
    (hs : s.retired.cache r = false ∧ s.retired.medium r = false) :
    (c.exec f a s).retired.cache r = false ∧ (c.exec f a s).retired.medium r = false := by
  refine ⟨(exec_retired h).trans hs.1, ?_⟩
  have effect : (c.effect f a s).retired.cache r = false ∧ (c.effect f a s).retired.medium r = false := by
    refine ⟨(exec_retired (c := c) (a := a) h).trans hs.1, ?_⟩
    cases c with
    | sync => exact hs.1
    | _ => exact hs.2
  exact Disk.forall_settle (P := (· = false)) effect.1 effect.2

theorem foldl_pending (h : .mv r ∉ cs)
    (hs : s.retired.cache r = false ∧ s.retired.medium r = false) :
    (cs.foldl (fun s c => c.exec f a s) s).retired.cache r = false ∧
      (cs.foldl (fun s c => c.exec f a s) s).retired.medium r = false :=
  foldl_invariant (P := fun s : Updater β => s.retired.cache r = false ∧ s.retired.medium r = false)
    (fun _ hc _ hs => exec_pending (fun he => h (he ▸ hc)) hs) hs

theorem foldl_retired (h : .mv r ∉ cs) :
    (cs.foldl (fun s c => c.exec f a s) s).retired.cache r = s.retired.cache r :=
  foldl_invariant (P := fun t : Updater β => t.retired.cache r = s.retired.cache r)
    (fun _ hc _ ht => (exec_retired fun he => h (he ▸ hc)).trans ht) rfl

theorem foldl_data_of_notMem (h : .mountData ∉ cs) :
    (cs.foldl (fun s c => c.exec f a s) s).data = s.data :=
  foldl_invariant (P := fun t : Updater β => t.data = s.data)
    (fun _ hc _ ht => (exec_data fun he => h (he ▸ hc)).trans ht) rfl

end UpdateCmd

open UpdateCmd

/-! ## The commands of an attempt -/

namespace Attempt

/-- The commands that install `boot.img`. -/
def installBoot (f : UpdateFiles β) (a : Attempt β) : List UpdateCmd :=
  if a.mounts = true ∧ f.bootImg.isSome = true then [.echo, .ddBoot] else []

/-- The commands that install the system image. -/
def installSystem (f : UpdateFiles β) (a : Attempt β) : List UpdateCmd :=
  if a.mounts = true ∧ f.systemImg.isSome = true then [.echo, .ddSystem]
  else if a.mounts = true ∧ f.systemImgGz.isSome = true then installGz else []

/-- The command that renames a request. -/
def retire (f : UpdateFiles β) (a : Attempt β) (d : Device β) (r : Request) : List UpdateCmd :=
  if a.mounts = true ∧ f.present r = true ∧ d.retired r = false then [.mv r] else []

theorem notMem_install {c : UpdateCmd} (h : c = .mountData ∨ c = .mv r ∨ c = .sync) :
    c ∉ a.installBoot f ++ a.installSystem f := by
  unfold installBoot installSystem
  rcases h with rfl | rfl | rfl <;> split_ifs <;> simp [installGz]

theorem notMem_retire {c : UpdateCmd} (h : c ≠ .mv r) : c ∉ a.retire f d r := by
  unfold retire
  split_ifs <;> simp [h]

theorem data_after (hcs : .mountData ∉ cs) :
    ((updateSetUp ++ cs).foldl (fun s c => c.exec f a s) (start d)).data = a.mounts := by
  rw [List.foldl_append, foldl_data_of_notMem hcs]
  rfl

theorem holds_request (hdata : .mountData ∉ cs) (hmv : .mv r ∉ cs) :
    (UpdateTest.request r).holds f
      ((updateSetUp ++ cs).foldl (fun s c => c.exec f a s) (start d)) =
        decide (a.mounts = true ∧ f.present r = true ∧ d.retired r = false) := by
  have hcs : .mv r ∉ updateSetUp ++ cs := by simp [updateSetUp, hmv]
  rw [UpdateTest.holds, data_after hdata, UpdateTest.finds, foldl_retired hcs]
  simp [start, Bool.decide_and]

theorem trace_eq : a.trace f d = updateSetUp ++ (a.installBoot f ++ a.installSystem f) ++
    (a.retire f d .updateimage ++ a.retire f d .bootimage) ++ updateEnd := by
  have hboot : .mountData ∉ a.installBoot f := fun h =>
    notMem_install (f := f) (a := a) (r := .updateimage) (.inl rfl) (List.mem_append_left _ h)
  have himages := notMem_install (f := f) (a := a) (r := .updateimage) (.inl rfl)
  have hsystem : (Script.cond .systemImgGz (.cmds installGz .done) .done .done).trace
      (UpdateCmd.exec f a) (UpdateTest.holds f)
        ((updateSetUp ++ a.installBoot f).foldl (fun s c => c.exec f a s) (start d)) =
          if a.mounts = true ∧ f.systemImgGz.isSome = true then installGz else [] := by
    refine (Script.Resumes.start.cond ?_ Script.trace_cmds_done Script.trace_done).done
    rw [List.foldl_nil, UpdateTest.holds, data_after hboot]
    simp [UpdateTest.finds, Bool.decide_and]
  have boot : Script.Resumes (UpdateCmd.exec f a) (UpdateTest.holds f) updateinit (start d)
      (updateSetUp ++ a.installBoot f) updateSystem := by
    refine Script.Resumes.start.cmds.cond ?_ Script.trace_cmds_done Script.trace_done
    rw [List.nil_append, UpdateTest.holds, ← List.append_nil updateSetUp, data_after (by simp)]
    simp [UpdateTest.finds, Bool.decide_and]
  have system : Script.Resumes (UpdateCmd.exec f a) (UpdateTest.holds f) updateinit (start d)
      (updateSetUp ++ (a.installBoot f ++ a.installSystem f)) updateRequests := by
    rw [← List.append_assoc]
    refine boot.cond ?_ Script.trace_cmds_done hsystem
    rw [UpdateTest.holds, data_after hboot]
    simp [UpdateTest.finds, Bool.decide_and]
  have update := system.cond (holds_request himages (notMem_install (.inr (.inl rfl))))
    Script.trace_cmds_done Script.trace_done
  rw [List.append_assoc] at update
  have bootimage := update.cond (holds_request (r := .bootimage) ?_ ?_) Script.trace_cmds_done
    Script.trace_done
  · rw [List.append_assoc, List.append_assoc] at bootimage
    rw [trace, bootimage.cmds.done]
    simp only [retire, List.append_assoc]
  · exact fun h => (List.mem_append.mp h).elim himages (notMem_retire (by simp))
  · exact fun h => (List.mem_append.mp h).elim (notMem_install (.inr (.inl rfl)))
      (notMem_retire (by simp))

/-! ## The images -/

/-- What is delivered at a position of the image. -/
theorem getElem?_of_delivers {img : List β} {ws : List β} (h : img <+: ws)
    (hb : img[n]? = some b) : ws[n]? = some b := by
  obtain ⟨rest, rfl⟩ := h
  obtain ⟨hn, -⟩ := List.getElem?_eq_some_iff.mp hb
  rw [List.getElem?_append_left hn, hb]

/-- Once the commands that install are executed, the images can be read. -/
theorem cache_install (hm : a.mounts = true) (hd : a.Delivers f) (hl : f.image l = some b)
    (hr : ¬ a.Repairs f l) (s : Updater β) :
    ((updateSetUp ++ (a.installBoot f ++ a.installSystem f)).foldl (fun s c => c.exec f a s) s
      ).blocks.cache l = b := by
  have last : ∀ c : UpdateCmd, c.writes f a l = some b → ∀ cs : List UpdateCmd,
      (∀ c ∈ cs, c.writes f a l = none ∨ c.writes f a l = some b) → ∀ s : Updater β,
        ((c :: cs).foldl (fun s c => c.exec f a s) s).blocks.cache l = b := fun c hc cs hcs s =>
    foldl_of_last (fun s : Updater β => s.blocks.cache l) (fun c => c.writes f a l)
      (fun s c a h => exec_cache_of_some h) (fun s c h => exec_cache_of_none h) hc hcs s
  rcases l with ⟨_ | _, n⟩
  · obtain ⟨img, himg, hb⟩ := Option.bind_eq_some_iff.mp hl
    have hw : UpdateCmd.ddBoot.writes f a (.boot, n) = some b := by
      simp only [UpdateCmd.writes, himg, Option.getD_some]
      exact getElem?_of_delivers (hd.boot img himg) hb
    have hrest : ∀ c ∈ a.installSystem f, c.writes f a (.boot, n) = none := by
      unfold installSystem
      split_ifs <;> simp [installGz, UpdateCmd.writes]
    have split : a.installBoot f = [.echo, .ddBoot] := if_pos ⟨hm, by simp [himg]⟩
    rw [split, List.foldl_append, List.foldl_append, List.foldl_cons, ← List.foldl_append]
    exact last _ hw _ (fun c hc => .inl (hrest c hc)) _
  · obtain ⟨img, himg, hb⟩ := Option.bind_eq_some_iff.mp hl
    rw [List.foldl_append, List.foldl_append]
    cases hsystem : f.systemImg with
    | some img' =>
      obtain rfl : img' = img := by simpa [hsystem] using himg
      have hw : UpdateCmd.ddSystem.writes f a (.root, n) = some b := by
        simp only [UpdateCmd.writes, hsystem, Option.getD_some]
        exact getElem?_of_delivers (hd.system img' hsystem) hb
      have split : a.installSystem f = [.echo, .ddSystem] := if_pos ⟨hm, by simp [hsystem]⟩
      rw [split, List.foldl_cons]
      exact last _ hw [] (by simp) _
    | none =>
      have hgz : f.systemImgGz = some img := by simpa [hsystem] using himg
      have hw : UpdateCmd.ddSystemGz.writes f a (.root, n) = some b := by
        simp only [UpdateCmd.writes, hgz, Option.getD_some]
        exact getElem?_of_delivers (hd.systemGz hsystem img hgz) hb
      have split : a.installSystem f = installGz := by
        rw [installSystem, if_neg (by simp [hsystem]), if_pos ⟨hm, by simp [hgz]⟩]
      -- what is written after the image are repairs
      have hrest : ∀ c ∈ [UpdateCmd.e2fsck false, .resize2fs, .e2fsck true],
          c.writes f a (.root, n) = none := by
        simpa [Repairs, hsystem, UpdateCmd.writes] using hr
      rw [split, installGz, List.foldl_cons]
      exact last _ hw _ (fun c hc => .inl (hrest c hc)) _

/-! ## The medium -/

/-- The images can be read, and once the request is renamed on the medium they are there too. -/
structure Ready (f : UpdateFiles β) (a : Attempt β) (s : Updater β) : Prop where
  cache : a.Installed f s.blocks.cache
  medium : s.retired.medium .updateimage = true → a.Installed f s.blocks.medium

theorem installed_exec (hc : ∀ l, c.writes f a l = none) (hs : a.Installed f s.blocks.cache) :
    a.Installed f (c.exec f a s).blocks.cache := fun l b hl hr => by
  rw [exec_cache_of_none (hc l), hs l b hl hr]

/-- What a command that writes no block does to the medium, before anything settles. -/
theorem medium_effect (hc : ∀ l, c.writes f a l = none) :
    (c.effect f a s).blocks.cache = s.blocks.cache ∧
      (((c.effect f a s).blocks.medium = s.blocks.medium ∧
          (c.effect f a s).retired.medium = s.retired.medium) ∨
        (c.effect f a s).blocks.medium = s.blocks.cache) := by
  refine ⟨?_, ?_⟩
  · funext l
    exact exec_cache_of_none (hc l)
  · cases c with
    | sync => exact .inr rfl
    | _ => exact .inl ⟨rfl, rfl⟩

/-- The step: such a command, when the renaming does not reach the medium before the images. -/
theorem Ready.exec (hs : Ready f a s) (hc : ∀ l, c.writes f a l = none)
    (hord : (c.effect f a s).retired.cache .updateimage = true →
      a.settleNames s.clock .updateimage = true → ∀ l, (f.image l).isSome = true →
        a.settleBlocks s.clock l = true ∨
          (c.effect f a s).blocks.medium l = (c.effect f a s).blocks.cache l) :
    Ready f a (c.exec f a s) := by
  refine ⟨installed_exec hc hs.cache, fun hret l b hl hr => ?_⟩
  obtain ⟨hcache, hmedium⟩ := medium_effect (s := s) hc
  have hb : (c.effect f a s).blocks.cache l = b := by rw [hcache, hs.cache l b hl hr]
  change ((c.effect f a s).retired.settle (a.settleNames s.clock)).medium .updateimage = true at hret
  change ((c.effect f a s).blocks.settle (a.settleBlocks s.clock)).medium l = b
  cases hn : a.settleNames s.clock .updateimage with
  | true =>
    rw [Disk.settle_medium_of_mem hn] at hret
    rcases hord hret hn l (by simp [hl]) with hS | heq
    · rw [Disk.settle_medium_of_mem hS, hb]
    · exact Disk.forall_settle (P := (· = b)) hb (heq.trans hb)
  | false =>
    rw [Disk.settle_medium_of_notMem hn] at hret
    refine Disk.forall_settle (P := (· = b)) hb ?_
    rcases hmedium with ⟨hblocks, hnames⟩ | hblocks
    · rw [hnames] at hret
      rw [hblocks, hs.medium hret l b hl hr]
    · rw [hblocks, hs.cache l b hl hr]

/-- What is renamed is renamed after the installation, and writes no block. -/
theorem writes_rest (hc : c ∈ a.retire f d .updateimage ++ a.retire f d .bootimage ++ updateEnd)
    (l : Block) : c.writes f a l = none := by
  have renames : ∀ r, ∀ c ∈ a.retire f d r, c.writes f a l = none := by
    intro r
    unfold retire
    split_ifs <;> simp [UpdateCmd.writes]
  have ends : ∀ c ∈ updateEnd, c.writes f a l = none := by simp [updateEnd, UpdateCmd.writes]
  rcases List.mem_append.mp hc with hc | hc
  · rcases List.mem_append.mp hc with hc | hc <;> exact renames _ c hc
  · exact ends c hc

theorem state_succ (h : (a.trace f d)[n]? = some c) :
    a.state f d (n + 1) = c.exec f a (a.state f d n) := by
  rw [state, List.take_add_one, h, List.foldl_append]
  rfl

theorem state_succ_of_none (h : (a.trace f d)[n]? = none) :
    a.state f d (n + 1) = a.state f d n := by
  rw [state, List.take_add_one, h, Option.toList_none, List.append_nil]
  rfl

theorem clock_foldl : (cs.foldl (fun s c => c.exec f a s) s).clock = s.clock + cs.length := by
  induction cs generalizing s with
  | nil => rfl
  | cons c cs ih =>
    rw [List.foldl_cons, ih, List.length_cons]
    change s.clock + 1 + cs.length = s.clock + (cs.length + 1)
    omega

theorem clock_state (h : (a.trace f d)[n]? = some c) : (a.state f d n).clock = n := by
  obtain ⟨hn, -⟩ := List.getElem?_eq_some_iff.mp h
  rw [state, clock_foldl, List.length_take, Nat.min_eq_left hn.le]
  exact Nat.zero_add n

theorem mounts_of_mv_mem (h : .mv r ∈ a.trace f d) : a.mounts = true := by
  by_contra hm
  have hretire : ∀ q, a.retire f d q = [] := fun q => if_neg fun hq => hm hq.1
  rw [trace_eq, hretire, hretire] at h
  simp only [List.append_nil, List.mem_append, or_assoc] at h
  rcases h with h | h | h | h
  · simp [updateSetUp] at h
  · exact notMem_install (.inr (.inl rfl)) (List.mem_append_left _ h)
  · exact notMem_install (.inr (.inl rfl)) (List.mem_append_right _ h)
  · simp [updateEnd] at h

/-- The run: in a safe attempt the request is only renamed on the medium when the images are
there. -/
theorem installed_of_retired (hsafe : a.Safe f d) (hd : d.retired .updateimage = false)
    (hn : n ≤ a.after) (hret : (a.state f d n).retired.medium .updateimage = true) :
    a.Installed f (a.state f d n).blocks.medium := by
  have pending : ∀ j, .mv .updateimage ∉ (a.trace f d).take j →
      (a.state f d j).retired.medium .updateimage = false := fun j hj =>
    (foldl_pending (s := start d) hj ⟨hd, hd⟩).2
  have hmv : .mv .updateimage ∈ (a.trace f d).take n := by
    by_contra hmv
    exact absurd (hret.symm.trans (pending n hmv)) (by decide)
  have hmounts : a.mounts = true := mounts_of_mv_mem (List.mem_of_mem_take hmv)
  have hdelivers : a.Delivers f :=
    hsafe.delivers ((List.take_prefix_take_left hn).subset hmv)
  set pre := updateSetUp ++ (a.installBoot f ++ a.installSystem f) with hpre
  have htrace : a.trace f d =
      pre ++ (a.retire f d .updateimage ++ a.retire f d .bootimage ++ updateEnd) := by
    rw [trace_eq, hpre]
    simp only [List.append_assoc]
  have hpremv : .mv .updateimage ∉ pre := by
    intro h
    rcases List.mem_append.mp h with h | h
    · simp [updateSetUp] at h
    · exact notMem_install (.inr (.inl rfl)) h
  have hlen : pre.length ≤ n := by
    by_contra hlt
    rw [htrace, List.take_append_of_le_length (by omega)] at hmv
    exact hpremv (List.mem_of_mem_take hmv)
  have ready : ∀ j, pre.length + j ≤ a.after → Ready f a (a.state f d (pre.length + j)) := by
    intro j
    induction j with
    | zero =>
      intro _
      have hstate : a.state f d pre.length = pre.foldl (fun s c => c.exec f a s) (start d) := by
        rw [state, htrace, List.take_left']
        rfl
      refine ⟨fun l b hl hr => ?_, fun hret => ?_⟩
      · rw [Nat.add_zero, hstate]
        exact cache_install hmounts hdelivers hl hr _
      · rw [Nat.add_zero, hstate, (foldl_pending (s := start d) hpremv ⟨hd, hd⟩).2] at hret
        exact absurd hret (by decide)
    | succ j ih =>
      intro hj
      have hs := ih (by omega)
      rw [← Nat.add_assoc]
      cases hc : (a.trace f d)[pre.length + j]? with
      | none => rwa [state_succ_of_none hc]
      | some c =>
        have hrest : c ∈ a.retire f d .updateimage ++ a.retire f d .bootimage ++ updateEnd := by
          rw [htrace, List.getElem?_append_right (by omega)] at hc
          exact List.mem_of_getElem? hc
        rw [state_succ hc]
        refine hs.exec (writes_rest hrest) ?_
        rw [clock_state hc]
        exact hsafe.ordered _ (by omega) c hc
  have := ready (n - pre.length) (by omega)
  rw [Nat.add_sub_cancel' hlen] at this
  exact this.medium hret

/-- A complete attempt leaves the images on the medium. -/
theorem installed_leaves (hc : a.Completes f d) : a.Installed f (a.leaves f d).blocks := by
  have htrace : a.trace f d = updateSetUp ++ (a.installBoot f ++ a.installSystem f) ++
      ((a.retire f d .updateimage ++ a.retire f d .bootimage) ++
        [.sync] ++ [.sleep, .echo, .sleep, .reboot]) := by
    rw [trace_eq]
    simp [updateEnd]
  have hstate : a.state f d a.after = (a.trace f d).foldl (fun s c => c.exec f a s) (start d) := by
    rw [state, List.take_of_length_le hc.powered]
  -- the images are in the cache until the sync, and on the medium from then on
  have cache : a.Installed f ((a.retire f d .updateimage ++ a.retire f d .bootimage).foldl
      (fun s c => c.exec f a s) ((updateSetUp ++ (a.installBoot f ++ a.installSystem f)).foldl
        (fun s c => c.exec f a s) (start d))).blocks.cache := by
    refine foldl_invariant (P := fun s : Updater β => a.Installed f s.blocks.cache)
      (fun c hmem s hs => installed_exec (writes_rest (List.mem_append_left _ hmem)) hs) ?_
    exact fun l b hl hr => cache_install hc.mounts hc.delivers hl hr _
  have synced : ∀ s : Updater β, a.Installed f s.blocks.cache →
      a.Installed f (UpdateCmd.sync.exec f a s).blocks.cache ∧
        a.Installed f (UpdateCmd.sync.exec f a s).blocks.medium := fun s hs =>
    ⟨hs, fun l b hl hr => Disk.forall_settle (P := (· = b)) (hs l b hl hr) (hs l b hl hr)⟩
  have kept : ∀ c ∈ [UpdateCmd.sleep, .echo, .sleep, .reboot], ∀ s : Updater β,
      a.Installed f s.blocks.cache ∧ a.Installed f s.blocks.medium →
        a.Installed f (c.exec f a s).blocks.cache ∧ a.Installed f (c.exec f a s).blocks.medium := by
    intro c hmem s hs
    have hwrites : ∀ l, c.writes f a l = none := fun l =>
      writes_rest (d := d) (List.mem_append_right _ (List.mem_cons_of_mem _ hmem)) l
    refine ⟨installed_exec hwrites hs.1, fun l b hl hr => ?_⟩
    obtain ⟨hcache, hmedium⟩ := medium_effect (s := s) hwrites
    refine Disk.forall_settle (P := (· = b)) (by rw [hcache, hs.1 l b hl hr]) ?_
    rcases hmedium with ⟨hblocks, -⟩ | hblocks
    · rw [hblocks, hs.2 l b hl hr]
    · rw [hblocks, hs.1 l b hl hr]
  have run : ∀ xs ys zs : List UpdateCmd,
      (xs ++ (ys ++ [UpdateCmd.sync] ++ zs)).foldl (fun s c => c.exec f a s) (start d) =
        zs.foldl (fun s c => c.exec f a s) (UpdateCmd.sync.exec f a
          (ys.foldl (fun s c => c.exec f a s) (xs.foldl (fun s c => c.exec f a s) (start d)))) := by
    intro xs ys zs
    simp only [List.foldl_append, List.foldl_cons, List.foldl_nil]
  have done := foldl_invariant kept (synced _ cache)
  rw [leaves, hstate, htrace, run]
  exact done.2

end Attempt

/-! ## Histories -/

theorem afterAttempts_concat (p : List (Attempt β)) : afterAttempts f m (p ++ [a]) =
    if (afterAttempts f m p).retired .updateimage = true then afterAttempts f m p
    else a.leaves f (afterAttempts f m p) := by
  rw [afterAttempts, List.foldl_append]
  rfl

/-- When the request is gone, one of the attempts has left the images. -/
theorem exists_installed {h p : List (Attempt β)} (hs : SafeAttempts f m h) (hp : p <+: h)
    (hret : (afterAttempts f m p).retired .updateimage = true) :
    ∃ a ∈ p, a.Installed f (afterAttempts f m p).blocks := by
  induction p using List.reverseRecOn with
  | nil => exact absurd hret (by simp [afterAttempts, requested])
  | append_singleton p a ih =>
    rw [afterAttempts_concat] at hret ⊢
    cases hd : (afterAttempts f m p).retired .updateimage with
    | true =>
      obtain ⟨a', ha', hinst⟩ := ih ((List.prefix_append p [a]).trans hp) hd
      rw [if_pos rfl]
      exact ⟨a', List.mem_append_left _ ha', hinst⟩
    | false =>
      simp only [hd, Bool.false_eq_true, if_false] at hret ⊢
      exact ⟨a, by simp, Attempt.installed_of_retired (hs p a hp hd) hd le_rfl hret⟩

end Update

/-- **The update is retired only when it is complete and durable**, in every history of attempts
that are safe. -/
theorem updateSafe (f : UpdateFiles β) (m : Block → β) (h : List (Attempt β))
    (hs : SafeAttempts f m h) : UpdateSafe f m h where
  retired p a hp hd n hn hret := Attempt.installed_of_retired (hs p a hp hd) hd hn hret
  same p a hp hc u hu l hl hrepairs hu' := by
    obtain ⟨b, hb⟩ := Option.isSome_iff_exists.mp hl
    rw [Attempt.installed_leaves hu l b hb hu']
    cases hd : (afterAttempts f m (p ++ [a])).retired .updateimage with
    | true =>
      obtain ⟨a', ha', hinst⟩ := exists_installed hs hp hd
      exact hinst l b hb (hrepairs a' ha')
    | false =>
      have hpending : ¬ (afterAttempts f m p).retired .updateimage = true := by
        intro hret
        rw [afterAttempts_concat, if_pos hret, hret] at hd
        exact absurd hd (by decide)
      rw [afterAttempts_concat, if_neg hpending]
      exact Attempt.installed_leaves hc l b hb (hrepairs a (by simp))

/-- A device of which every block holds 0, and an update of one block of the boot partition. -/
def bootUpdate : UpdateFiles ℕ where
  bootImg := some [1]
  present r := r == .updateimage

/-- Power is lost before the image is on the medium; the next attempt is complete. -/
theorem updateSafe_lostOnce :
    UpdateSafe bootUpdate (fun _ => 0) [{ after := 14 }, { after := 20 }] := by
  refine updateSafe _ _ _ fun p a hp _ => ?_
  have ha : a ∈ [({ after := 14 } : Attempt ℕ), { after := 20 }] := hp.subset (by simp)
  simp only [List.mem_cons, List.not_mem_nil, or_false] at ha
  rcases ha with rfl | rfl
  all_goals
    refine ⟨fun _ => ⟨?_, ?_, ?_⟩, ?_⟩
    · exact fun _ _ => List.prefix_rfl
    · exact fun _ _ => List.prefix_rfl
    · exact fun _ _ _ => List.prefix_rfl
    · exact fun _ _ _ _ _ h => absurd h Bool.false_ne_true

/-- `pv` cannot read the image. -/
def unread : Attempt ℕ := { boot := .fails [], after := 20 }

/-- Power is lost when the renaming is on the medium, and the image is not. -/
def lostAfterRename : Attempt ℕ :=
  { settleNames := fun n r => n == 14 && r == .updateimage, after := 15 }

/-- In both cases the request is gone, and the image is not there. -/
theorem not_updateSafe : ¬ UpdateSafe bootUpdate (fun _ => 0) [unread] ∧
    ¬ UpdateSafe bootUpdate (fun _ => 0) [lostAfterRename] := by
  refine ⟨fun h => ?_, fun h => ?_⟩
  · have := h.retired [] unread (by simp) rfl 20 le_rfl (by decide) (.boot, 0) 1 (by decide)
      (fun hr => absurd hr.1 (by decide))
    exact absurd this (by decide)
  · have := h.retired [] lostAfterRename (by simp) rfl 15 le_rfl (by decide) (.boot, 0) 1 (by decide)
      (fun hr => absurd hr.1 (by decide))
    exact absurd this (by decide)

end VeRoot
