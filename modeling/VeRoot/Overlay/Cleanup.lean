import VeRoot.Overlay.Discipline
import VeRoot.Make.History
import VeRoot.Make.Outline

/-!
# Cleaning up under mounts

`L_x.overlay_umount` and `L_x.invalidate` remove directories that others are mounted on:
`$(BUILD)/L_x` is bound at `overlay-builddir` and the source directory of the layer,
read-only, at `overlay`.  They unmount first, but an `umount` may fail, and its failure is
ignored.

A mount hides what was mounted at the same place before, and an `umount -R` takes away what
was mounted there last, with everything below it.

## Main definitions

* `Binds`, `Mounts`, `Host` — what is mounted on `$(OVERLAYFS)/L_x/mnt`, and the files.
* `Cmd.Acts` — what a command of a recipe may do to them.
* `Session` — one make that builds, or cleans one layer.
* `Confined` — what is removed next lies in `$(OVERLAYFS)/L_x` itself.
* `Session.careful` — the runs in which no `umount -R` leaves `$(BUILD)/L_x` bound.
* `cleanup_confined` — the main result.
-/

namespace VeRoot

open Make

/-- What is bound in one view of `$(OVERLAYFS)/L_x/mnt`. -/
structure Binds where
  /-- How often the source directory is bound at `overlay`. -/
  overlay : ℕ := 0
  /-- How often `$(BUILD)/L_x` is bound at `overlay-builddir`. -/
  builddir : ℕ := 0
  deriving DecidableEq, Repr

/-- What is mounted on `$(OVERLAYFS)/L_x/mnt`. -/
structure Mounts where
  /-- The overlays, the last one first, each with what is bound in it. -/
  overlays : List Binds := []
  /-- What is bound in the directory itself. -/
  ground : Binds := {}
  deriving DecidableEq, Repr

namespace Mounts

/-- What a path below `mnt` leads to. -/
def visible (m : Mounts) : Binds := m.overlays.headD m.ground

/-- A change of what a path below `mnt` leads to. -/
def mapVisible (f : Binds → Binds) : Mounts → Mounts
  | ⟨[], g⟩ => ⟨[], f g⟩
  | ⟨b :: bs, g⟩ => ⟨f b :: bs, g⟩

/-- `umount -R d`, when it succeeds. -/
def umount : Dir → Mounts → Mounts
  | .mnt _, ⟨_ :: bs, g⟩ => ⟨bs, g⟩
  | .overlay _, m => m.mapVisible fun b => { b with overlay := b.overlay - 1 }
  | .overlayBuilddir _, m => m.mapVisible fun b => { b with builddir := b.builddir - 1 }
  | _, m => m

/-- What `umount -R d` may do.  It may fail, and before that unmount some of what lies
below. -/
inductive Umount (d : Dir) (m : Mounts) : Mounts → Prop
  | succeeds : Umount d m (m.umount d)
  | fails : Umount d m m
  | stops {x b b' bs} (mnt : d = .mnt x) (mounted : m.overlays = b :: bs)
      (overlay : b'.overlay ≤ b.overlay) (builddir : b'.builddir ≤ b.builddir) :
      Umount d m ⟨b' :: bs, m.ground⟩

/-- `mount --bind`, with the target `d`. -/
def bind : Dir → Mounts → Mounts
  | .overlay _, m => m.mapVisible fun b => { b with overlay := b.overlay + 1 }
  | .overlayBuilddir _, m => m.mapVisible fun b => { b with builddir := b.builddir + 1 }
  | _, m => m

end Mounts

/-- The layer of a directory. -/
def Dir.layer : Dir → Name
  | .overlayfs x | .mnt x | .upper x | .workdir x | .overlay x | .overlayBuilddir x | .build x
  | .lbase x => x

/-- The files, and what is mounted. -/
structure Host where
  /-- The files that lie in a directory. -/
  files : Dir → List Path
  mounts : Name → Mounts

namespace Host

/-- What is mounted at the layer `x` is now `m`. -/
def setMounts (w : Host) (x : Name) (m : Mounts) : Host :=
  { w with mounts := Function.update w.mounts x m }

/-- `rm -rf d` may come to the files of `e`: they lie below `d`, or `e` is bound there.  The
source directory is bound read-only.  How far `rm -rf $(OVERLAYFS)/L_x` comes in a bound directory
depends on the order in which it finds the entries and on where it gives up; here it deletes all of
it. -/
def reaches (w : Host) (d e : Dir) : Bool :=
  d.within e || match e with
    | .build x => d.within (.overlayBuilddir x) && decide (0 < (w.mounts x).visible.builddir)
    | _ => false

/-- `rm -rf d` -/
def remove (w : Host) (d : Dir) : Host :=
  { w with files := fun e => if w.reaches d e then [] else w.files e }

end Host

/-- What a command may do.  A task may change files. -/
def Cmd.Acts : Cmd → Host → Host → Prop
  | .umountR d, w, w' => ∃ m, (w.mounts d.layer).Umount d m ∧ w' = w.setMounts d.layer m
  | .mountOverlay x _, w, w' =>
    w' = w.setMounts x { w.mounts x with overlays := {} :: (w.mounts x).overlays }
  | .mountBind _ d, w, w' => w' = w.setMounts d.layer ((w.mounts d.layer).bind d)
  | .rmrf d, w, w' => w' = w.remove d
  | .task, w, w' => w'.mounts = w.mounts
  | .echo, w, w' | .mkdir _, w, w' | .archChroot _, w, w' => w' = w

/-- An `umount -R` succeeds or does not leave `$(BUILD)/L_x` bound. -/
def Cmd.Unbinds : Cmd → Host → Host → Prop
  | .umountR d, w, w' => d.within (.overlayBuilddir d.layer) →
    w'.mounts d.layer = (w.mounts d.layer).umount d ∨ (w'.mounts d.layer).visible.builddir = 0
  | _, _, _ => True

/-- The goals that build. -/
def Builds (g : Node) : Prop := g = .all ∨ (∃ x, g = .layer x) ∨ ∃ t, g = .target t

/-- The goals that clean a layer. -/
def Cleans (g : Node) : Prop := ∃ x, g = .invalidate x ∨ g = .i x ∨ g = .clean x

/-- One make that builds, or cleans a layer. -/
structure Session (cfg : Config) (evs : Reading) where
  goals : Node → Prop
  goals_apart : (∀ g, goals g → Builds g) ∨ ∃ g, Cleans g ∧ ∀ g', goals g' → g' = g
  tasks : Path → ℕ
  fetch : Path → ℕ
  drop : Node → Node → Prop
  drop_circular : ∀ a b, drop a b → Relation.TransGen (Prereq (makefile cfg evs)) b a

namespace Session

variable {cfg : Config} {evs : Reading} (S : Session cfg evs)

/-- The runs of a session.  Phony nodes are always made. -/
def system : System Node Cmd Host where
  prereq := Prereq (makefile cfg evs)
  drop := S.drop
  drop_circular := S.drop_circular
  wanted n := ∃ g, S.goals g ∧ Relation.ReflTransGen (Prereq (makefile cfg evs)) g n
  recipe := nodeRecipe cfg (readAll cfg evs) S.tasks S.fetch
  exec := Cmd.Acts
  mayMake _ _ := True
  mayKeep _ n := ¬ Phony n

/-- The runs in which no `umount -R` leaves `$(BUILD)/L_x` bound. -/
def careful : System Node Cmd Host :=
  { S.system with
    drop_circular := S.drop_circular
    exec := fun c w w' => c.Acts w w' ∧ c.Unbinds w w' }

/-- Make honours that the unmount of a layer waits for its mount. -/
def Ordered : Prop := ∀ x, ¬ S.drop (.overlayUmount x) (.overlayMount x)

end Session

/-- Whatever is removed next, of what belongs to a layer's overlay, lies in
`$(OVERLAYFS)/L_x` itself. -/
def Confined (s : State Node Cmd Host) : Prop :=
  ∀ n d rest, s.phase n = .running (.rmrf d :: rest) → (Dir.overlayfs d.layer).within d →
    ∀ w', Cmd.Acts (.rmrf d) s.world w' →
      ∀ e, w'.files e ≠ s.world.files e → (Dir.overlayfs d.layer).within e

/-! ## Mounts -/

namespace Mounts

/-- `$(BUILD)/L_x` is not bound anywhere. -/
structure Clear (m : Mounts) : Prop where
  ground : m.ground.builddir = 0
  overlays : ∀ b ∈ m.overlays, b.builddir = 0

/-- `$(BUILD)/L_x` is bound once at most, in the overlay that was mounted last. -/
structure Tame (m : Mounts) : Prop where
  ground : m.ground.builddir = 0
  hidden : ∀ b ∈ m.overlays.tail, b.builddir = 0
  visible : m.visible.builddir ≤ 1

variable {m m' : Mounts} {d : Dir} {x : Name}

theorem Clear.tame (h : m.Clear) : m.Tame where
  ground := h.ground
  hidden b hb := h.overlays b (List.mem_of_mem_tail hb)
  visible := by
    rcases m with ⟨_ | ⟨b, bs⟩, g⟩
    · exact h.ground.le.trans zero_le_one
    · exact (h.overlays b (.head _)).le.trans zero_le_one

theorem Clear.visible (h : m.Clear) : m.visible.builddir = 0 := by
  rcases m with ⟨_ | ⟨b, bs⟩, g⟩
  · exact h.ground
  · exact h.overlays b (.head _)

theorem Tame.clear (h : m.Tame) (hv : m.visible.builddir = 0) : m.Clear where
  ground := h.ground
  overlays b hb := by
    rcases m with ⟨_ | ⟨c, bs⟩, g⟩
    · cases hb
    · rcases List.mem_cons.mp hb with rfl | hb
      · exact hv
      · exact h.hidden b hb

@[simp] theorem visible_mapVisible (f : Binds → Binds) : (m.mapVisible f).visible = f m.visible := by
  rcases m with ⟨_ | ⟨b, bs⟩, g⟩ <;> rfl

@[simp] theorem overlays_mapVisible (f : Binds → Binds) :
    (m.mapVisible f).overlays = [] ↔ m.overlays = [] := by
  rcases m with ⟨_ | ⟨b, bs⟩, g⟩ <;> simp [mapVisible]

theorem Tame.mapVisible {f : Binds → Binds} (h : m.Tame) (hf : ∀ b, (f b).builddir ≤ b.builddir) :
    (m.mapVisible f).Tame := by
  rcases m with ⟨_ | ⟨b, bs⟩, g⟩
  · exact ⟨Nat.le_zero.mp ((hf g).trans h.ground.le), by simp [Mounts.mapVisible], (hf g).trans h.visible⟩
  · exact ⟨h.ground, h.hidden, (hf b).trans h.visible⟩

theorem Clear.mapVisible {f : Binds → Binds} (h : m.Clear) (hf : ∀ b, (f b).builddir ≤ b.builddir) :
    (m.mapVisible f).Clear := by
  refine (h.tame.mapVisible hf).clear ?_
  rw [visible_mapVisible]
  exact Nat.le_zero.mp ((hf _).trans h.visible.le)

theorem Tame.umount (h : m.Tame) (d : Dir) : (m.umount d).Tame := by
  cases d with
  | mnt x =>
    rcases m with ⟨_ | ⟨b, bs⟩, g⟩
    · exact h
    · exact Clear.tame ⟨h.ground, h.hidden⟩
  | overlay x => exact h.mapVisible fun b => le_rfl
  | overlayBuilddir x => exact h.mapVisible fun b => Nat.sub_le _ _
  | _ => exact h

theorem Clear.umount (h : m.Clear) (d : Dir) : (m.umount d).Clear := by
  cases d with
  | mnt x =>
    rcases m with ⟨_ | ⟨b, bs⟩, g⟩
    · exact h
    · exact ⟨h.ground, fun c hc => h.overlays c (.tail _ hc)⟩
  | overlay x => exact h.mapVisible fun b => le_rfl
  | overlayBuilddir x => exact h.mapVisible fun b => Nat.sub_le _ _
  | _ => exact h

/-- An unmount binds nothing, whatever becomes of it. -/
theorem Umount.tame (hu : m.Umount d m') (h : m.Tame) : m'.Tame := by
  cases hu with
  | succeeds => exact h.umount d
  | fails => exact h
  | stops mnt mounted overlay builddir =>
    obtain ⟨os, g⟩ := m
    obtain rfl := mounted
    exact ⟨h.ground, h.hidden, builddir.trans h.visible⟩

theorem Umount.clear (hu : m.Umount d m') (h : m.Clear) : m'.Clear := by
  cases hu with
  | succeeds => exact h.umount d
  | fails => exact h
  | stops mnt mounted overlay builddir =>
    obtain ⟨os, g⟩ := m
    obtain rfl := mounted
    refine Tame.clear ⟨h.ground, fun c hc => h.overlays c (.tail _ hc), ?_⟩ ?_
    · exact builddir.trans h.tame.visible
    · exact Nat.le_zero.mp (builddir.trans h.visible.le)

/-- **An unmount that succeeds unbinds `$(BUILD)/L_x`**, and so does one that fails without
leaving it bound. -/
theorem Umount.clear_of_unbinds (hu : m.Umount d m') (h : m.Tame)
    (hd : d = .mnt x ∨ d = .overlayBuilddir x)
    (unbinds : m' = m.umount d ∨ m'.visible.builddir = 0) : m'.Clear := by
  rcases unbinds with rfl | hv
  · refine (h.umount d).clear ?_
    rcases hd with rfl | rfl
    · rcases m with ⟨_ | ⟨b, bs⟩, g⟩
      · exact h.ground
      · exact Clear.visible ⟨h.ground, h.hidden⟩
    · have := h.visible
      simp only [Mounts.umount, visible_mapVisible]
      omega
  · exact (hu.tame h).clear hv

/-- The build directory is bound once in an overlay that is new. -/
theorem Clear.bind (h : m.Clear) (hm : m.overlays ≠ []) (d : Dir) : (m.bind d).Tame := by
  rcases m with ⟨_ | ⟨b, bs⟩, g⟩
  · exact absurd rfl hm
  · have hb : b.builddir = 0 := h.overlays b (.head _)
    have hbs : ∀ c ∈ bs, c.builddir = 0 := fun c hc => h.overlays c (.tail _ hc)
    cases d with
    | overlay x => exact ⟨h.ground, hbs, hb.le.trans zero_le_one⟩
    | overlayBuilddir x => exact ⟨h.ground, hbs, by simp [Mounts.bind, Mounts.mapVisible, Mounts.visible, hb]⟩
    | _ => exact h.tame

end Mounts

/-- The command mounts or unmounts something of the layer `x`. -/
def Cmd.concerns (x : Name) : Cmd → Bool
  | .umountR d => d.layer == x
  | .mountOverlay y _ => y == x
  | .mountBind _ d => d.layer == x
  | _ => false

/-- The nodes whose recipes do. -/
def Handles (x : Name) (n : Node) : Prop :=
  n = .overlayMount x ∨ n = .overlayUmount x ∨ n = .invalidate x ∨ n = .i x

/-- What is mounted while the node `n` has the commands `rest` before it: `$(BUILD)/L_x` is
bound nowhere from the unmount on, until `overlay_mount` binds it. -/
structure Stage (x : Name) (n : Node) (rest : List Cmd) (m : Mounts) : Prop where
  tame : m.Tame
  mount : n = .overlayMount x → .umountR (.mnt x) ∉ rest →
    .mountBind (.build x) (.overlayBuilddir x) ∈ rest →
      m.Clear ∧ ((∀ l, .mountOverlay x l ∉ rest) → m.overlays ≠ [])
  umount : n = .overlayUmount x → .umountR (.overlayBuilddir x) ∉ rest → m.Clear
  invalidate : n = .invalidate x ∨ n = .i x → .umountR (.mnt x) ∉ rest → m.Clear

section Stages

variable {cfg : Config} {σ : Parse} {tasks fetch : Path → ℕ} {c : Cmd} {w w' : Host} {n : Node}
  {x : Name} {m : Mounts} {rest : List Cmd}

theorem Cmd.Acts.mounts_eq (h : c.Acts w w') (hc : c.concerns x = false) :
    w'.mounts x = w.mounts x := by
  have other : ∀ {y : Name} (m : Mounts), (y == x) = false → (w.setMounts y m).mounts x = w.mounts x := by
    intro y m hy
    exact Function.update_of_ne (by simpa using Ne.symm (by simpa using hy)) _ _
  cases c with
  | umountR d =>
    obtain ⟨m, -, rfl⟩ := h
    exact other m hc
  | mountOverlay y l =>
    obtain rfl := h
    exact other _ hc
  | mountBind src d =>
    obtain rfl := h
    exact other _ hc
  | rmrf d =>
    obtain rfl := h
    rfl
  | task => exact congrFun h x
  | _ =>
    obtain rfl := h
    rfl

/-- Only four nodes of a layer, and its shell, mount or unmount anything there. -/
theorem concerns_nodeRecipe (hn : ¬ Handles x n) (hc : n ≠ .chroot x) :
    ∀ c ∈ nodeRecipe cfg σ tasks fetch n, c.concerns x = false := by
  simp only [Handles, not_or] at hn
  obtain ⟨hm, hu, hv, hi⟩ := hn
  intro c h
  cases n with
  | overlayMount y =>
    have : y ≠ x := fun e => hm (e ▸ rfl)
    simp only [nodeRecipe, overlayMountRecipe, List.mem_cons, List.not_mem_nil, or_false] at h
    rcases h with rfl | rfl | rfl | rfl | rfl | rfl | rfl | rfl | rfl | rfl | rfl <;>
      simp [Cmd.concerns, Dir.layer, this]
  | overlayUmount y =>
    have : y ≠ x := fun e => hu (e ▸ rfl)
    simp only [nodeRecipe, overlayUmountRecipe, List.mem_cons, List.not_mem_nil, or_false] at h
    rcases h with rfl | rfl | rfl | rfl | rfl <;> simp [Cmd.concerns, Dir.layer, this]
  | chroot y =>
    have : y ≠ x := fun e => hc (e ▸ rfl)
    simp only [nodeRecipe, List.mem_cons, List.not_mem_nil, or_false] at h
    rcases h with rfl | rfl <;> simp [Cmd.concerns, Dir.layer, this]
  | invalidate y | i y =>
    have : y ≠ x := by
      rintro rfl
      first | exact hv rfl | exact hi rfl
    simp only [nodeRecipe, invalidateRecipe, List.mem_cons] at h
    rcases h with rfl | h
    · rfl
    · split at h
      · simp only [List.mem_cons, List.not_mem_nil, or_false] at h
        rcases h with rfl | rfl <;> simp [Cmd.concerns, Dir.layer, this]
      · cases h
  | _ => simp_all [nodeRecipe, Cmd.concerns]

/-- A command that mounts and unmounts nothing does not change the stage. -/
theorem Stage.skip (h : Stage x n (c :: rest) m) (hc : c.concerns x = false) : Stage x n rest m := by
  have hu : ∀ d : Dir, d.layer = x → .umountR d ∉ rest → .umountR d ∉ c :: rest := by
    rintro d rfl hd hmem
    rcases List.mem_cons.mp hmem with rfl | hmem
    · simp [Cmd.concerns] at hc
    · exact hd hmem
  have ho : (∀ l, .mountOverlay x l ∉ rest) → ∀ l, .mountOverlay x l ∉ c :: rest := by
    intro hl l hmem
    rcases List.mem_cons.mp hmem with rfl | hmem
    · simp [Cmd.concerns] at hc
    · exact hl l hmem
  refine ⟨h.tame, fun hn hd hb => ?_, fun hn hd => h.umount hn (hu _ rfl hd),
    fun hn hd => h.invalidate hn (hu _ rfl hd)⟩
  obtain ⟨clear, mounted⟩ := h.mount hn (hu _ rfl hd) (.tail _ hb)
  exact ⟨clear, fun hl => mounted (ho hl)⟩

/-- `L_x.invalidate` unmounts the overlay, and mounts nothing. -/
theorem invalidate_concerns (hsuf : c :: rest <:+ invalidateRecipe cfg x) (hc : ¬ c.concerns x = false) :
    c = .umountR (.mnt x) := by
  have hmem : c ∈ invalidateRecipe cfg x := hsuf.subset (.head _)
  unfold invalidateRecipe at hmem
  split at hmem
  · simp only [List.mem_cons, List.not_mem_nil, or_false] at hmem
    rcases hmem with rfl | rfl | rfl
    · exact absurd rfl hc
    · rfl
    · exact absurd rfl hc
  · obtain rfl := List.mem_singleton.mp hmem
    exact absurd rfl hc

/-- What an unmount of the layer does to its mounts. -/
theorem Cmd.Acts.umount {d : Dir} (h : (Cmd.umountR d).Acts w w') :
    (w.mounts d.layer).Umount d (w'.mounts d.layer) := by
  obtain ⟨m, hm, rfl⟩ := h
  simpa [Host.setMounts] using hm

/-- **Every command of a recipe leads to the next stage**, if no unmount leaves the build
directory bound. -/
theorem Stage.step (hn : Handles x n) (hsuf : c :: rest <:+ nodeRecipe cfg σ tasks fetch n)
    (h : Stage x n (c :: rest) (w.mounts x)) (does : c.Acts w w') (unbinds : c.Unbinds w w') :
    Stage x n rest (w'.mounts x) := by
  by_cases hc : c.concerns x = false
  · rw [does.mounts_eq hc]
    exact h.skip hc
  rcases hn with rfl | rfl | rfl | rfl
  · simp only [nodeRecipe, overlayMountRecipe, List.suffix_cons_iff, List.suffix_nil,
      List.cons.injEq, reduceCtorEq, or_false] at hsuf
    rcases hsuf with ⟨rfl, rfl⟩ | ⟨rfl, rfl⟩ | ⟨rfl, rfl⟩ | ⟨rfl, rfl⟩ | ⟨rfl, rfl⟩ | ⟨rfl, rfl⟩ |
      ⟨rfl, rfl⟩ | ⟨rfl, rfl⟩ | ⟨rfl, rfl⟩ | ⟨rfl, rfl⟩ | ⟨rfl, rfl⟩
    case inr.inr.inr.inr.inl =>
      -- what was mounted is unmounted
      have clear := does.umount.clear_of_unbinds h.tame (.inl rfl)
        (unbinds (by simp [Dir.within, Dir.parents, Dir.layer]))
      exact ⟨clear.tame, fun _ _ _ => ⟨clear, fun hl => absurd (.head _) (hl _)⟩, by simp, by simp⟩
    case inr.inr.inr.inr.inr.inl =>
      -- the overlay is new
      obtain ⟨clear, -⟩ := h.mount rfl (by simp) (by simp)
      obtain rfl := does
      have clear' : Mounts.Clear { w.mounts x with overlays := {} :: (w.mounts x).overlays } :=
        ⟨clear.ground, by simpa using clear.overlays⟩
      simp only [Host.setMounts, Function.update_self]
      exact ⟨clear'.tame, fun _ _ _ => ⟨clear', fun _ => by simp⟩, by simp, by simp⟩
    case inr.inr.inr.inr.inr.inr.inr.inr.inl =>
      -- the source directory is bound
      obtain ⟨clear, mounted⟩ := h.mount rfl (by simp) (by simp)
      have mounted : (w.mounts x).overlays ≠ [] := mounted (by simp)
      obtain rfl := does
      simp only [Host.setMounts, Dir.layer, Function.update_self]
      have clear' : ((w.mounts x).bind (.overlay x)).Clear := clear.mapVisible fun b => le_rfl
      refine ⟨clear'.tame, fun _ _ _ => ⟨clear', fun _ => ?_⟩, by simp, by simp⟩
      rwa [Mounts.bind, Ne, Mounts.overlays_mapVisible]
    case inr.inr.inr.inr.inr.inr.inr.inr.inr.inr =>
      -- and the build directory
      obtain ⟨clear, mounted⟩ := h.mount rfl (by simp) (by simp)
      have mounted : (w.mounts x).overlays ≠ [] := mounted (by simp)
      obtain rfl := does
      simp only [Host.setMounts, Dir.layer, Function.update_self]
      exact ⟨clear.bind mounted _, fun _ _ hb => absurd hb List.not_mem_nil, by simp, by simp⟩
    all_goals simp [Cmd.concerns] at hc
  · simp only [nodeRecipe, overlayUmountRecipe, List.suffix_cons_iff, List.suffix_nil,
      List.cons.injEq, reduceCtorEq, or_false] at hsuf
    rcases hsuf with ⟨rfl, rfl⟩ | ⟨rfl, rfl⟩ | ⟨rfl, rfl⟩ | ⟨rfl, rfl⟩ | ⟨rfl, rfl⟩
    case inl => exact ⟨does.umount.tame h.tame, by simp, fun _ hd => absurd (.head _) hd, by simp⟩
    case inr.inl =>
      have clear := does.umount.clear_of_unbinds h.tame (.inr rfl)
        (unbinds (by simp [Dir.within, Dir.layer]))
      exact ⟨clear.tame, by simp, fun _ _ => clear, by simp⟩
    case inr.inr.inr.inr =>
      have clear := does.umount.clear (h.umount rfl (by simp))
      exact ⟨clear.tame, by simp, fun _ _ => clear, by simp⟩
    all_goals simp [Cmd.concerns] at hc
  all_goals
    obtain rfl : c = .umountR (.mnt x) := invalidate_concerns hsuf hc
    have clear := does.umount.clear_of_unbinds h.tame (.inl rfl)
      (unbinds (by simp [Dir.within, Dir.parents, Dir.layer]))
    exact ⟨clear.tame, by simp, by simp, fun _ _ => clear⟩

end Stages

/-! ## What a session asks for -/

section Wanted

variable {cfg : Config} {evs : Reading} {S : Session cfg evs} {a b g : Node} {x : Name} {w : Host}
  {s : State Node Cmd Host}

/-- Cleaning a layer asks for nothing else. -/
theorem prereq_of_cleans (h : Prereq (makefile cfg evs) a b) :
    (∀ x, a ≠ .invalidate x ∧ a ≠ .i x ∧ a ≠ .cleanBuild x) ∧
      ∀ x, a = .clean x → b = .invalidate x ∨ b = .cleanBuild x := by
  rcases h with h | h
  · rcases normal_makefile.mp h with ⟨pre, f, post, rfl, e⟩ | ⟨pre, es, post, rfl, e⟩ | e <;>
      cases e <;> simp
  · rcases orderOnly_makefile.mp h with ⟨pre, f, post, rfl, e⟩ | e
    · cases e with
      | mountRefs _ ha | mountPrevUmount _ ha | mountPrevPreamble _ ha =>
        rcases ha with rfl | rfl <;> simp
      | _ => simp
    · cases e <;> simp

/-- What is asked for when a layer is cleaned. -/
theorem Session.wanted_of_cleans (hg : Cleans g) (only : ∀ g', S.goals g' → g' = g)
    (h : S.system.wanted a) :
    a = g ∨ ∃ x, g = .clean x ∧ (a = .invalidate x ∨ a = .cleanBuild x) := by
  obtain ⟨g', hg', path⟩ := h
  obtain rfl := only g' hg'
  induction path with
  | refl => exact .inl rfl
  | tail _ e ih =>
    obtain ⟨none, some⟩ := prereq_of_cleans e
    rcases ih with rfl | ⟨x, rfl, rfl | rfl⟩
    · obtain ⟨x, rfl | rfl | rfl⟩ := hg
      · exact absurd rfl (none x).1
      · exact absurd rfl (none x).2.1
      · exact .inr ⟨x, rfl, some x rfl⟩
    · exact absurd rfl (none x).1
    · exact absurd rfl (none x).2.2

/-- Building asks for nothing that cleans. -/
theorem Session.built_of_wanted (hg : ∀ g, S.goals g → Builds g) (h : S.system.wanted a) :
    Built a := by
  obtain ⟨g, hgoal, path⟩ := h
  induction path with
  | refl => rcases hg g hgoal with rfl | ⟨x, rfl⟩ | ⟨t, rfl⟩ <;> trivial
  | tail _ e ih => exact ih.prereq e

/-- The unmount of a layer is a prerequisite only if there is a layer of that name. -/
theorem mem_namesOf_of_prereq (h : Prereq (makefile cfg evs) a (.overlayUmount x)) :
    x ∈ namesOf evs := by
  rcases h with h | h
  · rcases normal_makefile.mp h with ⟨pre, f, post, rfl, e⟩ | ⟨pre, es, post, rfl, e⟩ | e <;> cases e
  · rcases orderOnly_makefile.mp h with ⟨pre, f, post, rfl, e⟩ | e
    · have names : ∀ {y}, prevLayer (enterLayer f (readAll cfg pre)).recipe = some y →
          y ∈ namesOf (pre ++ .layer f :: post) := by
        intro y hy
        have hmem : y ∈ (enterLayer f (readAll cfg pre)).recipe :=
          List.mem_of_mem_filter (mem_of_lastword hy)
        rw [enterLayer_recipe, readAll_recipe, List.mem_append, List.mem_singleton] at hmem
        rw [namesOf_split, List.mem_append, List.mem_cons]
        exact hmem.imp_right .inl
      cases e with
      | hookUmount => simp [namesOf_split]
      | prevUmount _ hy | mountPrevUmount _ _ hy => exact names hy
    · cases e

/-- Make honours the order of the mount and the unmount of a layer. -/
theorem Session.mount_finished (ho : cfg.overlayfs = true) (ordered : S.Ordered)
    (hs : S.careful.Reachable w s) (begun : s.phase (.overlayUmount x) ≠ .idle) :
    (s.phase (.overlayMount x)).Finished := by
  obtain ⟨g, hg, path⟩ := hs.wanted_of_begun begun
  have hx : x ∈ namesOf evs := by
    rcases Relation.ReflTransGen.cases_tail path with e | ⟨a, -, e⟩
    · rcases S.goals_apart with builds | ⟨g', ⟨y, hy⟩, only⟩
      · rcases builds g hg with rfl | ⟨y, rfl⟩ | ⟨t, rfl⟩ <;> cases e
      · rcases only g hg ▸ hy with rfl | rfl | rfl <;> cases e
    · exact mem_namesOf_of_prereq e
  obtain ⟨f, hf, rfl⟩ := mem_namesOf.mp hx
  obtain ⟨pre, post, rfl⟩ := mem_layersOf.mp hf
  have edge : Prereq (makefile cfg (pre ++ .layer f :: post)) (.overlayUmount f.name)
      (.overlayMount f.name) :=
    .inl (normal_makefile.mpr (.inl ⟨pre, f, post, rfl, .umount ho⟩))
  exact hs.finished_of_prereq edge (ordered f.name) begun

/-- The nodes of a layer that mount and unmount do not run at the same time. -/
theorem Session.handles_apart (ho : cfg.overlayfs = true) (ordered : S.Ordered)
    (hs : S.careful.Reachable w s) (ha : Handles x a) (hb : Handles x b)
    (running_a : (s.phase a).Running) (running_b : (s.phase b).Running) : a = b := by
  have wanted_a : S.system.wanted a := hs.wanted_of_begun running_a.ne_idle
  have wanted_b : S.system.wanted b := hs.wanted_of_begun running_b.ne_idle
  rcases S.goals_apart with builds | ⟨g, hg, only⟩
  · have built_a := S.built_of_wanted builds wanted_a
    have built_b := S.built_of_wanted builds wanted_b
    have waits : (s.phase (.overlayUmount x)).Running → ¬ (s.phase (.overlayMount x)).Running :=
      fun hu hm => hm.not_finished (S.mount_finished ho ordered hs hu.ne_idle)
    rcases ha with rfl | rfl | rfl | rfl
    · rcases hb with rfl | rfl | rfl | rfl
      · rfl
      · exact absurd running_a (waits running_b)
      · exact built_b.elim
      · exact built_b.elim
    · rcases hb with rfl | rfl | rfl | rfl
      · exact absurd running_b (waits running_a)
      · rfl
      · exact built_b.elim
      · exact built_b.elim
    · exact built_a.elim
    · exact built_a.elim
  · have one : ∀ {a}, Handles x a → S.system.wanted a →
        a = g ∨ (g = .clean x ∧ a = .invalidate x) := by
      intro a ha wanted
      rcases S.wanted_of_cleans hg only wanted with h | ⟨y, rfl, rfl | rfl⟩
      · exact .inl h
      · rcases ha with h | h | h | h <;> cases h
        exact .inr ⟨rfl, rfl⟩
      · rcases ha with h | h | h | h <;> cases h
    rcases one ha wanted_a with rfl | ⟨rfl, rfl⟩
    · rcases one hb wanted_b with rfl | ⟨rfl, -⟩
      · rfl
      · rcases ha with h | h | h | h <;> cases h
    · rcases one hb wanted_b with rfl | ⟨-, rfl⟩
      · rcases hb with h | h | h | h <;> cases h
      · rfl

end Wanted

/-! ## Runs -/

section Runs

variable {cfg : Config} {evs : Reading} {S : Session cfg evs} {d e : Dir} {n : Node} {x : Name}
  {w : Host} {s : State Node Cmd Host} {rest : List Cmd}

/-- **The mounts of a layer go through their stages.** -/
theorem Session.outline (ho : cfg.overlayfs = true) (ordered : S.Ordered) (x : Name) :
    S.careful.Outline (Handles x) (fun w => (w.mounts x).Tame)
      (fun n rest w => Stage x n rest (w.mounts x)) where
  enter n w hn tame := by
    refine ⟨tame, ?_, ?_, ?_⟩
    · rintro rfl hd
      exact absurd (by simp [careful, system, nodeRecipe, overlayMountRecipe]) hd
    · rintro rfl hd
      exact absurd (by simp [careful, system, nodeRecipe, overlayUmountRecipe]) hd
    · rintro (rfl | rfl) hd <;>
        exact absurd (by simp [careful, system, nodeRecipe, invalidateRecipe, ho]) hd
  step n c rest w w' hn hsuf h does := h.step hn hsuf does.1 does.2
  leave n w _ h := h.tame
  others m hm wanted c hc w w' does := by
    have shell : m ≠ .chroot x := by
      rintro rfl
      rcases S.goals_apart with builds | ⟨g, ⟨y, hy⟩, only⟩
      · exact S.built_of_wanted builds wanted
      · rcases S.wanted_of_cleans ⟨y, hy⟩ only wanted with rfl | ⟨z, rfl, h | h⟩
        · rcases hy with h | h | h <;> cases h
        · cases h
        · cases h
    have same : w'.mounts x = w.mounts x := does.1.mounts_eq (concerns_nodeRecipe hm shell c hc)
    exact ⟨fun h => same ▸ h, fun n rest _ h => same ▸ h⟩
  apart w s hs n m hn hm running_n running_m :=
    S.handles_apart ho ordered hs hn hm running_n running_m

/-- A run leaves nothing worse behind than it may find. -/
theorem Session.tame_of_reachable (ho : cfg.overlayfs = true) (ordered : S.Ordered)
    (hw : (w.mounts x).Tame) (hs : S.careful.Reachable w s) : (s.world.mounts x).Tame := by
  obtain ⟨stage, tame⟩ := (S.outline ho ordered x).holds hw hs
  by_cases h : ∃ n, Handles x n ∧ (s.phase n).Running
  · obtain ⟨n, hn, running⟩ := h
    cases hp : s.phase n with
    | running rest => exact (stage n rest hn hp).tame
    | idle | made | kept => simp [hp, Phase.Running] at running
  · exact tame fun n hn running => h ⟨n, hn, running⟩

/-- The recipes that remove something of the overlay of a layer. -/
theorem mem_rmrf {σ : Parse} {tasks fetch : Path → ℕ}
    (h : .rmrf d ∈ nodeRecipe cfg σ tasks fetch n) (hd : (Dir.overlayfs d.layer).within d = true) :
    n = .overlayUmount d.layer ∨ n = .invalidate d.layer ∨ n = .i d.layer := by
  cases n with
  | overlayUmount y =>
    simp only [nodeRecipe, overlayUmountRecipe, List.mem_cons, List.not_mem_nil, or_false,
      reduceCtorEq, false_or, Cmd.rmrf.injEq] at h
    rcases h with rfl | rfl <;> exact .inl rfl
  | invalidate y | i y =>
    simp only [nodeRecipe, invalidateRecipe, List.mem_cons, reduceCtorEq, false_or] at h
    split at h
    · obtain rfl : d = .overlayfs y := by simpa using h
      simp [Dir.layer]
    · cases h
  | cleanBuild y =>
    obtain rfl : d = .build y := by simpa [nodeRecipe] using h
    simp [Dir.within, Dir.parents] at hd
  | _ => simp_all [nodeRecipe, overlayMountRecipe]

/-- **When it comes to a removal, the build directory is not bound.** -/
theorem Session.clear_of_rmrf (ho : cfg.overlayfs = true) (ordered : S.Ordered)
    (hw : ∀ x, (w.mounts x).Tame) (hs : S.careful.Reachable w s)
    (running : s.phase n = .running (.rmrf d :: rest)) (hd : (Dir.overlayfs d.layer).within d = true) :
    (s.world.mounts d.layer).Clear := by
  have hsuf := hs.suffix running
  have hn := mem_rmrf (hsuf.subset (.head _)) hd
  have stage := ((S.outline ho ordered d.layer).holds (hw _) hs).1 n _ (.inr hn) running
  rcases hn with rfl | hn
  · refine stage.umount rfl ?_
    simp only [careful, system, nodeRecipe, overlayUmountRecipe, List.suffix_cons_iff,
      List.suffix_nil, List.cons.injEq, reduceCtorEq, false_and, false_or, or_false] at hsuf
    rcases hsuf with ⟨-, rfl⟩ | ⟨-, rfl⟩ <;> simp
  · refine stage.invalidate hn ?_
    have hsuf : .rmrf d :: rest <:+ invalidateRecipe cfg d.layer := by
      rcases hn with rfl | rfl <;> exact hsuf
    simp only [invalidateRecipe, ho, if_true, List.suffix_cons_iff, List.suffix_nil,
      List.cons.injEq, reduceCtorEq, false_and, false_or, or_false] at hsuf
    obtain ⟨-, rfl⟩ := hsuf
    simp

/-- What lies below a directory of the overlay lies in `$(OVERLAYFS)/L_x`. -/
theorem within_overlayfs (hd : (Dir.overlayfs d.layer).within d = true) (h : d.within e = true) :
    (Dir.overlayfs d.layer).within e = true := by
  cases d <;> cases e <;> simp_all [Dir.within, Dir.parents, Dir.layer]

/-- **What a removal deletes elsewhere**: the files of `$(BUILD)/L_x`, if it is bound below. -/
theorem confined_iff : Confined s ↔
    ∀ n d rest, s.phase n = .running (.rmrf d :: rest) → (Dir.overlayfs d.layer).within d = true →
      d.within (.overlayBuilddir d.layer) = true →
        0 < (s.world.mounts d.layer).visible.builddir → s.world.files (.build d.layer) = [] := by
  constructor
  · intro h n d rest running hd below bound
    by_contra files
    have reaches : s.world.reaches d (.build d.layer) = true := by
      simp [Host.reaches, below, bound]
    have out := h n d rest running hd _ rfl (.build d.layer)
      (by simpa [Host.remove, reaches] using Ne.symm files)
    simp [Dir.within, Dir.parents] at out
  · intro h n d rest running hd w' does e changed
    obtain rfl := does
    have reaches : s.world.reaches d e = true := by
      by_contra hr
      simp [Host.remove, hr] at changed
    cases e with
    | build y =>
      have hr := reaches
      simp only [Host.reaches, Bool.or_eq_true, Bool.and_eq_true, decide_eq_true_eq] at hr
      rcases hr with below | ⟨below, bound⟩
      · exact within_overlayfs hd below
      · obtain rfl : d.layer = y := by
          cases d <;> simp_all [Dir.within, Dir.parents, Dir.layer]
        have empty := h n d rest running hd below bound
        simp [Host.remove, reaches, empty] at changed
    | _ => exact within_overlayfs hd (by simpa [Host.reaches] using reaches)

/-- **A run in which no unmount leaves the build directory bound** removes nothing else. -/
theorem Session.confined (ho : cfg.overlayfs = true) (ordered : S.Ordered)
    (hw : ∀ x, (w.mounts x).Tame) (hs : S.careful.Reachable w s) : Confined s := by
  refine confined_iff.mpr fun n d rest running hd _ bound => ?_
  have clear := S.clear_of_rmrf ho ordered hw hs running hd
  exact absurd clear.visible bound.ne'

/-- **Cleaning up deletes nothing through a mount**, however often a recipe is built, stopped
and cleaned, as long as no unmount leaves the build directory bound. -/
theorem cleanup_confined (cfg : Config) (evs : Reading) (ho : cfg.overlayfs = true) (w : Host)
    (hw : ∀ x, w.mounts x = {}) (runs : List (Session cfg evs × State Node Cmd Host))
    (careful : Along (fun _ r => r.2.world)
      (fun w r => r.1.Ordered ∧ r.1.careful.Reachable w r.2) w runs) :
    Along (fun _ r => r.2.world)
      (fun w r => ∀ s, r.1.careful.Reachable w s → Confined s) w runs := by
  refine careful.of_invariant (I := fun w => ∀ x, (w.mounts x).Tame) (fun w r hw hr => ?_) ?_
  · exact ⟨fun s hs => r.1.confined ho hr.1 hw hs,
      fun x => r.1.tame_of_reachable ho hr.1 (hw x) hr.2⟩
  · intro x
    rw [hw x]
    exact ⟨rfl, by simp, Nat.zero_le 1⟩

end Runs

/-! ## A kernel and a busy directory -/

/-- What a command does when nothing is busy. -/
def Cmd.act : Cmd → Host → Host
  | .umountR d, w => w.setMounts d.layer ((w.mounts d.layer).umount d)
  | .mountOverlay x _, w =>
    w.setMounts x { w.mounts x with overlays := {} :: (w.mounts x).overlays }
  | .mountBind _ d, w => w.setMounts d.layer ((w.mounts d.layer).bind d)
  | .rmrf d, w => w.remove d
  | .echo, w | .mkdir _, w | .archChroot _, w | .task, w => w

/-- What it does while a process works in `overlay-builddir`. -/
def Cmd.actBusy : Cmd → Host → Host
  | .umountR (.overlayBuilddir _), w => w
  | c, w => c.act w

theorem Cmd.acts_act (c : Cmd) (w : Host) : c.Acts w (c.act w) ∧ c.Unbinds w (c.act w) := by
  cases c with
  | umountR d =>
    refine ⟨⟨_, .succeeds, rfl⟩, fun _ => .inl ?_⟩
    simp [Cmd.act, Host.setMounts]
  | _ => exact ⟨rfl, trivial⟩

theorem Cmd.acts_actBusy (c : Cmd) (w : Host) : c.Acts w (c.actBusy w) := by
  unfold Cmd.actBusy
  split
  · exact ⟨_, .fails, by simp [Host.setMounts, Dir.layer]⟩
  · exact (c.acts_act w).1

/-- A recipe with a kernel. -/
def vmlinuxReading : Reading :=
  [.layer { name := "kernel", file := "kernel.mk", decls := [.target "vmlinux"] }]

/-- `make` -/
def kernelBuild : Session ⟨true, false⟩ vmlinuxReading where
  goals g := g = .all
  goals_apart := .inl fun _ h => .inl h
  tasks _ := 1
  fetch _ := 0
  drop _ _ := False
  drop_circular _ _ h := h.elim

/-- `make L_kernel.invalidate` -/
def kernelInvalidate : Session ⟨true, false⟩ vmlinuxReading where
  goals g := g = .invalidate "kernel"
  goals_apart := .inr ⟨_, ⟨"kernel", .inl rfl⟩, fun _ h => h⟩
  tasks _ := 1
  fetch _ := 0
  drop _ _ := False
  drop_circular _ _ h := h.elim

/-- Nothing is mounted, and there is an object file in the build directory. -/
def kernelHost : Host where
  files d := if d = .build "kernel" then ["vmlinux.o"] else []
  mounts _ := {}

/-- What `make` does before it unmounts the overlay. -/
def kernelOrder : List Node :=
  [.sourceCheckout, .file "kernel.mk", .preamble "kernel", .buildDir "kernel",
    .overlayMount "kernel", .target "vmlinux"]

theorem kernelOrder_first : ∀ a b, Prereq (makefile ⟨true, false⟩ vmlinuxReading) a b →
    a ∈ kernelOrder → b ∈ kernelOrder ∧ kernelOrder.idxOf b < kernelOrder.idxOf a :=
  forall_prereq.mpr (by decide)

/-- `make` asks for all of it. -/
theorem kernelBuild_wanted : ∀ n ∈ .overlayUmount "kernel" :: kernelOrder,
    kernelBuild.system.wanted n := by
  have umount : Relation.ReflTransGen (Prereq (makefile ⟨true, false⟩ vmlinuxReading)) .all
      (.overlayUmount "kernel") :=
    .head (b := .recipe) (by decide) (.head (b := .layer "kernel") (by decide) (.single (by decide)))
  have target : Relation.ReflTransGen (Prereq (makefile ⟨true, false⟩ vmlinuxReading)) .all
      (.target "vmlinux") := umount.tail (by decide)
  have below : ∀ n ∈ kernelOrder, n = .target "vmlinux" ∨
      Prereq (makefile ⟨true, false⟩ vmlinuxReading) (.target "vmlinux") n := by
    decide
  intro n hn
  rcases List.mem_cons.mp hn with rfl | hn
  · exact ⟨.all, rfl, umount⟩
  · rcases below n hn with rfl | e
    · exact ⟨.all, rfl, target⟩
    · exact ⟨.all, rfl, target.tail e⟩

/-- The state in which make comes to the unmount. -/
def kernelMade : State Node Cmd Host where
  phase n := if n ∈ kernelOrder then .made else .idle
  world := (kernelOrder.flatMap kernelBuild.system.recipe).foldl (fun w c => c.actBusy w) kernelHost

/-- **A process that works in the build directory costs it its files.** -/
theorem not_cleanup_kernel : (∀ x, kernelHost.mounts x = {}) ∧
    ∃ s, kernelBuild.system.Reachable kernelHost s ∧ ¬ Confined s := by
  refine ⟨fun _ => rfl, ?_⟩
  have reach : kernelBuild.system.Reachable kernelHost kernelMade :=
    System.reachable_of_order Cmd.acts_actBusy kernelHost kernelOrder (by decide)
      (fun n hn => kernelBuild_wanted n (.tail _ hn)) (fun _ _ _ => trivial)
      (fun pre n post h m e => System.mem_of_idxOf_lt (by decide) h
        (kernelOrder_first n m e.1 (by simp [h])).2)
  have waits : ∀ a b, Prereq (makefile ⟨true, false⟩ vmlinuxReading) a b →
      a = .overlayUmount "kernel" → b ∈ kernelOrder :=
    forall_prereq.mpr (by decide)
  let begun : State Node Cmd Host := { kernelMade with
    phase := Function.update kernelMade.phase (.overlayUmount "kernel")
      (.running (overlayUmountRecipe "kernel")) }
  have made : kernelBuild.system.Reachable kernelHost begun :=
    reach.step (.make (.overlayUmount "kernel") rfl (kernelBuild_wanted _ (.head _))
      (fun m e _ => by simp [kernelMade, waits _ m e rfl]) trivial)
  have run := System.run_commands (S := kernelBuild.system) Cmd.acts_actBusy
    (.overlayUmount "kernel") [.rmrf (.overlayBuilddir "kernel"), .umountR (.mnt "kernel")]
    [.umountR (.overlay "kernel"), .umountR (.overlayBuilddir "kernel"), .rmrf (.overlay "kernel")]
    begun rfl
  refine ⟨_, Relation.ReflTransGen.trans made run, fun confined => ?_⟩
  have deleted := confined (.overlayUmount "kernel") (.overlayBuilddir "kernel")
    [.umountR (.mnt "kernel")] rfl (by decide) _ rfl (.build "kernel") (by decide)
  exact absurd deleted (by decide)

/-- The build is stopped when the kernel has been made, and the layer is cleaned. -/
theorem cleanup_confined_kernel : ∃ s₁ s₂ : State Node Cmd Host,
    s₁.phase (.target "vmlinux") = .made ∧ s₁.phase (.overlayUmount "kernel") = .idle ∧
    s₂.phase (.invalidate "kernel") = .made ∧
    Along (fun _ r => r.2.world) (fun w r => ∀ s, r.1.careful.Reachable w s → Confined s) kernelHost
      [(kernelBuild, s₁), (kernelInvalidate, s₂)] := by
  have build := System.reachable_of_order (S := kernelBuild.careful) (f := Cmd.act) Cmd.acts_act
    kernelHost kernelOrder (by decide) (fun n hn => kernelBuild_wanted n (.tail _ hn))
    (fun _ _ _ => trivial)
    (fun pre n post h m e => System.mem_of_idxOf_lt (by decide) h
      (kernelOrder_first n m e.1 (by simp [h])).2)
  have invalidate := fun w => System.reachable_of_order (S := kernelInvalidate.careful)
    (f := Cmd.act) Cmd.acts_act w [.invalidate "kernel"] (by decide)
    (fun n hn => ⟨.invalidate "kernel", rfl, by rw [List.mem_singleton.mp hn]⟩)
    (fun _ _ _ => trivial) (fun pre n post h m e => by
      have hn : n = .invalidate "kernel" := List.mem_singleton.mp (h ▸ by simp)
      exact absurd hn ((prereq_of_cleans e.1).1 "kernel").1)
  refine ⟨_, _, rfl, rfl, rfl, cleanup_confined ⟨true, false⟩ vmlinuxReading rfl kernelHost
    (fun _ => rfl) _ ⟨⟨fun _ => id, build⟩, ⟨fun _ => id, invalidate _⟩, trivial⟩⟩

end VeRoot
