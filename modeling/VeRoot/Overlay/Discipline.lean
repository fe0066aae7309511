import VeRoot.Overlay.Mount
import VeRoot.Engine.Serialise
import VeRoot.Make.Bracket

/-!
# One overlay at a time

The mount of a layer and its unmount bracket the layer's targets, and the brackets of
the layers follow one another.  So while a target of a layer is being made its
overlay is mounted and no other one is, whatever the goals are and however the
recipes interleave.

## Main definitions

* `OverlayDiscipline` — what holds while a target is being made.
* `overlayBracket` — the mount and the unmount of one layer.
* `overlayDiscipline` — the main result.
-/

namespace VeRoot

open Make

/-- While a target of the layer `f` is being made, the overlay of `f` is mounted over
directories that existed then, no other layer's is, every earlier layer's targets are
finished, and its overlay has been mounted and unmounted. -/
def OverlayDiscipline (cfg : Config) (evs : Reading) : Prop :=
  ∀ (B : Build cfg evs) (w : World), (∀ x, w.overlay x = none) → ∀ s, B.system.Reachable w s →
    ∀ A f C, layersOf evs = A ++ f :: C → ∀ t ∈ f.targets, (s.phase (.target t)).Running →
      (∃ m, s.world.overlay f.name = some m ∧ m.lowerdirs = (readAll cfg evs).lowerdirs f.name ∧
        ∀ y ∈ m.lowerdirs, .upper y ∈ m.present) ∧
      (∀ g ∈ layersOf evs, g ≠ f → s.world.overlay g.name = none) ∧
      ∀ g ∈ A, (∀ u ∈ g.targets, (s.phase (.target u)).Finished) ∧
        s.phase (.overlayMount g.name) = .made ∧ s.phase (.overlayUmount g.name) = .made

/-! ## What a build asks for -/

/-- The nodes a build can reach: everything but cleaning and the interactive shell. -/
def Built : Node → Prop
  | .clean _ | .invalidate _ | .i _ | .cleanBuild _ | .chroot _ => False
  | _ => True

section Built

variable {cfg : Config} {evs : Reading} {a b : Node}

theorem Built.prereq (ha : Built a) (h : Prereq (makefile cfg evs) a b) : Built b := by
  rcases h with h | h
  · rcases normal_makefile.mp h with ⟨pre, f, post, rfl, e⟩ | ⟨pre, es, post, rfl, e⟩ | e <;>
      cases e <;> trivial
  · rcases orderOnly_makefile.mp h with ⟨pre, f, post, rfl, e⟩ | e
    · cases e with
      | cleanInvalidate | cleanBuild => exact ha
      | _ => trivial
    · cases e <;> trivial

theorem Build.built_of_wanted (B : Build cfg evs) (h : B.system.wanted a) : Built a := by
  obtain ⟨g, hg, path⟩ := h
  induction path with
  | refl =>
    rcases B.goals_build g hg with rfl | ⟨x, rfl⟩ | ⟨t, rfl⟩ <;> trivial
  | tail _ e ih => exact ih.prereq e

end Built

/-! ## Lower directories -/

section Lowerdirs

variable {cfg : Config} {pre post : Reading} {f : LayerFile}

/-- The overlay of a layer lies over the layers before it and the base. -/
theorem readAll_lowerdirs (ho : cfg.overlayfs = true) (hn : Distinct (pre ++ .layer f :: post)) :
    (readAll cfg (pre ++ .layer f :: post)).lowerdirs f.name = (namesOf pre).reverse ++ ["base"] := by
  induction post using List.reverseRecOn with
  | nil =>
    rw [readAll_concat]
    simp [read, readLayer, buildLayer, ho, reverse_eq, readAll_layersIncluded]
  | append_singleton post e ih =>
    have hsplit : pre ++ .layer f :: (post ++ [e]) = (pre ++ .layer f :: post) ++ [e] := by simp
    rw [hsplit] at hn ⊢
    rw [readAll_concat]
    cases e with
    | layer g =>
      have hne : f.name ≠ g.name := by
        intro e
        refine Distinct.notMem (show Distinct ((pre ++ .layer f :: post) ++ .layer g :: []) from hn) ?_
        rw [← e, namesOf_split]
        simp
      simpa [read, readLayer, buildLayer, ho, Function.update_of_ne hne] using ih hn.of_append
    | secondPass es => exact ih hn.of_append

end Lowerdirs

/-! ## What the commands do -/

/-- The overlay of `x` is mounted. -/
def Mounted (x : Name) (w : World) : Prop := w.overlay x ≠ none

/-- The command may mount or unmount the overlay of `x`. -/
def Cmd.touches (x : Name) : Cmd → Bool
  | .umountR d => d.within (.mnt x)
  | .mountOverlay y _ => y == x
  | _ => false

/-- The command may remove the directory `e`. -/
def Cmd.removes (e : Dir) : Cmd → Bool
  | .rmrf d => d.within e
  | _ => false

section Commands

variable {cfg : Config} {σ : Parse} {tasks fetch : Path → ℕ} {c : Cmd} {w w' : World} {n : Node}
  {x y : Name} {e : Dir}

/-- Every command can succeed. -/
theorem Cmd.exists_does (c : Cmd) (w : World) : ∃ w', c.Does w w' := by
  cases c with
  | task => exact ⟨w, rfl, rfl, List.Subset.refl _⟩
  | _ => exact ⟨_, rfl⟩

theorem Cmd.Does.overlay_eq (h : c.Does w w') (hc : c.touches x = false) :
    w'.overlay x = w.overlay x := by
  cases c with
  | task => exact congrFun h.1 x
  | umountR d =>
    obtain rfl := h
    simp_all [Cmd.run, Cmd.touches]
  | mountOverlay y lowerdirs =>
    obtain rfl := h
    have : x ≠ y := by rintro rfl; simp [Cmd.touches] at hc
    simp [Cmd.run, Function.update_of_ne this]
  | _ => obtain rfl := h; rfl

theorem Cmd.Does.mounted_iff (h : c.Does w w') (hc : c.touches x = false) :
    Mounted x w' ↔ Mounted x w := by
  rw [Mounted, Mounted, h.overlay_eq hc]

theorem Cmd.Does.mem_dirs (h : c.Does w w') (hc : c.removes e = false) (he : e ∈ w.dirs) :
    e ∈ w'.dirs := by
  cases c with
  | task => exact h.2.2 he
  | mkdir d =>
    obtain rfl := h
    simp [Cmd.run, he]
  | rmrf d =>
    obtain rfl := h
    simp_all [Cmd.run, Cmd.removes]
  | _ => obtain rfl := h; exact he

/-- Only the mount and the unmount of a layer touch its overlay. -/
theorem touches_nodeRecipe (hb : Built n) (hm : n ≠ .overlayMount x) (hu : n ≠ .overlayUmount x) :
    ∀ c ∈ nodeRecipe cfg σ tasks fetch n, c.touches x = false := by
  intro c hc
  cases n with
  | clean | invalidate | i | cleanBuild | chroot => exact hb.elim
  | overlayMount y =>
    have : x ≠ y := fun e => hm (e ▸ rfl)
    simp only [nodeRecipe, overlayMountRecipe, List.mem_cons, List.not_mem_nil, or_false] at hc
    rcases hc with rfl | rfl | rfl | rfl | rfl | rfl | rfl | rfl | rfl | rfl | rfl <;>
      simp [Cmd.touches, Dir.within, Dir.parents, this, this.symm]
  | overlayUmount y =>
    have : x ≠ y := fun e => hu (e ▸ rfl)
    simp only [nodeRecipe, overlayUmountRecipe, List.mem_cons, List.not_mem_nil, or_false] at hc
    rcases hc with rfl | rfl | rfl | rfl | rfl <;>
      simp [Cmd.touches, Dir.within, Dir.parents, this]
  | _ => simp_all [nodeRecipe, Cmd.touches]

/-- No recipe of a build removes an upper directory. -/
theorem removes_nodeRecipe (hb : Built n) :
    ∀ c ∈ nodeRecipe cfg σ tasks fetch n, c.removes (.upper y) = false := by
  intro c hc
  cases n with
  | clean | invalidate | i | cleanBuild | chroot => exact hb.elim
  | overlayMount x =>
    simp only [nodeRecipe, overlayMountRecipe, List.mem_cons, List.not_mem_nil, or_false] at hc
    rcases hc with rfl | rfl | rfl | rfl | rfl | rfl | rfl | rfl | rfl | rfl | rfl <;> rfl
  | overlayUmount x =>
    simp only [nodeRecipe, overlayUmountRecipe, List.mem_cons, List.not_mem_nil, or_false] at hc
    rcases hc with rfl | rfl | rfl | rfl | rfl <;> simp [Cmd.removes, Dir.within, Dir.parents]
  | _ => simp_all [nodeRecipe, Cmd.removes]

end Commands

/-! ## The mount of a layer -/

section Mounts

variable {cfg : Config} {evs : Reading} {f g : LayerFile} {A mid C : List LayerFile} {w : World}
  {s : State Node Cmd World} {a b : Node} {x : Name}

/-- What the graph orders, every build orders. -/
theorem Build.finished_of_down (B : Build cfg evs) (hn : Distinct evs) (he : Earlier evs)
    (hd : DisjointTargets evs) (hs : B.system.Reachable w s)
    (h : Relation.TransGen (Down cfg evs) a b) (ha : s.phase a ≠ .idle) : (s.phase b).Finished :=
  hs.finished_of_firm_path (Relation.TransGen.mono (fun _ _ e => firm_of_down hn he hd e) _ _ h) ha

/-- The mounts and unmounts of a build are always made. -/
theorem Build.made_of_finished (B : Build cfg evs) (hs : B.system.Reachable w s)
    (ha : (s.phase a).Finished) (hp : Phony a) : s.phase a = .made :=
  hs.made_of_finished (fun _ h => h.1 hp) ha

theorem down_umount_mount (ho : cfg.overlayfs = true) (hn : Distinct evs) (hd : DisjointTargets evs)
    (hf : f ∈ layersOf evs) : Down cfg evs (.overlayUmount f.name) (.overlayMount f.name) := by
  obtain ⟨pre, post, rfl⟩ := mem_layersOf.mp hf
  exact (down_overlay ho hn hd).2.1

/-- A target is made between the mount and the unmount of its layer. -/
theorem down_target {f : LayerFile} {t : Path} (ho : cfg.overlayfs = true) (hn : Distinct evs)
    (hd : DisjointTargets evs) (hf : f ∈ layersOf evs) (ht : t ∈ f.targets) :
    Down cfg evs (.target t) (.overlayMount f.name) ∧
      Down cfg evs (.overlayUmount f.name) (.target t) := by
  obtain ⟨pre, post, rfl⟩ := mem_layersOf.mp hf
  exact (down_overlay ho hn hd).1 t ht

/-- **The overlay of a layer is mounted between its mount and its unmount.** -/
theorem overlayBracket (B : Build cfg evs) (ho : cfg.overlayfs = true) (hn : Distinct evs)
    (he : Earlier evs) (hd : DisjointTargets evs) (hf : f ∈ layersOf evs) :
    B.system.Bracket (Mounted f.name) (.overlayMount f.name) (.overlayUmount f.name)
      (.mountOverlay f.name ((readAll cfg evs).lowerdirs f.name)) (.umountR (.mnt f.name)) where
  ne := by simp
  opens w w' h := by obtain rfl := h; simp [Mounted, Cmd.run]
  closes w w' h := by obtain rfl := h; simp [Mounted, Cmd.run, Dir.within]
  recipe_opener := by
    refine ⟨[.mkdir (.upper "base"), .mkdir (.mnt f.name), .mkdir (.upper f.name),
      .mkdir (.workdir f.name), .umountR (.mnt f.name)], [.mkdir (.overlay f.name),
      .mkdir (.overlayBuilddir f.name), .mountBind (.lbase f.name) (.overlay f.name),
      .mkdir (.build f.name), .mountBind (.build f.name) (.overlayBuilddir f.name)], rfl, by simp,
      ?_, ?_⟩
    · intro e he w w' does hw
      by_cases ht : e.touches f.name = true
      · obtain rfl : e = .umountR (.mnt f.name) := by
          simp only [List.mem_cons, List.not_mem_nil, or_false] at he
          rcases he with rfl | rfl | rfl | rfl | rfl <;> simp_all [Cmd.touches]
        obtain rfl := does
        simp [Mounted, Cmd.run, Dir.within]
      · rwa [Cmd.Does.mounted_iff does (by simpa using ht)]
    · intro e he w w' does
      refine Cmd.Does.mounted_iff does ?_
      simp only [List.mem_cons, List.not_mem_nil, or_false] at he
      rcases he with rfl | rfl | rfl | rfl | rfl <;> rfl
  recipe_closer := by
    refine ⟨[.umountR (.overlay f.name), .umountR (.overlayBuilddir f.name), .rmrf (.overlay f.name),
      .rmrf (.overlayBuilddir f.name)], [], rfl, by simp, ?_, by simp [System.Spoils]⟩
    intro e he w w' does
    refine Cmd.Does.mounted_iff does ?_
    simp only [List.mem_cons, List.not_mem_nil, or_false] at he
    rcases he with rfl | rfl | rfl | rfl <;> simp [Cmd.touches, Dir.within, Dir.parents]
  others m hm hu wanted e he w w' does :=
    Cmd.Does.mounted_iff does (touches_nodeRecipe (B.built_of_wanted wanted) hm hu e he)
  not_kept s := ⟨fun h => h.1 trivial, fun h => h.1 trivial⟩
  waits := .single (firm_of_down hn he hd (down_umount_mount ho hn hd hf))

/-- The overlay of a layer is mounted while one of its targets is being made. -/
theorem mounted_of_running (B : Build cfg evs) (ho : cfg.overlayfs = true) (hn : Distinct evs)
    (he : Earlier evs) (hd : DisjointTargets evs) (hs : B.system.Reachable w s)
    (hf : f ∈ layersOf evs) (ht : t ∈ f.targets) (running : (s.phase (.target t)).Running) :
    Mounted f.name s.world := by
  have hdown := down_target ho hn hd hf ht
  have hmount : s.phase (.overlayMount f.name) = .made :=
    B.made_of_finished hs (B.finished_of_down hn he hd hs (.single hdown.1) running.ne_idle) trivial
  have humount : s.phase (.overlayUmount f.name) = .idle := by
    by_contra h
    exact running.not_finished (B.finished_of_down hn he hd hs (.single hdown.2) h)
  rw [(overlayBracket B ho hn he hd hf).iff_of_past hs (by simp [hmount])]
  simp [humount]

/-- An upper directory stays once it has been made. -/
theorem upper_mem_dirs (B : Build cfg evs) (hs : B.system.Reachable w s) {n : Node} {y : Name}
    (hc : Cmd.mkdir (.upper y) ∈ B.system.recipe n)
    (hpast : (s.phase n).Past (.mkdir (.upper y))) : .upper y ∈ s.world.dirs := by
  refine hs.established (Q := fun w => .upper y ∈ w.dirs) hc ?_ ?_ hpast
  · intro w w' does
    obtain rfl := does
    simp [Cmd.run]
  · intro m wanted d hd w w' does
    exact Cmd.Does.mem_dirs does (removes_nodeRecipe (B.built_of_wanted wanted) d hd)

/-- When the mount command of a layer is next, every lower directory exists. -/
theorem upper_present (B : Build cfg evs) (ho : cfg.overlayfs = true) (hn : Distinct evs)
    (he : Earlier evs) (hd : DisjointTargets evs) (hs : B.system.Reachable w s)
    (hf : f ∈ layersOf evs) {rest : List Cmd}
    (running : s.phase (.overlayMount f.name) =
      .running (.mountOverlay f.name ((readAll cfg evs).lowerdirs f.name) :: rest)) :
    ∀ y ∈ (readAll cfg evs).lowerdirs f.name, .upper y ∈ s.world.dirs := by
  obtain ⟨pre, post, rfl⟩ := mem_layersOf.mp hf
  intro y hy
  rw [readAll_lowerdirs ho hn, List.mem_append, List.mem_reverse, List.mem_singleton] at hy
  rcases hy with hy | rfl
  · -- an earlier layer: its mount has been made
    obtain ⟨g, hg, rfl⟩ := mem_namesOf.mp hy
    obtain ⟨A, mid, hsplit⟩ := List.append_of_mem hg
    have chain : Relation.TransGen (Down cfg (pre ++ .layer f :: post)) (.overlayMount f.name)
        (.overlayUmount g.name) :=
      down_mount_umount ho hn hd
        (show _ = A ++ g :: (mid ++ f :: layersOf post) by simp [layersOf_append, hsplit])
    have hmount := B.finished_of_down hn he hd hs (chain.tail (down_umount_mount ho hn hd
      (by simp [layersOf_append, hg]))) (by simp [running])
    have hmade := B.made_of_finished hs hmount trivial
    refine upper_mem_dirs B hs (n := .overlayMount g.name) ?_ (by simp [hmade])
    simp [Build.system, nodeRecipe, overlayMountRecipe]
  · -- the base: the mount makes it itself, before
    refine upper_mem_dirs B hs (n := .overlayMount f.name) ?_ ?_
    · simp [Build.system, nodeRecipe, overlayMountRecipe]
    · have hsuf := hs.suffix running
      rw [running]
      simp only [Build.system, nodeRecipe, overlayMountRecipe, List.suffix_cons_iff] at hsuf
      simp_all

/-- **A layer is mounted over directories that exist**: the earlier layers have been
mounted by then, and the base directory is made just before. -/
theorem present_of_mounted (B : Build cfg evs) (ho : cfg.overlayfs = true) (hn : Distinct evs)
    (he : Earlier evs) (hd : DisjointTargets evs) (hw : ∀ x, w.overlay x = none)
    (hs : B.system.Reachable w s) (hf : f ∈ layersOf evs) {m : Mount}
    (hm : s.world.overlay f.name = some m) :
    m.lowerdirs = (readAll cfg evs).lowerdirs f.name ∧ ∀ y ∈ m.lowerdirs, .upper y ∈ m.present := by
  refine hs.invariant (P := fun s => ∀ m, s.world.overlay f.name = some m →
    m.lowerdirs = (readAll cfg evs).lowerdirs f.name ∧ ∀ y ∈ m.lowerdirs, .upper y ∈ m.present)
    (by simp [System.start, hw]) ?_ m hm
  clear hm m hs
  intro s s' hs ih step m hm
  cases step with
  | make | keep | finish => exact ih m hm
  | exec n c rest w' running does =>
    have hb : Built n := B.built_of_wanted (hs.wanted_of_begun (by simp [running]))
    have hc : c ∈ nodeRecipe cfg (readAll cfg evs) B.tasks B.fetch n :=
      (hs.suffix running).subset (by simp)
    by_cases ht : c.touches f.name = true
    · by_cases hu : n = .overlayUmount f.name
      · -- the unmount only takes the overlay away
        subst hu
        obtain rfl : c = .umountR (.mnt f.name) := by
          simp only [nodeRecipe, overlayUmountRecipe, List.mem_cons, List.not_mem_nil, or_false] at hc
          rcases hc with rfl | rfl | rfl | rfl | rfl <;>
            simp_all [Cmd.touches, Dir.within, Dir.parents]
        obtain rfl := does
        simp [Cmd.run, Dir.within] at hm
      · obtain rfl : n = .overlayMount f.name := by
          by_contra hne
          exact absurd (touches_nodeRecipe hb hne hu c hc) (by simp [ht])
        simp only [nodeRecipe, overlayMountRecipe, List.mem_cons, List.not_mem_nil, or_false] at hc
        rcases hc with rfl | rfl | rfl | rfl | rfl | rfl | rfl | rfl | rfl | rfl | rfl
        case inr.inr.inr.inr.inl =>
          obtain rfl := does
          simp [Cmd.run, Dir.within] at hm
        case inr.inr.inr.inr.inr.inl =>
          obtain rfl := does
          obtain rfl : ⟨(readAll cfg evs).lowerdirs f.name, s.world.dirs⟩ = m := by
            simpa [Cmd.run] using hm
          exact ⟨rfl, upper_present B ho hn he hd hs hf running⟩
        all_goals simp [Cmd.touches] at ht
    · exact ih m (by rwa [← Cmd.Does.overlay_eq does (by simpa using ht)])

/-- **One overlay at a time**: with distinct names, disjoint targets and references that
look backwards, every build keeps the discipline. -/
theorem overlayDiscipline (cfg : Config) (evs : Reading) (ho : cfg.overlayfs = true)
    (hn : Distinct evs) (he : Earlier evs) (hd : DisjointTargets evs) :
    OverlayDiscipline cfg evs := by
  intro B w hw s hs A f C hsplit t ht hrun
  have hf : f ∈ layersOf evs := by simp [hsplit]
  have hw' : ∀ x, ¬ Mounted x w := by simp [Mounted, hw]
  have order : ∀ {a b}, Relation.TransGen (Down cfg evs) a b → s.phase a ≠ .idle →
      (s.phase b).Finished := fun h ha => B.finished_of_down hn he hd hs h ha
  have hbegun : s.phase (.target t) ≠ .idle := hrun.ne_idle
  have hdown := down_target ho hn hd hf ht
  -- the layers before `f` are finished
  have before : ∀ g ∈ A, (∀ u ∈ g.targets, (s.phase (.target u)).Finished) ∧
      s.phase (.overlayMount g.name) = .made ∧ s.phase (.overlayUmount g.name) = .made := by
    intro g hg
    obtain ⟨A₁, mid, rfl⟩ := List.append_of_mem hg
    have hsplit' : layersOf evs = A₁ ++ g :: (mid ++ f :: C) := by simp [hsplit]
    have hgm : g ∈ layersOf evs := by simp [hsplit']
    have chain : Relation.TransGen (Down cfg evs) (.target t) (.overlayUmount g.name) :=
      .head hdown.1 (down_mount_umount ho hn hd hsplit')
    exact ⟨fun u hu => order (down_of_overlay ho hn hd hsplit' ht hu) hbegun,
      B.made_of_finished hs (order (chain.tail (down_umount_mount ho hn hd hgm)) hbegun) trivial,
      B.made_of_finished hs (order chain hbegun) trivial⟩
  -- and the layers after it have not been mounted
  have after : ∀ g ∈ C, s.phase (.overlayMount g.name) = .idle := by
    intro g hg
    obtain ⟨mid, C', rfl⟩ := List.append_of_mem hg
    by_contra h
    exact hrun.not_finished (order (.tail (down_mount_umount ho hn hd hsplit) hdown.2) h)
  refine ⟨?_, ?_, before⟩
  · obtain ⟨m, hm⟩ := Option.ne_none_iff_exists'.mp (mounted_of_running B ho hn he hd hs hf ht hrun)
    exact ⟨m, hm, present_of_mounted B ho hn he hd hw hs hf hm⟩
  · intro g hg hne
    by_contra hm
    have hpast := ((overlayBracket B ho hn he hd hg).iff_past (hw' _) hs).mp hm
    rw [hsplit] at hg
    simp only [List.mem_append, List.mem_cons] at hg
    rcases hg with hg | rfl | hg
    · simp [(before g hg).2.2] at hpast
    · exact hne rfl
    · simp [after g hg] at hpast

end Mounts

theorem overlayDiscipline_image : OverlayDiscipline ⟨true, false⟩ imageReading :=
  overlayDiscipline ⟨true, false⟩ imageReading rfl (by decide) (by decide) (by decide)

/-! ## A target of two layers -/

/-- Two layers that register the same firmware. -/
def firmwareReading : Reading :=
  [.layer { name := "kernel", file := "kernel.mk", decls := [.target "fw"] },
    .layer { name := "image", file := "image.mk", decls := [.target "fw"] }]

/-- What make drops when it is asked for the firmware: every way back to it. -/
def firmwareDrop (a b : Node) : Prop :=
  b = .target "fw" ∧
    a ∈ [.target "fw", .preamble "image", .overlayMount "image", .overlayUmount "kernel"]

instance (a b : Node) : Decidable (firmwareDrop a b) := inferInstanceAs (Decidable (_ ∧ _))

/-- `make` with the firmware as its goal. -/
def firmwareBuild : Build ⟨true, false⟩ firmwareReading where
  goals g := g = .target "fw"
  goals_build g h := .inr (.inr ⟨"fw", h⟩)
  tasks _ := 1
  fetch _ := 0
  drop := firmwareDrop
  drop_circular := by
    rintro a b ⟨rfl, ha⟩
    have up : Prereq (makefile ⟨true, false⟩ firmwareReading) (.target "fw") (.overlayMount "image") := by
      decide
    simp only [List.mem_cons, List.not_mem_nil, or_false] at ha
    rcases ha with rfl | rfl | rfl | rfl
    · exact .single (by decide)
    · exact .single (by decide)
    · exact .single up
    · exact .head up (.single (by decide))
  outdated _ _ := True
  upToDate _ _ := False

/-- The order in which make then walks. -/
def firmwareRank : Node → ℕ
  | .all => 9
  | .recipe => 8
  | .layer _ => 7
  | .overlayUmount x => if x = "kernel" then 3 else 6
  | .outro _ | .chroot _ => 6
  | .target _ => 5
  | .preamble x | .overlayMount x => if x = "kernel" then 2 else 4
  | .sourceCheckout | .size | .clean _ => 1
  | _ => 0

/-- The firmware is made as a target of `kernel` and of `image` at once, under one overlay. -/
theorem not_overlayDiscipline_firmware :
    Distinct firmwareReading ∧ Earlier firmwareReading ∧
      ¬ OverlayDiscipline ⟨true, false⟩ firmwareReading := by
  refine ⟨by decide, by decide, fun h => ?_⟩
  have acyclic : Acyclic fun a b => firmwareBuild.system.prereq a b ∧ ¬ firmwareBuild.system.drop a b := by
    refine acyclic_of_rank_lt firmwareRank fun a b e => ?_
    have check : ∀ a b, Prereq (makefile ⟨true, false⟩ firmwareReading) a b →
        ¬ firmwareDrop a b → firmwareRank b < firmwareRank a := forall_prereq.mpr (by decide)
    exact check a b e.1 e.2
  obtain ⟨s, hs, hrun⟩ := System.exists_reachable_running (S := firmwareBuild.system)
    Cmd.exists_does (fun s n => .inr trivial) acyclic {} (.target "fw") (finite_descendants _ _)
    (fun m path => ⟨_, rfl, path⟩)
  have asKernel := h firmwareBuild {} (fun _ => rfl) s hs [] _ _ rfl "fw" (by decide) hrun
  have asImage := h firmwareBuild {} (fun _ => rfl) s hs [_] _ [] rfl "fw" (by decide) hrun
  obtain ⟨m, hm, -⟩ := asKernel.1
  have := asImage.2.1 _ (.head _) (by decide)
  rw [hm] at this
  cases this

end VeRoot
