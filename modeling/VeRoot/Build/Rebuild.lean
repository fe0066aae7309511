import VeRoot.Engine.Closed
import VeRoot.Engine.Depends
import VeRoot.Make.Incremental
import VeRoot.Overlay.Mount

/-!
# A second build

`mk/build_layer.mk` makes the directory `$(BUILD)/L_x` a normal prerequisite of every
target of the layer `x`.  A target whose recipe creates or removes an entry there makes
the directory newer than every target of the layer that is finished already.

Between layers only `DEPENDS` makes a target out of date: what is ordered by `RUNAFTER`, by
inclusion or by the overlays is ordered by order-only prerequisites.

## Main definitions

* `Walk` — the circular edges that make drops.
* `project` — the files of a configuration, and what every recipe does to them.
* `SecondBuildIdle` — a build that follows a complete one remakes no target.
* `WritesInOrder` — who writes to a directory comes before whoever depends on it.
* `secondBuildIdle_iff` — when a second build is idle.
* `dependsOn_of_normal_path` — what is remade with a layer depends on it.
-/

namespace VeRoot

open Make

/-- The edges that make drops when it walks the graph of a configuration. -/
structure Walk (cfg : Config) (evs : Reading) where
  drop : Node → Node → Prop
  drop_circular : ∀ a b, drop a b → Relation.TransGen (Prereq (makefile cfg evs)) b a
  acyclic : Acyclic fun a b => Prereq (makefile cfg evs) a b ∧ ¬ drop a b

/-- Where there is no cycle make drops nothing. -/
def Walk.ofAcyclic {cfg : Config} {evs : Reading} (h : Acyclic (Prereq (makefile cfg evs))) :
    Walk cfg evs where
  drop _ _ := False
  drop_circular _ _ h := h.elim
  acyclic a path := h a (Relation.TransGen.mono (fun _ _ e => e.1) _ _ path)

/-- What a command of the engine does to the files of the graph. -/
def Cmd.files : Cmd → List (FileCmd Node)
  | .mkdir (.build x) => [.create (.buildDir x)]
  | _ => []

/-- What the recipe of every node does to them.  The recipe of the target `t` may change
the nodes `writes t`, and ends with `$(stamp)`. -/
def fileRecipe (cfg : Config) (σ : Parse) (writes : Path → List Node) : Node → List (FileCmd Node)
  | .target t => (writes t).map .change ++ [.touch (.target t)]
  | .source p => [.touch (.source p)]
  | n => (nodeRecipe cfg σ (fun _ => 0) (fun _ => 0) n).flatMap Cmd.files

section Project

variable (cfg : Config) (evs : Reading) (W : Walk cfg evs) (writes : Path → List Node)

/-- `make`, without arguments. -/
def project : Project Node where
  rules := makefile cfg evs
  goal := .all
  phony n := Phony n ∧ IsTarget (makefile cfg evs) n
  recipe := fileRecipe cfg (readAll cfg evs) writes
  drop := W.drop
  drop_circular := W.drop_circular
  acyclic := W.acyclic

/-- Once `make` has completed, another `make` executes the recipe of no target. -/
def SecondBuildIdle : Prop :=
  ∀ w s, (project cfg evs W writes).Completed w s →
    ∀ s', (project cfg evs W writes).system.Reachable s.world s' →
      ∀ f ∈ layersOf evs, ∀ t ∈ f.targets, ¬ (s'.phase (.target t)).Executed

/-- A target whose recipe may change a normal prerequisite of another target comes
before it. -/
def WritesInOrder : Prop :=
  ∀ f ∈ layersOf evs, ∀ t ∈ f.targets, ∀ g ∈ layersOf evs, ∀ u ∈ g.targets, u ≠ t →
    ∀ b ∈ writes t, Normal (makefile cfg evs) (.target u) b → ¬ W.drop (.target u) b →
      Relation.TransGen (fun a b => Prereq (makefile cfg evs) a b ∧ ¬ W.drop a b)
        (.target u) (.target t)

end Project

section Rebuild

variable {cfg : Config} {evs : Reading} {W : Walk cfg evs} {writes : Path → List Node}
  {σ : Parse} {a b n : Node} {t : Path} {f : LayerFile}

/-! ## The files of a configuration -/

/-- The files with rules are targets, build directories and sources. -/
theorem isTarget_file (h : IsTarget (makefile cfg evs) a) (ha : ¬ Phony a) :
    (∃ f ∈ layersOf evs, ∃ t ∈ f.targets, a = .target t) ∨ (∃ x, a = .buildDir x) ∨
      ∃ p, a = .source p := by
  rcases isTarget_makefile h with ⟨pre, f, post, rfl, hm⟩ | rfl | rfl | rfl | rfl
  · cases hm with
    | target ht => exact .inl ⟨f, by simp [layersOf_append], _, ht, rfl⟩
    | source hp => exact .inr (.inr ⟨_, rfl⟩)
    | buildDir => exact .inr (.inl ⟨_, rfl⟩)
    | _ => exact absurd trivial ha
  all_goals exact absurd trivial ha

/-- Among the files only targets have normal prerequisites, and these are files. -/
theorem normal_file (h : Normal (makefile cfg evs) a b) (ha : ¬ Phony a) :
    (∃ t, a = .target t) ∧ ¬ Phony b := by
  rcases normal_makefile.mp h with ⟨pre, f, post, rfl, e⟩ | ⟨pre, es, post, rfl, e⟩ | e
  · cases e with
    | hook | umount => exact absurd trivial ha
    | _ => exact ⟨⟨_, rfl⟩, id⟩
  · cases e with
    | depends => exact ⟨⟨_, rfl⟩, id⟩
  · cases e <;> exact absurd trivial ha

/-- Build directories and sources have no prerequisites. -/
theorem not_prereq_leaf (ha : (∃ x, a = .buildDir x) ∨ ∃ p, a = .source p) :
    ¬ Prereq (makefile cfg evs) a b := by
  rintro (h | h)
  · rcases ha with ⟨x, rfl⟩ | ⟨p, rfl⟩
    all_goals
      obtain ⟨⟨t, e⟩, -⟩ := normal_file h id
      cases e
  · rcases orderOnly_makefile.mp h with ⟨pre, f, post, rfl, e⟩ | e
    · cases e with
      | mountRefs ho hm | mountPrevUmount ho hm | mountPrevPreamble ho hm =>
        rcases hm with rfl | rfl <;> simp at ha
      | _ => simp at ha
    · cases e <;> simp at ha

/-- So make honours every edge to one of them. -/
theorem forces_leaf (hb : (∃ x, b = .buildDir x) ∨ ∃ p, b = .source p)
    (h : Normal (makefile cfg evs) a b) : (project cfg evs W writes).Forces a b := by
  refine ⟨h, fun dropped => ?_⟩
  obtain ⟨c, e, -⟩ := Relation.TransGen.head'_iff.mp (W.drop_circular _ _ dropped)
  exact not_prereq_leaf hb e

/-- `make` asks for every registered target. -/
theorem wanted_target (hf : f ∈ layersOf evs) (ht : t ∈ f.targets) :
    (project cfg evs W writes).system.wanted (.target t) := by
  have hrecipe : Prereq (makefile cfg evs) .all .recipe :=
    .inl (normal_makefile.mpr (.inr (.inr .all)))
  have hlayer : Prereq (makefile cfg evs) .recipe (.layer f.name) := by
    refine .inl (normal_makefile.mpr (.inr (.inr (.recipe ?_))))
    rw [readAll_recipe]
    exact List.mem_map_of_mem hf
  have htarget : Prereq (makefile cfg evs) (.layer f.name) (.target t) := by
    obtain ⟨pre, post, rfl⟩ := mem_layersOf.mp hf
    exact .inl (normal_makefile.mpr (.inl ⟨pre, f, post, rfl, .hook ht⟩))
  exact .head hrecipe (.head hlayer (.single htarget))

theorem mem_files_nodeRecipe {c : FileCmd Node}
    (h : c ∈ (nodeRecipe cfg σ (fun _ => 0) (fun _ => 0) n).flatMap Cmd.files) :
    ∃ x, c = .create (.buildDir x) := by
  obtain ⟨d, -, hd⟩ := List.mem_flatMap.mp h
  unfold Cmd.files at hd
  split at hd
  · exact ⟨_, by simpa using hd⟩
  · simp at hd

/-- A recipe that changes a file is a target's. -/
theorem change_mem_fileRecipe (h : .change b ∈ fileRecipe cfg σ writes n) :
    ∃ t, n = .target t ∧ b ∈ writes t := by
  cases n with
  | target t => exact ⟨t, rfl, by simpa [fileRecipe] using h⟩
  | source p => simp [fileRecipe] at h
  | _ =>
    obtain ⟨x, hx⟩ := mem_files_nodeRecipe h
    cases hx

/-- **The recipes are tidy.** -/
theorem project_tidy : (project cfg evs W writes).Tidy where
  rule_of_phony n h := h.2
  recipe_of_phony n h c hc := by
    cases n with
    | target | source => exact absurd h.1 id
    | _ =>
      obtain ⟨x, rfl⟩ := mem_files_nodeRecipe hc
      exact ⟨_, rfl⟩
  not_phony a b h ha hb := by
    have rule : IsTarget (makefile cfg evs) a := h.imp fun _ hr => ⟨hr.1, hr.2.1⟩
    exact (normal_file h fun ph => ha ⟨ph, rule⟩).2 hb.1
  recipe_of_file n hn rule := by
    rcases isTarget_file rule (fun ph => hn ⟨ph, rule⟩) with ⟨f, -, t, -, rfl⟩ | ⟨x, rfl⟩ | ⟨p, rfl⟩
    · exact .inl ⟨_, rfl⟩
    · refine .inr ⟨rfl, fun b h => ?_⟩
      obtain ⟨⟨t, ht⟩, -⟩ := normal_file h id
      cases ht
    · exact .inl ⟨[], rfl⟩
  eq_of_touch n g h := by
    cases n with
    | target t => simpa [project, fileRecipe] using h
    | source p => simpa [project, fileRecipe] using h
    | _ =>
      obtain ⟨x, hx⟩ := mem_files_nodeRecipe h
      cases hx
  recipe_of_create n g h := by
    cases n with
    | target t => simp [project, fileRecipe] at h
    | source p => simp [project, fileRecipe] at h
    | _ =>
      obtain ⟨x, hx⟩ := mem_files_nodeRecipe h
      cases hx
      rfl

/-! ## Two builds -/

/-- The files that layers register. -/
def Registered (evs : Reading) (n : Node) : Prop :=
  ∃ f ∈ layersOf evs, ∃ t ∈ f.targets, n = .target t

theorem file_of_registered (h : Registered evs n) : (project cfg evs W writes).File n := by
  obtain ⟨f, hf, t, ht, rfl⟩ := h
  exact ⟨wanted_target hf ht, fun ph => ph.1⟩

theorem isTarget_of_registered (h : Registered evs n) : IsTarget (makefile cfg evs) n := by
  obtain ⟨f, hf, t, ht, rfl⟩ := h
  exact isTarget_of_mem_targets hf ht

theorem registered_of_isTarget (h : IsTarget (makefile cfg evs) (.target t)) :
    Registered evs (.target t) :=
  (isTarget_file h id).resolve_right (by simp)

/-- Only registered files have prerequisites. -/
theorem registered_of_forces (ha : (project cfg evs W writes).File a)
    (h : (project cfg evs W writes).Forces a b) : Registered evs a := by
  have rule : IsTarget (makefile cfg evs) a := h.1.imp fun _ hr => ⟨hr.1, hr.2.1⟩
  obtain ⟨⟨t, rfl⟩, -⟩ := normal_file h.1 fun ph => ha.2 ⟨ph, rule⟩
  exact registered_of_isTarget rule

theorem secondBuildIdle_iff_inOrder :
    SecondBuildIdle cfg evs W writes ↔ (project cfg evs W writes).InOrder := by
  rw [← Project.idle_iff_inOrder project_tidy (T := Registered evs)
    (fun _ h => file_of_registered h) (fun _ _ => registered_of_forces)]
  constructor
  · rintro h w s hs s' hs' n ⟨f, hf, t, ht, rfl⟩
    exact h w s hs s' hs' f hf t ht
  · intro h w s hs s' hs' f hf t ht
    exact h w s hs s' hs' _ ⟨f, hf, t, ht, rfl⟩

/-- The order of the files is the order of the targets. -/
theorem inOrder_iff : (project cfg evs W writes).InOrder ↔ WritesInOrder cfg evs W writes := by
  constructor
  · intro h f hf t ht g hg u hu hne b hb huf hdrop
    exact h (.target t) b (.target u) (file_of_registered ⟨f, hf, t, ht, rfl⟩)
      (isTarget_of_registered ⟨f, hf, t, ht, rfl⟩)
      (List.mem_append_left _ (List.mem_map_of_mem hb)) (file_of_registered ⟨g, hg, u, hu, rfl⟩)
      ⟨huf, hdrop⟩ (by simpa using hne)
  · intro h n b u hn rule hb hu huf hne
    obtain ⟨t, rfl, hw⟩ := change_mem_fileRecipe hb
    obtain ⟨f, hf, t', ht, e⟩ := registered_of_isTarget rule
    obtain ⟨g, hg, u, hu', rfl⟩ := registered_of_forces hu huf
    cases e
    exact h f hf t ht g hg u hu' (fun e => hne (congrArg _ e)) b hw huf.1 huf.2

/-- **A second build remakes no target exactly if the targets write in order.** -/
theorem secondBuildIdle_iff (cfg : Config) (evs : Reading) (W : Walk cfg evs)
    (writes : Path → List Node) :
    SecondBuildIdle cfg evs W writes ↔ WritesInOrder cfg evs W writes :=
  secondBuildIdle_iff_inOrder.trans inOrder_iff

/-- A recipe whose layers have one target each, which writes to the layer's build directory
only, is built once. -/
theorem writesInOrder_of_single (hn : Distinct evs)
    (single : ∀ f ∈ layersOf evs, ∀ t ∈ f.targets, ∀ u ∈ f.targets, u = t)
    (confined : ∀ f ∈ layersOf evs, ∀ t ∈ f.targets, ∀ b ∈ writes t, b = .buildDir f.name) :
    WritesInOrder cfg evs W writes := by
  intro f hf t ht g hg u hu hne b hb huf
  obtain rfl := confined f hf t ht b hb
  -- the directory is a prerequisite in its own layer only
  rcases normal_makefile.mp huf with ⟨pre, k, post, rfl, e⟩ | ⟨pre, es, post, rfl, e⟩ | e
  · generalize hx : Node.buildDir f.name = x at e
    cases e with
    | buildDir hk =>
      obtain rfl : f = k := hn.eq hf (by simp [layersOf_append]) (by simpa using hx)
      exact absurd (single f hf t ht u hk) hne
    | _ => simp at hx
  · cases e
  · cases e

end Rebuild

/-- The Vulkan layer, whose second task waits for its first. -/
def vulkanReading : Reading :=
  [.layer { name := "vulkan", file := "vulkan.mk",
            decls := [.target "vulkan", .target "glslang", .depends "wayland",
              .source "vulkan-headers/.git/index", .source "vulkan-loader/.git/index",
              .source "glslang/.git/index"],
            after := [("glslang", "vulkan")] }]

/-- Both tasks make directories of their own in the build directory. -/
def vulkanWrites : Path → List Node := fun _ => [.buildDir "vulkan"]

/-- The level of a node of `vulkanReading`. -/
def vulkanRank : Node → ℕ
  | .all => 9
  | .recipe => 8
  | .layer _ => 7
  | .outro _ | .overlayUmount _ | .chroot _ => 6
  | .target t => if t = "glslang" then 5 else 4
  | .preamble _ | .overlayMount _ | .sourceCheckout | .size | .clean _ => 1
  | _ => 0

theorem vulkanRank_lt : ∀ a b, Prereq (makefile ⟨true, false⟩ vulkanReading) a b →
    vulkanRank b < vulkanRank a :=
  forall_prereq.mpr (by decide)

/-- Its graph has no cycle, so no edge is dropped. -/
def vulkanWalk : Walk ⟨true, false⟩ vulkanReading where
  drop _ _ := False
  drop_circular _ _ h := h.elim
  acyclic := acyclic_of_rank_lt vulkanRank fun a b e => vulkanRank_lt a b e.1

/-- `glslang` makes `vulkan` out of date. -/
theorem not_secondBuildIdle_vulkan :
    ¬ SecondBuildIdle ⟨true, false⟩ vulkanReading vulkanWalk vulkanWrites := by
  intro h
  have inOrder := inOrder_iff.mp (secondBuildIdle_iff_inOrder.mp h)
  have path := inOrder _ (.head _) "glslang" (by decide) _ (.head _) "vulkan" (by decide)
    (by decide) (.buildDir "vulkan") (by decide) (by decide) id
  have := rank_le_of_path (r := vulkanRank) (fun a b e => (vulkanRank_lt a b e.1).le) path
  exact absurd this (by decide)

/-! ## Rebuilds come from DEPENDS alone -/

/-- The targets of a layer. -/
def TargetOf (f : LayerFile) (n : Node) : Prop := ∃ t ∈ f.targets, n = .target t

/-- Only recipes of what the targets of `f` rest on change it. -/
def OwnWrites (cfg : Config) (evs : Reading) (W : Walk cfg evs) (writes : Path → List Node)
    (f : LayerFile) : Prop :=
  ∀ t, ∀ b ∈ writes t, (project cfg evs W writes).Below (TargetOf f) b →
    (project cfg evs W writes).Below (TargetOf f) (.target t)

/-- **Rebuilds come from `DEPENDS` alone.**  A path of normal prerequisites between targets of
different layers follows `DEPENDS`; so where only what leads to a layer is out of date, no target
of a layer is remade that does not depend on it. -/
theorem dependsOn_of_normal_path (cfg : Config) (evs : Reading) (hd : DisjointNames evs)
    (f g : LayerFile) (hf : f ∈ layersOf evs) (hg : g ∈ layersOf evs) (hne : f.name ≠ g.name) :
    (∀ t ∈ f.targets, ∀ u ∈ g.targets,
      Relation.TransGen (Normal (makefile cfg evs)) (.target t) (.target u) →
        Relation.TransGen (DependsOn evs) f.name g.name) ∧
    (¬ Relation.TransGen (DependsOn evs) f.name g.name → ∀ W writes, OwnWrites cfg evs W writes f →
      ∀ w s, (project cfg evs W writes).SettledOff
          (fun n => ∃ u, TargetOf g u ∧ Relation.ReflTransGen (project cfg evs W writes).Forces n u) w →
        (project cfg evs W writes).system.Reachable w s →
          ∀ t ∈ f.targets, ¬ (s.phase (.target t)).Executed) := by
  refine ⟨fun t ht u hu => dependsOn_of_path hd hf hg hne ht hu, ?_⟩
  intro apart W writes own w s settled run t ht
  -- nothing below a target of `f` leads to a target of `g`
  have clear : ∀ n, (project cfg evs W writes).Below (TargetOf f) n →
      ¬ ∃ u, TargetOf g u ∧ Relation.ReflTransGen (project cfg evs W writes).Forces n u := by
    rintro n ⟨_, ⟨t, ht, rfl⟩, path⟩ ⟨_, ⟨u, hu, rfl⟩, rest⟩
    rcases Relation.reflTransGen_iff_eq_or_transGen.mp (path.trans rest) with e | path
    · obtain rfl : u = t := by simpa using e
      exact hne (hd f hf g hg u ht hu)
    · exact apart (dependsOn_of_path hd hf hg hne ht hu
        (Relation.TransGen.mono (fun _ _ e => e.1) _ _ path))
  refine Project.SettledOff.idle_above (T := TargetOf f) ?_ project_tidy ?_ ?_ run ⟨t, ht, rfl⟩
  · exact fun n hn below => settled n hn (clear n (not_not.mp below))
  · rintro _ ⟨t, ht, rfl⟩
    exact file_of_registered ⟨f, hf, t, ht, rfl⟩
  · intro m n hc below
    obtain ⟨t, rfl, hb⟩ := change_mem_fileRecipe hc
    exact own t n hb below

/-- An image that depends on the root file system and runs after the kernel. -/
def rootfsReading : Reading :=
  [.layer { name := "kernel", file := "kernel.mk", decls := [.target "zImage"] },
    .layer { name := "rootfs", file := "rootfs.mk", decls := [.target "rootfs.tar"] },
    .layer { name := "image", file := "image.mk",
             decls := [.depends "rootfs", .runafter "kernel", .target "disk"] }]

/-- The image depends on the root file system, and is not remade with the kernel. -/
theorem dependsOn_of_normal_path_image :
    Relation.TransGen (DependsOn rootfsReading) "image" "rootfs" ∧
      ∀ W w s, (project ⟨true, false⟩ rootfsReading W fun _ => []).SettledOff
          (fun n => ∃ u, TargetOf { name := "kernel", file := "kernel.mk", decls := [.target "zImage"] } u ∧
            Relation.ReflTransGen (project ⟨true, false⟩ rootfsReading W fun _ => []).Forces n u) w →
        (project ⟨true, false⟩ rootfsReading W fun _ => []).system.Reachable w s →
          ¬ (s.phase (.target "disk")).Executed := by
  constructor
  · exact (dependsOn_of_normal_path ⟨true, false⟩ rootfsReading (by decide) _ _
      (.tail _ (.tail _ (.head _))) (.tail _ (.head _)) (by decide)).1 "disk" (by decide) "rootfs.tar"
      (by decide) (.single (by decide))
  · intro W w s settled run
    refine (dependsOn_of_normal_path ⟨true, false⟩ rootfsReading (by decide) _ _
      (.tail _ (.tail _ (.head _))) (.head _) (by decide)).2 ?_ W _ ?_ w s settled run "disk" (by decide)
    · intro h
      obtain ⟨x, -, f, hf, -, hd⟩ := Relation.TransGen.tail'_iff.mp h
      have only : ∀ f ∈ layersOf rootfsReading, "kernel" ∉ f.depends := by decide
      exact only f hf hd
    · exact fun t b hb => absurd hb List.not_mem_nil

/-- Two layers that both register `dtb`, and each order it among their own tasks. -/
def sharedReading : Reading :=
  [.layer { name := "kernel", file := "kernel.mk", decls := [.target "dtb", .target "dts"],
            deps := [("dtb", "dts")] },
    .layer { name := "image", file := "image.mk", decls := [.target "disk", .target "dtb"],
             deps := [("disk", "dtb")] }]

/-- A target of two layers joins them without any `DEPENDS`. -/
theorem normal_path_of_shared :
    ∃ f ∈ layersOf sharedReading, ∃ g ∈ layersOf sharedReading, f.name ≠ g.name ∧
      ∃ t ∈ f.targets, ∃ u ∈ g.targets,
        Relation.TransGen (Normal (makefile ⟨false, false⟩ sharedReading)) (.target t) (.target u) ∧
        ¬ Relation.TransGen (DependsOn sharedReading) f.name g.name := by
  refine ⟨_, .tail _ (.head _), _, .head _, by decide, "disk", by decide, "dts", by decide, ?_, ?_⟩
  · exact .head (b := .target "dtb") (by decide) (.single (by decide))
  · intro h
    obtain ⟨d, ⟨f, hf, -, hd⟩, -⟩ := Relation.TransGen.head'_iff.mp h
    have none : ∀ f ∈ layersOf sharedReading, f.depends = [] := by decide
    simp [none f hf] at hd

end VeRoot
