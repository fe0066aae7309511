import VeRoot.Overlay.Discipline
import VeRoot.Make.History

/-!
# Overlays that failed runs leave behind

A run that is stopped while a target is being made leaves the overlay of the layer
mounted: `L_x.overlay_umount` waits for the target.  The next run starts with the first
layer of the recipe, and `L_x.overlay_mount` unmounts what it finds at its own mount point
only.

## Main definitions

* `Exclusive` — one overlay at a time, and none over the directory that is written to.
* `Run` — one make of a history, and the state in which it stops.
* `Excluded` — whatever a run from here does, its states are exclusive.
* `FirstOnly` — no overlay is mounted but possibly that of the first layer.
* `excluded_iff` — the main result.
-/

namespace VeRoot

open Make

/-- At most one overlay is mounted, and while a target of a layer is being made its upper
directory is neither a lower nor the upper directory of another one. -/
structure Exclusive (evs : Reading) (s : State Node Cmd World) : Prop where
  one : ∀ f ∈ layersOf evs, ∀ g ∈ layersOf evs, Mounted f.name s.world → Mounted g.name s.world →
    f = g
  apart : ∀ f ∈ layersOf evs, ∀ t ∈ f.targets, (s.phase (.target t)).Running →
    ∀ g ∈ layersOf evs, g ≠ f → ∀ m, s.world.overlay g.name = some m →
      f.name ∉ m.lowerdirs ∧ f.name ≠ g.name

/-- No overlay is mounted, except possibly that of the first layer. -/
def FirstOnly (evs : Reading) (w : World) : Prop :=
  ∀ A f C, layersOf evs = A ++ f :: C → A ≠ [] → ¬ Mounted f.name w

/-- Every state that a run from here can reach is exclusive. -/
def Excluded (cfg : Config) (evs : Reading) (w : World) : Prop :=
  ∀ (B : Build cfg evs) s, B.system.Reachable w s → Exclusive evs s

/-- One make: what it is asked for, and the state in which it ends. -/
structure Run (cfg : Config) (evs : Reading) where
  build : Build cfg evs
  state : State Node Cmd World

/-- The world that a run leaves to the next one. -/
def Run.after {cfg : Config} {evs : Reading} (_ : World) (r : Run cfg evs) : World := r.state.world

/-- The run begins in the world `w`. -/
def Run.Starts {cfg : Config} {evs : Reading} (w : World) (r : Run cfg evs) : Prop :=
  r.build.system.Reachable w r.state

/-- The run is stopped by a target of the layer `f`: one of its commands fails. -/
def Run.StoppedBy {cfg : Config} {evs : Reading} (f : LayerFile) (r : Run cfg evs) : Prop :=
  ∃ t ∈ f.targets, (r.state.phase (.target t)).Running

/-- The run is asked for everything and completes. -/
def Run.Completes {cfg : Config} {evs : Reading} (r : Run cfg evs) : Prop :=
  r.build.goals .all ∧ ∀ n, r.build.system.wanted n → (r.state.phase n).Finished

section Exclusion

variable {cfg : Config} {evs : Reading} {f g : LayerFile} {A mid C : List LayerFile} {w : World}
  {s : State Node Cmd World} {t : Path}

/-! ## One run -/

/-- The overlay of a layer is gone before the next one is mounted. -/
theorem not_mounted_of_begun (B : Build cfg evs) (ho : cfg.overlayfs = true) (hn : Distinct evs)
    (he : Earlier evs) (hd : DisjointTargets evs) (hs : B.system.Reachable w s)
    (h : layersOf evs = A ++ g :: (mid ++ f :: C)) (begun : s.phase (.overlayMount f.name) ≠ .idle) :
    ¬ Mounted g.name s.world := by
  have hg : g ∈ layersOf evs := by simp [h]
  have chain := down_mount_umount ho hn hd h
  have humount : s.phase (.overlayUmount g.name) = .made :=
    B.made_of_finished hs (B.finished_of_down hn he hd hs chain begun) trivial
  have hmount : s.phase (.overlayMount g.name) = .made :=
    B.made_of_finished hs (B.finished_of_down hn he hd hs
      (chain.tail (down_umount_mount ho hn hd hg)) begun) trivial
  rw [(overlayBracket B ho hn he hd hg).iff_of_past hs (by simp [hmount])]
  simp [humount]

/-- A later layer is mounted by this run only. -/
theorem begun_of_mounted (B : Build cfg evs) (ho : cfg.overlayfs = true) (hn : Distinct evs)
    (he : Earlier evs) (hd : DisjointTargets evs) (hw : FirstOnly evs w)
    (hs : B.system.Reachable w s) (h : layersOf evs = A ++ f :: C) (hA : A ≠ [])
    (hm : Mounted f.name s.world) : s.phase (.overlayMount f.name) ≠ .idle := by
  intro idle
  have past := ((overlayBracket B ho hn he hd (by simp [h])).iff_past (hw A f C h hA) hs).mp hm
  simp [idle] at past

/-- **Two layers are not mounted together**, if only the first one was in the beginning. -/
theorem not_both_mounted (B : Build cfg evs) (ho : cfg.overlayfs = true) (hn : Distinct evs)
    (he : Earlier evs) (hd : DisjointTargets evs) (hw : FirstOnly evs w)
    (hs : B.system.Reachable w s) (h : layersOf evs = A ++ g :: (mid ++ f :: C))
    (hf : Mounted f.name s.world) : ¬ Mounted g.name s.world :=
  not_mounted_of_begun B ho hn he hd hs h
    (begun_of_mounted B ho hn he hd hw hs (A := A ++ g :: mid) (C := C) (by simp [h]) (by simp) hf)

/-- While a target is being made, no other layer is mounted. -/
theorem not_mounted_of_running (B : Build cfg evs) (ho : cfg.overlayfs = true) (hn : Distinct evs)
    (he : Earlier evs) (hd : DisjointTargets evs) (hw : FirstOnly evs w)
    (hs : B.system.Reachable w s) (hf : f ∈ layersOf evs) (ht : t ∈ f.targets)
    (running : (s.phase (.target t)).Running) (hg : g ∈ layersOf evs) (ne : g ≠ f) :
    ¬ Mounted g.name s.world := by
  obtain ⟨pre, post, hevs⟩ := mem_layersOf.mp hf
  have hdown := down_target ho hn hd hf ht
  have hsplit : layersOf evs = layersOf pre ++ f :: layersOf post := by simp [hevs, layersOf_append]
  have hmount := B.finished_of_down hn he hd hs (.single hdown.1) running.ne_idle
  rw [hsplit, List.mem_append, List.mem_cons] at hg
  rcases hg with hg | rfl | hg
  · obtain ⟨A, mid, hA⟩ := List.append_of_mem hg
    have h : layersOf evs = A ++ g :: (mid ++ f :: layersOf post) := by simp [hsplit, hA]
    exact not_mounted_of_begun B ho hn he hd hs h hmount.ne_idle
  · exact absurd rfl ne
  · -- a later layer waits for the unmount of `f`, which waits for the target
    obtain ⟨mid, C, hC⟩ := List.append_of_mem hg
    have h : layersOf evs = layersOf pre ++ f :: (mid ++ g :: C) := by rw [hsplit, hC]
    intro hm
    have begun := begun_of_mounted B ho hn he hd hw hs (A := layersOf pre ++ f :: mid)
      (C := C) (by simp [h]) (by simp) hm
    exact running.not_finished (B.finished_of_down hn he hd hs
      (.tail (down_mount_umount ho hn hd h) hdown.2) begun)

/-- **A run that finds the first layer mounted, or none, is exclusive.** -/
theorem FirstOnly.excluded (ho : cfg.overlayfs = true) (hn : Distinct evs) (he : Earlier evs)
    (hd : DisjointTargets evs) (hw : FirstOnly evs w) : Excluded cfg evs w := by
  intro B s hs
  constructor
  · intro f hf g hg hmf hmg
    by_contra ne
    obtain ⟨A, C, h⟩ := List.append_of_mem hf
    rw [h, List.mem_append, List.mem_cons] at hg
    rcases hg with hg | rfl | hg
    · obtain ⟨A, mid, rfl⟩ := List.append_of_mem hg
      have h : layersOf evs = A ++ g :: (mid ++ f :: C) := by simp [h]
      exact not_both_mounted B ho hn he hd hw hs h hmf hmg
    · exact ne rfl
    · obtain ⟨mid, C, rfl⟩ := List.append_of_mem hg
      exact not_both_mounted B ho hn he hd hw hs h hmg hmf
  · intro f hf t ht running g hg ne m hm
    exact absurd (show s.world.overlay g.name ≠ none by simp [hm])
      (not_mounted_of_running B ho hn he hd hw hs hf ht running hg ne)

/-! ## A run that finds another layer mounted -/

/-- `make`, where nothing is up to date. -/
def eagerBuild (cfg : Config) (evs : Reading) : Build cfg evs where
  goals g := g = .all
  goals_build _ h := .inl h
  tasks _ := 1
  fetch _ := 0
  drop a b := Relation.TransGen (Prereq (makefile cfg evs)) b a
  drop_circular _ _ h := h
  outdated _ _ := True
  upToDate _ _ := False

theorem eagerBuild_acyclic : Acyclic (eagerBuild cfg evs).system.Honours :=
  acyclic_firm _

/-- `make` comes to the unmount of every layer, and to its mount. -/
theorem path_overlay (ho : cfg.overlayfs = true) (hn : Distinct evs) (hd : DisjointTargets evs)
    (hf : f ∈ layersOf evs) :
    Relation.ReflTransGen (Prereq (makefile cfg evs)) .all (.overlayUmount f.name) ∧
      Relation.ReflTransGen (Prereq (makefile cfg evs)) .all (.overlayMount f.name) := by
  have hrecipe : Prereq (makefile cfg evs) .all .recipe :=
    .inl (normal_makefile.mpr (.inr (.inr .all)))
  have hlayer : Prereq (makefile cfg evs) .recipe (.layer f.name) := by
    refine .inl (normal_makefile.mpr (.inr (.inr (.recipe ?_))))
    rw [readAll_recipe]
    exact List.mem_map_of_mem hf
  have humount : Prereq (makefile cfg evs) (.layer f.name) (.overlayUmount f.name) := by
    obtain ⟨pre, post, rfl⟩ := mem_layersOf.mp hf
    exact .inr (orderOnly_makefile.mpr (.inl ⟨pre, f, post, rfl, .hookUmount⟩))
  have hmount : Prereq (makefile cfg evs) (.overlayUmount f.name) (.overlayMount f.name) :=
    (down_umount_mount ho hn hd hf).1.mono engineRules_subset
  have path := Relation.ReflTransGen.head hrecipe (.head hlayer (.single humount))
  exact ⟨path, path.tail hmount⟩

/-- **A later layer that is mounted in the beginning is still mounted when an earlier one is.** -/
theorem exists_both_mounted (ho : cfg.overlayfs = true) (hn : Distinct evs) (he : Earlier evs)
    (hd : DisjointTargets evs) (h : layersOf evs = A ++ g :: (mid ++ f :: C))
    (hm : Mounted f.name w) : ∃ s, (eagerBuild cfg evs).system.Reachable w s ∧
      Mounted g.name s.world ∧ Mounted f.name s.world := by
  have hg : g ∈ layersOf evs := by simp [h]
  have hf : f ∈ layersOf evs := by simp [h]
  have path := (path_overlay ho hn hd hg).2
  have below : ∀ m, Relation.ReflTransGen (eagerBuild cfg evs).system.Honours
      (.overlayMount g.name) m → Relation.ReflTransGen (Prereq (makefile cfg evs))
        (.overlayMount g.name) m :=
    fun m h => Relation.ReflTransGen.mono (fun _ _ e => e.1) _ _ h
  obtain ⟨s, run, done, other⟩ := System.exists_finished (S := (eagerBuild cfg evs).system)
    Cmd.exists_does (P := fun _ => True) (fun _ _ _ _ => trivial)
    (fun _ _ _ _ _ => .inl (.inr trivial)) eagerBuild_acyclic (s := System.start w) trivial
    {m | Relation.ReflTransGen (eagerBuild cfg evs).system.Honours (.overlayMount g.name) m}
    ((finite_descendants _ _).subset below) (fun a ha b e => ha.tail e)
    (fun m hm => ⟨.all, rfl, path.trans (below m hm)⟩)
    (fun m _ => by simp [System.start, Phase.Running])
  have order : ∀ {a b}, Relation.TransGen (Down cfg evs) a b →
      Relation.TransGen (eagerBuild cfg evs).system.Honours a b :=
    fun h => Relation.TransGen.mono (fun _ _ e => firm_of_down hn he hd e) _ _ h
  have chain := down_mount_umount ho hn hd h
  have down := down_umount_mount ho hn hd hg
  -- what waits for the mount of `g` is not considered
  have idle : ∀ {a}, Relation.TransGen (Down cfg evs) a (.overlayMount g.name) →
      s.phase a = .idle := by
    intro a ha
    exact other a fun path => eagerBuild_acyclic a (Relation.TransGen.trans_left (order ha) path)
  refine ⟨s, run, ?_, ?_⟩
  · rw [(overlayBracket _ ho hn he hd hg).iff_of_past run
      (by simp [Build.made_of_finished _ run (done _ .refl) trivial])]
    simp [idle (.single down)]
  · rw [(overlayBracket _ ho hn he hd hf).iff_of_idle run (idle (chain.tail down))]
    exact hm

/-- **Every run from `w` is exclusive exactly if no later layer is mounted in `w`.** -/
theorem excluded_iff (ho : cfg.overlayfs = true) (hn : Distinct evs) (he : Earlier evs)
    (hd : DisjointTargets evs) : Excluded cfg evs w ↔ FirstOnly evs w := by
  refine ⟨fun h A f C hsplit hA hm => ?_, FirstOnly.excluded ho hn he hd⟩
  obtain ⟨g, mid, rfl⟩ := List.exists_cons_of_ne_nil hA
  obtain ⟨s, hs, hg, hf⟩ := exists_both_mounted ho hn he hd (A := []) hsplit hm
  have same : g = f := (h _ s hs).one g (by simp [hsplit]) f (by simp [hsplit]) hg hf
  rw [Distinct, namesOf, hsplit, same] at hn
  simp at hn

/-! ## Histories -/

/-- **What a run that is stopped leaves behind**: nothing but the first layer, exactly if it was
the first layer that stopped it. -/
theorem firstOnly_iff_of_stoppedBy (ho : cfg.overlayfs = true) (hn : Distinct evs)
    (he : Earlier evs) (hd : DisjointTargets evs) (hw : FirstOnly evs w) {r : Run cfg evs}
    (hr : r.Starts w) (h : layersOf evs = A ++ f :: C) (stopped : r.StoppedBy f) :
    FirstOnly evs (Run.after w r) ↔ A = [] := by
  have hf : f ∈ layersOf evs := by simp [h]
  obtain ⟨t, ht, running⟩ := stopped
  constructor
  · intro only
    by_contra hA
    exact only A f C h hA (mounted_of_running r.build ho hn he hd hr hf ht running)
  · rintro rfl A' g C' h' hA'
    obtain ⟨f', mid, rfl⟩ := List.exists_cons_of_ne_nil hA'
    obtain ⟨rfl, -⟩ := List.cons.inj (h.symm.trans h')
    have ne : g ≠ f := by
      rintro rfl
      rw [Distinct, namesOf, h'] at hn
      simp at hn
    exact not_mounted_of_running r.build ho hn he hd hw hr hf ht running (by simp [h']) ne

/-- A run that completes leaves nothing mounted. -/
theorem firstOnly_of_completes (ho : cfg.overlayfs = true) (hn : Distinct evs) (he : Earlier evs)
    (hd : DisjointTargets evs) {r : Run cfg evs} (hr : r.Starts w) (complete : r.Completes) :
    FirstOnly evs (Run.after w r) := by
  intro A f C h _
  have hf : f ∈ layersOf evs := by simp [h]
  have finished : ∀ {a}, Relation.ReflTransGen (Prereq (makefile cfg evs)) .all a →
      Phony a → r.state.phase a = .made := fun path hp =>
    r.build.made_of_finished hr (complete.2 _ ⟨.all, complete.1, path⟩) hp
  obtain ⟨umount, mount⟩ := path_overlay ho hn hd hf
  show ¬ Mounted f.name r.state.world
  rw [(overlayBracket r.build ho hn he hd hf).iff_of_past hr (by simp [finished mount trivial])]
  simp [finished umount trivial]

/-- A history keeps the overlays apart if every run completes or is stopped by the first layer. -/
theorem FirstOnly.along {f : LayerFile} {C : List LayerFile} (ho : cfg.overlayfs = true)
    (hn : Distinct evs) (he : Earlier evs) (hd : DisjointTargets evs) (hw : FirstOnly evs w)
    (h : layersOf evs = f :: C) {runs : List (Run cfg evs)}
    (hruns : Along Run.after (fun w r => r.Starts w ∧ (r.Completes ∨ r.StoppedBy f)) w runs) :
    Along Run.after (fun w _ => FirstOnly evs w) w runs :=
  hruns.of_invariant (I := FirstOnly evs) (fun w r hw hr => by
    refine ⟨hw, ?_⟩
    rcases hr.2 with complete | stopped
    · exact firstOnly_of_completes ho hn he hd hr.1 complete
    · exact (firstOnly_iff_of_stoppedBy (A := []) ho hn he hd hw hr.1 h stopped).mpr rfl) hw

/-- **Overlays stay apart through a history of runs exactly if no run begins while a layer other
than the first is mounted.** -/
theorem exclusion_iff (cfg : Config) (evs : Reading) (ho : cfg.overlayfs = true)
    (hn : Distinct evs) (he : Earlier evs) (hd : DisjointTargets evs) (w : World)
    (runs : List (Run cfg evs)) :
    Along Run.after (fun w _ => Excluded cfg evs w) w runs ↔
      Along Run.after (fun w _ => FirstOnly evs w) w runs :=
  ⟨Along.mono fun _ _ => (excluded_iff ho hn he hd).mp,
    Along.mono fun _ _ => (excluded_iff ho hn he hd).mpr⟩

end Exclusion

/-! ## A root file system and an image -/

/-- A run of `make` that stops when the target `t` is being made. -/
theorem exists_stopped {w : World} {t : Path} (hwanted : Relation.ReflTransGen
    (Prereq (makefile ⟨true, false⟩ imageReading)) .all (.target t)) :
    ∃ r : Run ⟨true, false⟩ imageReading, r.Starts w ∧ (r.state.phase (.target t)).Running := by
  obtain ⟨s, hs, running⟩ := System.exists_reachable_running
    (S := (eagerBuild ⟨true, false⟩ imageReading).system) Cmd.exists_does
    (fun _ _ => .inr trivial) eagerBuild_acyclic w (.target t) (finite_descendants _ _)
    (fun m path => ⟨.all, rfl, hwanted.trans path⟩)
  exact ⟨⟨_, s⟩, hs, running⟩

/-- **After a failure in the image the next run mounts the root file system beside it.** -/
theorem not_exclusion_image : ∃ r₁ r₂ : Run ⟨true, false⟩ imageReading,
    Along Run.after (fun w r => r.Starts w) {} [r₁, r₂] ∧
      (r₁.state.phase (.target "disk")).Running ∧ ¬ Exclusive imageReading r₂.state := by
  have hf := List.mem_of_mem_getLast? (l := layersOf imageReading) rfl
  have hpath : Relation.ReflTransGen (Prereq (makefile ⟨true, false⟩ imageReading)) .all
      (.target "disk") :=
    .head (b := .recipe) (by decide) (.head (b := .layer "image") (by decide) (.single (by decide)))
  obtain ⟨r₁, start₁, running⟩ := exists_stopped (w := {}) hpath
  have hm : Mounted "image" r₁.state.world :=
    mounted_of_running r₁.build rfl (by decide) (by decide) (by decide) start₁ hf (by decide) running
  obtain ⟨s, hs, hg, hf'⟩ : ∃ s, (eagerBuild ⟨true, false⟩ imageReading).system.Reachable
      r₁.state.world s ∧ Mounted "rootfs" s.world ∧ Mounted "image" s.world :=
    exists_both_mounted rfl (by decide) (by decide) (by decide)
      (show layersOf imageReading = [] ++ _ :: ([] ++ _ :: []) from rfl) hm
  refine ⟨r₁, ⟨_, s⟩, ⟨start₁, hs, trivial⟩, running, fun h => ?_⟩
  have := h.one _ (.head _) _ hf hg hf'
  revert this
  decide

/-- A failure in the root file system does no harm. -/
theorem exclusion_image : ∃ r₁ r₂ : Run ⟨true, false⟩ imageReading,
    Along Run.after (fun w r => r.Starts w) {} [r₁, r₂] ∧
      (r₁.state.phase (.target "locale")).Running ∧ (r₂.state.phase (.target "disk")).Running ∧
      Along Run.after (fun w _ => Excluded ⟨true, false⟩ imageReading w) {} [r₁, r₂] := by
  have hlocale : Relation.ReflTransGen (Prereq (makefile ⟨true, false⟩ imageReading)) .all
      (.target "locale") :=
    .head (b := .recipe) (by decide) (.head (b := .layer "rootfs") (by decide) (.single (by decide)))
  have hdisk : Relation.ReflTransGen (Prereq (makefile ⟨true, false⟩ imageReading)) .all
      (.target "disk") :=
    .head (b := .recipe) (by decide) (.head (b := .layer "image") (by decide) (.single (by decide)))
  obtain ⟨r₁, start₁, running₁⟩ := exists_stopped (w := {}) hlocale
  obtain ⟨r₂, start₂, running₂⟩ := exists_stopped (w := r₁.state.world) hdisk
  have only : FirstOnly imageReading {} := fun A f C _ _ h => h rfl
  have h : layersOf imageReading = [] ++ _ :: [_] := rfl
  have only₁ : FirstOnly imageReading r₁.state.world :=
    (firstOnly_iff_of_stoppedBy rfl (by decide) (by decide) (by decide) only start₁ h
      ⟨"locale", by decide, running₁⟩).mpr rfl
  refine ⟨r₁, r₂, ⟨start₁, start₂, trivial⟩, running₁, running₂, ?_⟩
  exact (exclusion_iff ⟨true, false⟩ imageReading rfl (by decide) (by decide) (by decide) {} _).mpr
    ⟨only, only₁, trivial⟩

end VeRoot
