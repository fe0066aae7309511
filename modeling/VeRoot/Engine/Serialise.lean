import VeRoot.Engine.Acyclic
import VeRoot.Make.Run

/-!
# Layers are built in the order they are included

A serialised recipe appends the layer included just before to `RUNAFTER`, and so
chains every layer to its predecessor.  The link is made of targets: it joins the
targets of one layer to the targets of the other.  A layer without targets has
nothing to be joined by, and without overlays the chain ends there.  With overlays
the phony nodes `L_x.overlay_mount` and `L_x.overlay_umount` carry it on.

## Main definitions

* `engineRules` — the rules of `DEFINE_LAYER` and `BUILD_LAYER` alone.
* `Precedes` — one target always finishes before another begins.
* `Serialised` — every target of a layer precedes every target of a later one.
* `Bridged` — layers around a gap name each other.
* `serialised_iff` — the main result.
-/

namespace VeRoot

open Make

/-- The rules that `DEFINE_LAYER` and `BUILD_LAYER` generate, when `evs` is read in `σ`. -/
def engineRules (cfg : Config) (σ : Parse) : Reading → List (Rule Node)
  | [] => []
  | .layer f :: evs =>
    layerCleanInvalidate f.name ++ layerPreamble f.name ++ layerOutro f.name ++
      buildLayerRules cfg f (enterLayer f σ) ++ engineRules cfg (readLayer cfg f σ) evs
  | .secondPass entries :: evs => engineRules cfg (secondPass entries σ) evs

/-- The target `t` has a path of prerequisites to the target `u`, and no schedule
begins `t` before `u` is finished. -/
def Precedes (cfg : Config) (evs : Reading) (u t : Path) : Prop :=
  Relation.TransGen (Prereq (engineRules cfg {} evs)) (.target t) (.target u) ∧
    ∀ (κ W : Type) (S : System Node κ W), S.prereq = Prereq (makefile cfg evs) →
      ∀ w s, S.Reachable w s → s.phase (.target t) ≠ .idle → (s.phase (.target u)).Finished

/-- Every target of a layer precedes every target of each later layer. -/
def Serialised (cfg : Config) (evs : Reading) : Prop :=
  (layersOf evs).Pairwise fun g f => ∀ t ∈ f.targets, ∀ u ∈ g.targets, Precedes cfg evs u t

/-- When only layers without targets stand between two layers with targets, the
later one names the earlier one. -/
def Bridged (evs : Reading) : Prop :=
  ∀ A g mid f C, layersOf evs = A ++ g :: (mid ++ f :: C) → g.targets ≠ [] → f.targets ≠ [] →
    (∀ h ∈ mid, h.targets = []) → mid = [] ∨ g.name ∈ f.depends ∨ g.name ∈ f.runafter

section Rules

variable {cfg : Config} {evs pre post : Reading} {f : LayerFile} {σ : Parse} {r : Rule Node}

theorem mem_engineRules : r ∈ engineRules cfg σ evs ↔
    ∃ pre f post, evs = pre ++ .layer f :: post ∧
      r ∈ layerCleanInvalidate f.name ++ layerPreamble f.name ++ layerOutro f.name ++
        buildLayerRules cfg f (enterLayer f (pre.foldl (read cfg) σ)) := by
  induction evs generalizing σ with
  | nil => simp [engineRules]
  | cons e evs ih =>
    cases e with
    | layer f =>
      rw [engineRules, List.mem_append, ih]
      constructor
      · rintro (h | ⟨pre, g, post, rfl, h⟩)
        · exact ⟨[], f, evs, rfl, h⟩
        · exact ⟨.layer f :: pre, g, post, rfl, h⟩
      · rintro ⟨pre, g, post, he, h⟩
        rcases pre with _ | ⟨e, pre⟩
        · obtain ⟨rfl, rfl⟩ := by simpa using he
          exact .inl h
        · obtain ⟨rfl, rfl⟩ := by simpa using he
          exact .inr ⟨pre, g, post, rfl, h⟩
    | secondPass entries =>
      rw [engineRules, ih]
      constructor
      · rintro ⟨pre, g, post, rfl, h⟩
        exact ⟨.secondPass entries :: pre, g, post, rfl, h⟩
      · rintro ⟨pre, g, post, he, h⟩
        rcases pre with _ | ⟨e, pre⟩
        · simp at he
        · obtain ⟨rfl, rfl⟩ := by simpa using he
          exact ⟨pre, g, post, rfl, h⟩

theorem engineRules_subset : engineRules cfg {} evs ⊆ makefile cfg evs := by
  intro r hr
  obtain ⟨pre, f, post, rfl, h⟩ := mem_engineRules.mp hr
  refine List.mem_append_left _ (mem_readAll_rules.mpr ⟨pre, .layer f, post, rfl, ?_⟩)
  rcases List.mem_append.mp h with h | h
  · exact List.mem_append_left _ (List.mem_append_left _ (List.mem_append_left _ h))
  · exact List.mem_append_left _ (List.mem_append_right _ h)

theorem buildLayerRules_subset :
    buildLayerRules cfg f (enterLayer f (readAll cfg pre)) ⊆
      engineRules cfg {} (pre ++ .layer f :: post) := by
  intro r hr
  exact mem_engineRules.mpr ⟨pre, f, post, rfl, List.mem_append_right _ hr⟩

/-- `BUILD_LAYER` joins the targets of the layer to those of every layer it names. -/
theorem prereq_build_ref {t u : Path} {d : Name} (ht : t ∈ f.targets)
    (hd : d ∈ dependsRefs f.name (enterLayer f σ) ∨ d ∈ runafterList cfg (enterLayer f σ))
    (hu : u ∈ (enterLayer f σ).layerTargets d) :
    Prereq (buildLayerRules cfg f (enterLayer f σ)) (.target t) (.target u) := by
  have hts : Node.target t ∈ (enterLayer f σ).targetNodes f.name := by simp [ht]
  have hus : Node.target u ∈ (enterLayer f σ).targetNodes d := List.mem_map_of_mem hu
  rcases hd with hd | hd
  · left
    simp only [buildLayerRules, normal_append, normal_cons]
    exact .inl (.inl (.inl (.inr (.inl ⟨hts, List.mem_flatMap.mpr ⟨d, hd, hus⟩⟩))))
  · right
    simp only [buildLayerRules, orderOnly_append, orderOnly_flatMap, orderOnly_cons]
    exact .inl (.inr ⟨d, hd, .inl ⟨hts, hus⟩⟩)

/-- With overlays `BUILD_LAYER` puts the mount before the targets, the unmount after
both, and the mount after the previous layer's unmount. -/
theorem prereq_build_overlay (f : LayerFile) (σ : Parse) (ho : cfg.overlayfs = true) :
    (∀ t ∈ f.targets,
      Prereq (buildLayerRules cfg f (enterLayer f σ)) (.target t) (.overlayMount f.name) ∧
      Prereq (buildLayerRules cfg f (enterLayer f σ)) (.overlayUmount f.name) (.target t)) ∧
    Prereq (buildLayerRules cfg f (enterLayer f σ)) (.overlayUmount f.name) (.overlayMount f.name) ∧
    ∀ y, prevLayer (enterLayer f σ).recipe = some y →
      Prereq (buildLayerRules cfg f (enterLayer f σ)) (.overlayMount f.name) (.overlayUmount y) := by
  simp only [Prereq, buildLayerRules, hookLayer, ho, normal_append, normal_cons, orderOnly_append,
    orderOnly_cons, enterLayer_targetNodes_self, if_true]
  refine ⟨fun t ht => ⟨.inr ?_, .inr ?_⟩, .inl ?_, fun y hy => .inr ?_⟩
  · simp [ht]
  · simp [ht]
  · simp
  · exact .inr (.inl (.inl (.inl (orderOnly_overlayMount.mpr ⟨.inr rfl, .inr ⟨y, hy, .inl rfl⟩⟩))))

end Rules

/-! ## Links that lower the rank -/

/-- An edge of the engine's own rules that lowers the rank. -/
def Down (cfg : Config) (evs : Reading) (a b : Node) : Prop :=
  Prereq (engineRules cfg {} evs) a b ∧ rank evs b < rank evs a

section Down

variable {cfg : Config} {evs pre post : Reading} {f g : LayerFile} {t u : Path} {d : Name}

/-- A layer reaches the targets of an earlier layer it names. -/
theorem down_ref (hn : Distinct (pre ++ .layer f :: post))
    (hd : DisjointTargets (pre ++ .layer f :: post)) (hg : g ∈ layersOf pre)
    (h : g.name ∈ f.depends ∨ g.name ∈ f.runafter ∨
      (cfg.parallelLayers = false ∧ lastword (namesOf pre) = some g.name))
    (ht : t ∈ f.targets) (hu : u ∈ g.targets) :
    Down cfg (pre ++ .layer f :: post) (.target t) (.target u) := by
  have hne : g.name ≠ f.name := fun e => hn.notMem (e ▸ mem_namesOf.mpr ⟨g, hg, rfl⟩)
  have hg' : g ∈ layersOf (pre ++ .layer f :: post) := by simp [layersOf_append, hg]
  have href : u ∈ (enterLayer f (readAll cfg pre)).layerTargets g.name := by
    rw [enterLayer_layerTargets, Function.update_of_ne hne]
    exact (hn.of_append.mem_layerTargets hg).mpr hu
  constructor
  · refine Prereq.mono buildLayerRules_subset (prereq_build_ref ht ?_ href)
    rw [mem_dependsRefs hn.notMem, mem_runafterList hn.notMem]
    exact h
  · have := owner_lt_of_ref hn hd (mem_namesOf.mpr ⟨g, hg, rfl⟩) href
    simp only [rank, owner_split hd ht]
    omega

/-- With overlays the chain runs through the mounts and unmounts. -/
theorem down_overlay (ho : cfg.overlayfs = true) (hn : Distinct (pre ++ .layer f :: post))
    (hd : DisjointTargets (pre ++ .layer f :: post)) :
    (∀ t ∈ f.targets,
      Down cfg (pre ++ .layer f :: post) (.target t) (.overlayMount f.name) ∧
      Down cfg (pre ++ .layer f :: post) (.overlayUmount f.name) (.target t)) ∧
    Down cfg (pre ++ .layer f :: post) (.overlayUmount f.name) (.overlayMount f.name) ∧
    ∀ y, lastword (namesOf pre) = some y →
      Down cfg (pre ++ .layer f :: post) (.overlayMount f.name) (.overlayUmount y) := by
  have hp := pos_split post hn.notMem
  obtain ⟨htarget, humount, hprev⟩ := prereq_build_overlay f (readAll cfg pre) ho
  refine ⟨fun t ht => ⟨⟨(htarget t ht).1.mono buildLayerRules_subset, ?_⟩,
    ⟨(htarget t ht).2.mono buildLayerRules_subset, ?_⟩⟩,
    ⟨humount.mono buildLayerRules_subset, ?_⟩,
    fun y hy => ⟨(hprev y ?_).mono buildLayerRules_subset, ?_⟩⟩
  · simp only [rank, hp, owner_split hd ht]; omega
  · simp only [rank, hp, owner_split hd ht]; omega
  · simp only [rank]; omega
  · rw [prevLayer_enterLayer hn.notMem, hy]
  · have := pos_lt_of_mem f post (mem_of_lastword hy)
    simp only [rank, hp]; omega

end Down

/-! ## Chains -/

/-- A split of the layers is a split of the reading. -/
theorem exists_split {evs : Reading} (A : List LayerFile) (f : LayerFile) (C : List LayerFile)
    (h : layersOf evs = A ++ f :: C) :
    ∃ pre post, evs = pre ++ .layer f :: post ∧ layersOf pre = A := by
  obtain ⟨l₁, l₂, rfl, rfl, h₂⟩ := List.filterMap_eq_append_iff.mp h
  obtain ⟨l, e, post, rfl, hl, he, -⟩ := List.filterMap_eq_cons_iff.mp h₂
  obtain rfl : e = .layer f := by cases e <;> simp_all
  refine ⟨l₁ ++ l, post, by simp, ?_⟩
  rw [layersOf_append, show layersOf l = [] from List.filterMap_eq_nil_iff.mpr hl, List.append_nil]
  rfl

theorem exists_split_of_sublist {α : Type*} {l : List α} {g f : α} (h : [g, f].Sublist l) :
    ∃ A mid C, l = A ++ g :: (mid ++ f :: C) := by
  obtain ⟨r₁, r₂, rfl, hg, hf⟩ := List.cons_sublist_iff.mp h
  obtain ⟨A, B, rfl⟩ := List.append_of_mem hg
  obtain ⟨B', C, rfl⟩ := List.append_of_mem (List.singleton_sublist.mp hf)
  exact ⟨A, B ++ B', C, by simp⟩

section Chain

variable {cfg : Config} {evs : Reading} {f g : LayerFile} {A mid C : List LayerFile} {t u : Path}

/-- With overlays the mount of a layer comes after the unmount of every earlier one. -/
theorem down_mount_umount (ho : cfg.overlayfs = true) (hn : Distinct evs) (hd : DisjointTargets evs)
    (h : layersOf evs = A ++ g :: (mid ++ f :: C)) :
    Relation.TransGen (Down cfg evs) (.overlayMount f.name) (.overlayUmount g.name) := by
  induction mid using List.reverseRecOn generalizing f C with
  | nil =>
    obtain ⟨pre, post, rfl, hpre⟩ := exists_split (A ++ [g]) f C (h.trans (by simp))
    exact .single ((down_overlay ho hn hd).2.2 g.name (by simp [namesOf, hpre]))
  | append_singleton mid k ih =>
    obtain ⟨pre, post, rfl, hpre⟩ := exists_split (A ++ g :: (mid ++ [k])) f C (h.trans (by simp))
    have last : lastword (namesOf pre) = some k.name := by
      rw [namesOf, hpre]
      simpa using lastword_concat (A.map LayerFile.name ++ g.name :: mid.map LayerFile.name) k.name
    have up : Down cfg (pre ++ .layer f :: post) (.overlayMount f.name) (.overlayUmount k.name) :=
      (down_overlay ho hn hd).2.2 k.name last
    have hk := h.trans (show _ = A ++ g :: (mid ++ k :: f :: C) by simp)
    obtain ⟨pre', post', hsplit, -⟩ := exists_split (A ++ g :: mid) k (f :: C) (hk.trans (by simp))
    have down : Down cfg (pre ++ .layer f :: post) (.overlayUmount k.name) (.overlayMount k.name) := by
      rw [hsplit] at hn hd ⊢
      exact (down_overlay ho hn hd).2.1
    exact .head up (.head down (ih hk))

/-- With overlays every target precedes the targets of later layers. -/
theorem down_of_overlay (ho : cfg.overlayfs = true) (hn : Distinct evs) (hd : DisjointTargets evs)
    (h : layersOf evs = A ++ g :: (mid ++ f :: C)) (ht : t ∈ f.targets) (hu : u ∈ g.targets) :
    Relation.TransGen (Down cfg evs) (.target t) (.target u) := by
  have chain : Relation.TransGen (Down cfg evs) (.overlayMount f.name) (.overlayUmount g.name) :=
    down_mount_umount ho hn hd h
  have first : Down cfg evs (.target t) (.overlayMount f.name) := by
    obtain ⟨pre, post, rfl, -⟩ := exists_split (A ++ g :: mid) f C (h.trans (by simp))
    exact ((down_overlay ho hn hd).1 t ht).1
  have last : Down cfg evs (.overlayUmount g.name) (.target u) := by
    obtain ⟨pre, post, rfl, -⟩ := exists_split _ _ _ h
    exact ((down_overlay ho hn hd).1 u hu).2
  exact .head first (chain.tail last)

/-- **A bridged recipe is chained through its targets.**  The induction walks back over
the layers between `g` and `f`; `E` are the ones without targets seen since `f`. -/
theorem down_of_bridged (hp : cfg.parallelLayers = false) (hn : Distinct evs)
    (hd : DisjointTargets evs) (hb : Bridged evs) {E : List LayerFile}
    (h : layersOf evs = A ++ g :: (mid ++ (E ++ f :: C))) (hE : ∀ k ∈ E, k.targets = [])
    (ht : t ∈ f.targets) (hu : u ∈ g.targets) :
    Relation.TransGen (Down cfg evs) (.target t) (.target u) := by
  -- over layers without targets only, the link is direct
  have direct : ∀ A g E f C t u, layersOf evs = A ++ g :: (E ++ f :: C) →
      (∀ k ∈ E, k.targets = []) → t ∈ f.targets → u ∈ g.targets →
      Down cfg evs (.target t) (.target u) := by
    intro A g E f C t u h hE ht hu
    have link := hb A g E f C h (List.ne_nil_of_mem hu) (List.ne_nil_of_mem ht) hE
    obtain ⟨pre, post, rfl, hpre⟩ := exists_split (A ++ g :: E) f C (h.trans (by simp))
    refine down_ref hn hd (by simp [hpre]) ?_ ht hu
    rcases link with rfl | link | link
    · exact .inr (.inr ⟨hp, by simp [namesOf, hpre]⟩)
    · exact .inl link
    · exact .inr (.inl link)
  induction mid using List.reverseRecOn generalizing f E C t with
  | nil => exact .single (direct A g E f C t u h hE ht hu)
  | append_singleton mid k ih =>
    have hk := h.trans (show _ = A ++ g :: (mid ++ k :: (E ++ f :: C)) by simp)
    by_cases hkt : k.targets = []
    · exact ih (E := k :: E) hk (by simpa [hkt] using hE) ht
    · obtain ⟨v, hv⟩ := List.exists_mem_of_ne_nil _ hkt
      have step := direct (A ++ g :: mid) k E f C t v (hk.trans (by simp)) hE ht hv
      exact .head step (ih (E := []) hk (by simp) hv)

end Chain

/-! ## What a schedule shows -/

section Schedule

variable {cfg : Config} {evs : Reading} {f g : LayerFile} {t u : Path} {a b : Node}

/-- A link that lowers the rank lies on no cycle. -/
theorem firm_of_down (hn : Distinct evs) (he : Earlier evs) (hd : DisjointTargets evs)
    (h : Down cfg evs a b) : Firm (Prereq (makefile cfg evs)) a b := by
  refine firm_of_rank_lt (fun a b e => ?_) (h.1.mono engineRules_subset) h.2
  rcases rank_of_prereq hn he hd e with h | h <;> omega

/-- A chain of such links orders every schedule. -/
theorem precedes_of_down (hn : Distinct evs) (he : Earlier evs) (hd : DisjointTargets evs)
    (h : Relation.TransGen (Down cfg evs) (.target t) (.target u)) : Precedes cfg evs u t := by
  refine ⟨Relation.TransGen.mono (fun a b e => e.1) _ _ h, fun κ W S hS w s hs hb => ?_⟩
  refine hs.finished_of_firm_path (Relation.TransGen.mono (fun a b e => ?_) _ _ h) hb
  exact hS ▸ firm_of_down hn he hd e

/-- If the order holds no target belongs to two layers: such a target would have to be
finished before it begins. -/
theorem disjoint_of_serialised (h : Serialised cfg evs) : DisjointTargets evs := by
  refine h.imp fun {g f} hgf t htg htf => ?_
  let S : System Node Unit Unit :=
    { prereq := Prereq (makefile cfg evs)
      drop := fun a b => Relation.TransGen (Prereq (makefile cfg evs)) b a
      drop_circular := fun _ _ h => h
      wanted := fun _ => True
      recipe := fun _ => []
      exec := fun _ _ _ => True
      mayMake := fun _ _ => True
      mayKeep := fun _ _ => True }
  obtain ⟨s, hs, hrun⟩ := System.exists_reachable_running (S := S) (fun _ _ => ⟨(), trivial⟩)
    (fun _ _ => trivial) (acyclic_firm _) () (.target t) (finite_descendants _ _)
    (fun _ _ => trivial)
  exact hrun.not_finished ((hgf t htf t htg).2 Unit Unit S rfl () s hs hrun.ne_idle)

/-- Without overlays, what a target asks for is a target of its own layer, a target of a
layer that its layer names or follows, or a node below every target. -/
theorem target_prereq (ho : cfg.overlayfs = false) (hn : Distinct evs) (he : Earlier evs)
    (hd : DisjointTargets evs) (hf : f ∈ layersOf evs) (ht : t ∈ f.targets)
    (h : Prereq (makefile cfg evs) (.target t) b) :
    (∃ u ∈ f.targets, b = .target u) ∨
    (∃ g ∈ layersOf evs, (∃ u ∈ g.targets, b = .target u) ∧
      (g.name ∈ f.depends ∨ g.name ∈ f.runafter ∨
        ∃ pre post, evs = pre ++ .layer f :: post ∧ lastword (namesOf pre) = some g.name)) ∨
    b = .preamble f.name ∨ rank evs b ≤ 1 := by
  rcases h with h | h
  · rcases normal_makefile.mp h with ⟨pre, k, post, rfl, e⟩ | ⟨pre, es, post, rfl, e⟩ | e
    · have hk : k ∈ layersOf (pre ++ .layer k :: post) := by simp [layersOf_append]
      cases e with
      | buildDir | file | source | input => exact .inr (.inr (.inr (by simp [rank])))
      | depends ht' hdep hu =>
        obtain rfl := hd.eq hf hk ht ht'
        rw [mem_dependsRefs hn.notMem] at hdep
        obtain ⟨g, hg, rfl, hug⟩ := exists_earlier_of_mem_enterLayer hn.notMem (he.mem (.inl hdep)) hu
        exact .inr (.inl ⟨g, by simp [layersOf_append, hg], ⟨_, hug, rfl⟩, .inl hdep⟩)
      | own hown =>
        obtain rfl := hd.eq hf hk ht (k.own _ hown).1
        exact .inl ⟨_, (f.own _ hown).2, rfl⟩
    · obtain ⟨k, hk, g, hg, k', hk', hname, hdep, t', htk, u, hu, ht', rfl⟩ := e.exists_layers
      obtain rfl : t = t' := by simpa using ht'
      have sub := layersOf_subset pre (.secondPass es :: post)
      obtain rfl := hn.eq (sub hk') (sub hk) hname
      obtain rfl := hd.eq hf (sub hk) ht htk
      exact .inr (.inl ⟨g, sub hg, ⟨u, hu, rfl⟩, .inl hdep⟩)
    · cases e
  · rcases orderOnly_makefile.mp h with ⟨pre, k, post, rfl, e⟩ | e
    · have hk : k ∈ layersOf (pre ++ .layer k :: post) := by simp [layersOf_append]
      cases e with
      | preamble ht' =>
        obtain rfl := hd.eq hf hk ht ht'
        exact .inr (.inr (.inl rfl))
      | mount ho' => simp [ho] at ho'
      | ownAfter hown =>
        obtain rfl := hd.eq hf hk ht (k.ownAfter _ hown).1
        exact .inl ⟨_, (f.ownAfter _ hown).2, rfl⟩
      | @runafter t d u ht' hr hu =>
        obtain rfl := hd.eq hf hk ht ht'
        have hdn : d ∈ f.runafter ∨ lastword (namesOf pre) = some d :=
          ((mem_runafterList hn.notMem).mp hr).imp_right And.right
        have hmem : d ∈ namesOf pre := hdn.elim (fun h => he.mem (.inr h)) mem_of_lastword
        obtain ⟨g, hg, rfl, hug⟩ := exists_earlier_of_mem_enterLayer hn.notMem hmem hu
        refine .inr (.inl ⟨g, by simp [layersOf_append, hg], ⟨_, hug, rfl⟩, .inr ?_⟩)
        exact hdn.imp_right fun h => ⟨pre, post, rfl, h⟩
      | mountRefs ho' ha | mountPrevUmount ho' ha | mountPrevPreamble ho' ha => simp [ho] at ho'
    · cases e with
      | target => exact .inr (.inr (.inr (by simp [rank])))

/-- Without overlays nothing comes before a preamble. -/
theorem not_prereq_preamble (ho : cfg.overlayfs = false) {x : Name} :
    ¬ Prereq (makefile cfg evs) (.preamble x) b := by
  rintro (h | h)
  · rcases normal_makefile.mp h with ⟨pre, k, post, rfl, e⟩ | ⟨pre, es, post, rfl, e⟩ | e <;> cases e
  · rcases orderOnly_makefile.mp h with ⟨pre, k, post, rfl, e⟩ | e
    · cases e with
      | mountRefs ho' | mountPrevUmount ho' | mountPrevPreamble ho' => simp [ho] at ho'
    · cases e

/-- The position of a layer is where it stands. -/
theorem pos_eq_length (hn : Distinct evs) {A C : List LayerFile} (h : layersOf evs = A ++ f :: C) :
    pos evs f.name = A.length := by
  obtain ⟨pre, post, rfl, rfl⟩ := exists_split A f C h
  exact pos_split post hn.notMem

/-- A layer stands before `g`, is `g`, stands between `g` and `f`, or is not before `f`. -/
theorem mem_split (hn : Distinct evs) {A mid C : List LayerFile} {k : LayerFile}
    (h : layersOf evs = A ++ g :: (mid ++ f :: C)) (hk : k ∈ layersOf evs) :
    pos evs k.name < A.length ∨ k = g ∨ k ∈ mid ∨ A.length + (mid.length + 1) ≤ pos evs k.name := by
  rw [h] at hk
  simp only [List.mem_append, List.mem_cons] at hk
  rcases hk with hk | rfl | hk | rfl | hk
  · obtain ⟨B, B', rfl⟩ := List.append_of_mem hk
    have := pos_eq_length hn (h.trans (show _ = B ++ k :: (B' ++ g :: (mid ++ f :: C)) by simp))
    left; simp; omega
  · exact .inr (.inl rfl)
  · exact .inr (.inr (.inl hk))
  · have := pos_eq_length hn (h.trans (show _ = (A ++ g :: mid) ++ k :: C by simp))
    simp only [List.length_append, List.length_cons] at this
    omega
  · obtain ⟨B, B', rfl⟩ := List.append_of_mem hk
    have := pos_eq_length hn (h.trans (show _ = (A ++ g :: (mid ++ f :: B)) ++ k :: B' by simp))
    simp only [List.length_append, List.length_cons] at this
    omega

/-- The layer just before `f` is `g` only if nothing stands between them. -/
theorem last_of_prev {pre post : Reading} (hn : Distinct (pre ++ .layer f :: post))
    {A mid C : List LayerFile}
    (h : layersOf (pre ++ .layer f :: post) = A ++ g :: (mid ++ f :: C))
    (hl : lastword (namesOf pre) = some g.name) (hmid : ∀ m ∈ mid, m ≠ g) : mid = [] := by
  have hpos := pos_eq_length hn (h.trans (show _ = (A ++ g :: mid) ++ f :: C by simp))
  rw [pos_split post hn.notMem] at hpos
  have hpre : layersOf pre = A ++ g :: mid := by
    rw [layersOf_append, layersOf_cons_layer] at h
    exact (List.append_inj (h.trans (show _ = (A ++ g :: mid) ++ f :: C by simp)) hpos).1
  rcases List.eq_nil_or_concat mid with rfl | ⟨mid, m, rfl⟩
  · rfl
  · have last : lastword (namesOf pre) = some m.name := by
      rw [namesOf, hpre]
      simpa using lastword_concat (A.map LayerFile.name ++ g.name :: mid.map LayerFile.name) m.name
    have hname : m.name = g.name := Option.some.inj (last.symm.trans hl)
    refine absurd (hn.eq ?_ ?_ hname) (hmid m (by simp)) <;> simp [h]

/-- **Without overlays the order holds only of bridged recipes.**  The path between two
layers with only layers without targets between them crosses in one edge. -/
theorem bridged_of_serialised (ho : cfg.overlayfs = false) (hn : Distinct evs) (he : Earlier evs)
    (h : Serialised cfg evs) : Bridged evs := by
  have hd := disjoint_of_serialised h
  intro A g mid f C hsplit hgt hft hmid
  obtain ⟨u, hu⟩ := List.exists_mem_of_ne_nil _ hgt
  obtain ⟨t, ht⟩ := List.exists_mem_of_ne_nil _ hft
  have hf : f ∈ layersOf evs := by simp [hsplit]
  have hg : g ∈ layersOf evs := by simp [hsplit]
  have posg := pos_eq_length hn hsplit
  have posf := pos_eq_length hn (hsplit.trans (show _ = (A ++ g :: mid) ++ f :: C by simp))
  simp only [List.length_append, List.length_cons] at posf
  have sub : [g, f].Sublist (layersOf evs) := by simp [hsplit]
  have path := (List.pairwise_iff_forall_sublist.mp h sub t ht u hu).1
  have path' : Relation.ReflTransGen (Prereq (makefile cfg evs)) (.target t) (.target u) :=
    (Relation.TransGen.mono (fun _ _ e => e.mono engineRules_subset) _ _ path).to_reflTransGen
  have rank_le : ∀ a b, Relation.ReflTransGen (Prereq (makefile cfg evs)) a b →
      rank evs b ≤ rank evs a := by
    intro a b hab
    rcases Relation.reflTransGen_iff_eq_or_transGen.mp hab with rfl | hab
    · exact le_rfl
    · refine rank_le_of_path (fun a b e => ?_) hab
      rcases rank_of_prereq hn he hd e with h | h <;> omega
  -- the edge by which the path leaves the targets of `f`
  have hout : ¬ ∃ v ∈ f.targets, Node.target u = .target v := by
    rintro ⟨v, hv, e⟩
    obtain rfl : u = v := by simpa using e
    obtain rfl := hd.eq hf hg hv hu
    omega
  obtain ⟨c, d, ⟨t', ht', rfl⟩, hdout, e, rest⟩ :=
    exists_edge_leaving (P := fun a => ∃ v ∈ f.targets, a = .target v) path' ⟨t, ht, rfl⟩ hout
  have hrank := rank_le _ _ rest
  have ranku : rank evs (.target u) = 4 * A.length + 3 := by
    rw [rank, owner_eq_pos hn hd hg hu, posg]
  rcases target_prereq ho hn he hd hf ht' e with hin | ⟨k, hk, ⟨v, hv, rfl⟩, link⟩ | rfl | hlow
  · exact absurd hin hdout
  · -- `k` stands before `f`, not before `g`, and is not one of `mid`
    have hkf : pos evs k.name < pos evs f.name := by
      rcases link with hl | hl | ⟨pre, post, rfl, hl⟩
      · exact Earlier.pos_lt hn he hf (.inl hl)
      · exact Earlier.pos_lt hn he hf (.inr hl)
      · rw [pos_split post hn.notMem]
        exact pos_lt_of_mem f post (mem_of_lastword hl)
    have hkg : pos evs g.name ≤ pos evs k.name := by
      simp only [rank, owner_eq_pos hn hd hk hv, owner_eq_pos hn hd hg hu] at hrank
      omega
    rcases mem_split hn hsplit hk with hlt | rfl | hmem | hge
    · omega
    · rcases link with hl | hl | ⟨pre, post, rfl, hl⟩
      · exact .inr (.inl hl)
      · exact .inr (.inr hl)
      · exact .inl (last_of_prev hn hsplit hl fun m hm e => hgt (e ▸ hmid m hm))
    · rw [hmid k hmem] at hv
      exact absurd hv (by simp)
    · omega
  · rcases Relation.ReflTransGen.cases_head rest with e | ⟨x, e, -⟩
    · cases e
    · exact absurd e (not_prereq_preamble ho)
  · omega

end Schedule

/-! ## The main result -/

/-- **The order of inclusion is the order of the build** exactly when no two layers
register the same target and either overlays are in use or the recipe is bridged. -/
theorem serialised_iff (cfg : Config) (evs : Reading) (hp : cfg.parallelLayers = false)
    (hn : Distinct evs) (he : Earlier evs) :
    Serialised cfg evs ↔ DisjointTargets evs ∧ (cfg.overlayfs = true ∨ Bridged evs) := by
  constructor
  · intro h
    refine ⟨disjoint_of_serialised h, ?_⟩
    cases ho : cfg.overlayfs with
    | true => exact .inl rfl
    | false => exact .inr (bridged_of_serialised ho hn he h)
  · rintro ⟨hd, h⟩
    refine List.pairwise_iff_forall_sublist.mpr fun {g f} hgf t ht u hu => ?_
    obtain ⟨A, mid, C, hsplit⟩ := exists_split_of_sublist hgf
    refine precedes_of_down hn he hd ?_
    rcases h with ho | hb
    · exact down_of_overlay ho hn hd hsplit ht hu
    · exact down_of_bridged (E := []) hp hn hd hb hsplit (by simp) ht hu

/-- A kernel, a layer without targets, and an image. -/
def gapReading : Reading :=
  [.layer { name := "kernel", file := "kernel.mk", decls := [.target "Image"] },
    .layer { name := "users", file := "users.mk", decls := [] },
    .layer { name := "image", file := "image.mk", decls := [.target "disk"] }]

theorem serialised_gap_overlay : Serialised ⟨true, false⟩ gapReading :=
  (serialised_iff ⟨true, false⟩ gapReading rfl (by decide) (by decide)).mpr ⟨by decide, .inl rfl⟩

/-- Without overlays nothing orders the image after the kernel. -/
theorem not_serialised_gap :
    Distinct gapReading ∧ Earlier gapReading ∧ ¬ Serialised ⟨false, false⟩ gapReading := by
  refine ⟨by decide, by decide, fun h => ?_⟩
  have hb := bridged_of_serialised rfl (by decide) (by decide) h
  have := hb [] { name := "kernel", file := "kernel.mk", decls := [.target "Image"] }
    [{ name := "users", file := "users.mk", decls := [] }]
    { name := "image", file := "image.mk", decls := [.target "disk"] } [] rfl
  simp [LayerFile.targets, LayerFile.depends, LayerFile.runafter, Decl.targets, Decl.dependsOn,
    Decl.runsAfter] at this

end VeRoot
