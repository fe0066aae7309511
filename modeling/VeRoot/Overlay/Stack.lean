import VeRoot.Overlay.Discipline
import VeRoot.Store.ChangeSet

/-!
# What a mounted overlay shows

Every `L_x/upper` holds the changes of one layer, and `L_base/upper` those of the
base.  The overlay of a layer is looked up in its own `upperdir` and then in its
`lowerdir` list from left to right.  That list is the reversed list of the layers
included so far, so the tree is the one that applying the layers in their order
gives.

## Main definitions

* `Mount.tree` — the tree of a mounted overlay.
* `StacksInOrder` — what the overlay of every layer shows.
* `stacksInOrder` — the main result.
-/

namespace VeRoot

open Make Store

variable {κ α : Type*}

/-- The tree shown at `$(OVERLAYFS)/L_x/mnt`, when `L_y/upper` holds `contents y`: `upperdir`
comes first, then `lowerdir` from left to right. -/
def Mount.tree (m : Mount) (x : Name) (contents : Name → ChangeSet κ α) : Tree κ α :=
  lookup ((x :: m.lowerdirs).map contents)

/-- The change sets of the base and of some layers, in the order of the layers. -/
def changesOf (contents : Name → ChangeSet κ α) (fs : List LayerFile) : List (ChangeSet κ α) :=
  contents "base" :: fs.map fun f => contents f.name

/-- In every build and whatever the layers have written, the mounted overlay of the layer
`f` shows the changes of the base, of the layers before `f` and of `f`, applied in that
order.  So the last of them with an entry for a path wins, and what the layers after `f`
have written does not matter.  While a target of `f` is being made, the overlay is mounted, if
`DEPENDS` and `RUNAFTER` name layers included before and no file is a target of two layers. -/
def StacksInOrder (cfg : Config) (evs : Reading) (κ α : Type*) : Prop :=
  ∀ (B : Build cfg evs) (w : World), (∀ x, w.overlay x = none) → ∀ s, B.system.Reachable w s →
    ∀ A f C, layersOf evs = A ++ f :: C →
      .mountOverlay f.name ((readAll cfg evs).lowerdirs f.name) ∈
        B.system.recipe (.overlayMount f.name) ∧
      (Earlier evs → DisjointTargets evs → ∀ t ∈ f.targets, (s.phase (.target t)).Running →
        Mounted f.name s.world) ∧
      ∀ m, s.world.overlay f.name = some m → ∀ contents : Name → ChangeSet κ α,
        m.tree f.name contents = applyAll (changesOf contents (A ++ [f])) (fun _ => none) ∧
        (∀ As D Ds p e, changesOf contents (A ++ [f]) = As ++ D :: Ds → D p = some e →
          (∀ D' ∈ Ds, D' p = none) → m.tree f.name contents p = e.shows) ∧
        ∀ contents' : Name → ChangeSet κ α, contents' "base" = contents "base" →
          (∀ g ∈ A ++ [f], contents' g.name = contents g.name) →
            m.tree f.name contents' = m.tree f.name contents

section Stack

variable {cfg : Config} {evs : Reading} {f : LayerFile} {A C : List LayerFile} {w : World}
  {s : State Node Cmd World}

/-- The only overlay that any recipe mounts at `L_x/mnt` has the layer's own `lowerdir` list. -/
theorem mountOverlay_mem_nodeRecipe {σ : Parse} {tasks fetch : Path → ℕ} {n : Node} {x : Name}
    {lowerdirs : List Name} (h : .mountOverlay x lowerdirs ∈ nodeRecipe cfg σ tasks fetch n) :
    lowerdirs = σ.lowerdirs x := by
  cases n with
  | overlayMount y =>
    obtain ⟨rfl, rfl⟩ : x = y ∧ lowerdirs = σ.lowerdirs y := by
      simpa [nodeRecipe, overlayMountRecipe] using h
    rfl
  | invalidate y | i y =>
    simp only [nodeRecipe, invalidateRecipe] at h
    split at h <;> simp at h
  | _ => simp [nodeRecipe, overlayUmountRecipe] at h

/-- Whatever is mounted at `L_x/mnt` was mounted by the recipe of `L_x.overlay_mount`. -/
theorem Build.lowerdirs_of_mounted (B : Build cfg evs) (hw : ∀ x, w.overlay x = none)
    (hs : B.system.Reachable w s) : ∀ x m, s.world.overlay x = some m →
      m.lowerdirs = (readAll cfg evs).lowerdirs x := by
  refine hs.invariant (P := fun s => ∀ x m, s.world.overlay x = some m →
    m.lowerdirs = (readAll cfg evs).lowerdirs x) (by simp [System.start, hw]) ?_
  intro s s' hs ih step x m hm
  cases step with
  | make | keep | finish => exact ih x m hm
  | exec n c rest w' running does =>
    have hc : c ∈ nodeRecipe cfg (readAll cfg evs) B.tasks B.fetch n :=
      (hs.suffix running).subset (by simp)
    by_cases ht : c.touches x = true
    · cases c with
      | umountR d =>
        obtain rfl := does
        simp_all [Cmd.run, Cmd.touches]
      | mountOverlay y lowerdirs =>
        obtain rfl : y = x := by simpa [Cmd.touches] using ht
        have hlower : lowerdirs = (readAll cfg evs).lowerdirs y := mountOverlay_mem_nodeRecipe hc
        obtain rfl := does
        obtain rfl : ⟨lowerdirs, s.world.dirs⟩ = m := by simpa [Cmd.run] using hm
        exact hlower
      | _ => simp [Cmd.touches] at ht
    · exact ih x m (by rwa [← Cmd.Does.overlay_eq does (by simpa using ht)])

/-- The stack of a layer is the reversed list of the base, the earlier layers and itself. -/
theorem stack_eq_reverse (ho : cfg.overlayfs = true) (hn : Distinct evs)
    (hsplit : layersOf evs = A ++ f :: C) (contents : Name → ChangeSet κ α) :
    (f.name :: (readAll cfg evs).lowerdirs f.name).map contents =
      (changesOf contents (A ++ [f])).reverse := by
  obtain ⟨pre, post, rfl, hpre⟩ := exists_split A f C hsplit
  rw [readAll_lowerdirs ho hn]
  simp [changesOf, namesOf, hpre, Function.comp_def]

end Stack

/-- **Overlay stacking is sequential application**, for every recipe with distinct names. -/
theorem stacksInOrder (κ α : Type*) (cfg : Config) (evs : Reading) (ho : cfg.overlayfs = true)
    (hn : Distinct evs) : StacksInOrder cfg evs κ α := by
  intro B w hw s hs A f C hsplit
  have hf : f ∈ layersOf evs := by simp [hsplit]
  refine ⟨by simp [Build.system, nodeRecipe, overlayMountRecipe],
    fun he hd t ht running => mounted_of_running B ho hn he hd hs hf ht running, ?_⟩
  intro m hm contents
  have tree : ∀ contents : Name → ChangeSet κ α,
      m.tree f.name contents = applyAll (changesOf contents (A ++ [f])) fun _ => none := by
    intro contents
    rw [Mount.tree, B.lowerdirs_of_mounted hw hs _ _ hm, stack_eq_reverse ho hn hsplit,
      lookup_reverse]
  refine ⟨tree contents, ?_, ?_⟩
  · intro As D Ds p e split hD last
    rw [tree, split]
    exact applyAll_of_last As hD last
  · intro contents' hbase hlayers
    rw [tree, tree, changesOf, changesOf, hbase, List.map_congr_left hlayers]

theorem stacksInOrder_image : StacksInOrder ⟨true, false⟩ imageReading String String :=
  stacksInOrder String String ⟨true, false⟩ imageReading rfl (by decide)

end VeRoot
