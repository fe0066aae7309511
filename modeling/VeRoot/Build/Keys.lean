import VeRoot.Build.Rebuild
import VeRoot.Make.Sparing
import VeRoot.Overlay.Discipline

/-!
# Targets that are made once

A layer that sets `LAYER_NODEPEND_FILE` has targets that are not to be made again, such as
the signing keys of `layers/bootloader/u-boot-security.mk`.  Without `DEPENDS` and without
sources its targets still have the build directory of the layer as a normal prerequisite,
and `make mrproper` removes that directory while the keys, which are elsewhere, stay.

## Main definitions

* `Invocation`, `Act` — one `make`, and what may happen to the files.
* `KeyLayer`, `Invocation.Reads` — a layer of this kind, through the versions of its file.
* `Act.Keeps` — no target that exists is remade, except for another one of the layer.
* `KeyLayer.Careful` — what the targets are compared with changes while there are none.
* `keysKept` — the main result.
* `exists_remade` — what happens after `make mrproper`.
-/

namespace VeRoot

open Make

/-- One `make`: what it reads and what its recipes write. -/
structure Invocation where
  cfg : Config
  evs : Reading
  walk : Walk cfg evs
  writes : Path → List Node
  /-- A target, a layer, a directory or an overlay, say; cleaning is an act of its own. -/
  goal : Node
  built : Built goal
  /-- The layer with the keys, as its file says it at the time. -/
  layer : LayerFile

/-- The files of the configuration, for the goal that is asked for. -/
def Invocation.project (i : Invocation) : Project Node :=
  { VeRoot.project i.cfg i.evs i.walk i.writes with goal := i.goal }

/-- A layer whose targets are outside `$(OUT)`. -/
structure KeyLayer where
  /-- `LAYER` -/
  name : Name
  /-- `LFILE` -/
  file : Path
  /-- The files under `$(OUT)`. -/
  out : Path → Bool
  /-- The files the layer registers, in one version or another. -/
  keys : Path → Prop
  /-- The other files that its own rules name. -/
  inputs : Path → Prop
  outside : ∀ t, keys t → out t = false

/-- What may happen to the files. -/
inductive Act
  /-- A `make` that completes, fails or is stopped, and leaves the state `s` behind. -/
  | make (i : Invocation) (s : State Node (FileCmd Node) (Files Node))
  /-- The layer file is edited. -/
  | edit
  /-- `make mrproper` -/
  | mrproper
  /-- Somebody removes files. -/
  | remove (gone : Node → Bool)

/-- The layer file is a layer of this kind. -/
structure Invocation.Reads (i : Invocation) (L : KeyLayer) : Prop where
  read : i.layer ∈ layersOf i.evs
  name : i.layer.name = L.name
  file : i.layer.file = L.file
  nodependFile : i.layer.nodependFile = true
  depends : i.layer.depends = []
  sources : i.layer.sources = []
  keys : ∀ t ∈ i.layer.targets, L.keys t
  inputs : ∀ e ∈ i.layer.inputs, L.inputs e.2

/-- Layers have names of their own, and the keys are registered by one of them only. -/
structure Invocation.Alone (i : Invocation) (L : KeyLayer) : Prop where
  distinct : Distinct i.evs
  owner : ∀ g ∈ layersOf i.evs, ∀ t ∈ g.targets, L.keys t → g = i.layer

/-- A target that exists is remade only if another target of the layer that it depends on
is remade in the same run or is newer. -/
def Act.Keeps (w : Files Node) : Act → Prop
  | .make i s => ∀ t ∈ i.layer.targets, w.mtime (.target t) ≠ 0 → (s.phase (.target t)).Executed →
      ∃ u, (t, u) ∈ i.layer.deps ∧
        ((s.phase (.target u)).Executed ∨ w.mtime (.target t) < s.world.mtime (.target u))
  | .edit | .mrproper | .remove _ => True

namespace KeyLayer

variable (L : KeyLayer)

/-- What `rm -rf $(OUT)` removes. -/
def inOut : Node → Bool
  | .buildDir _ => true
  | .file p | .source p | .target p => L.out p
  | _ => false

/-- The files after an act. -/
def after (w : Files Node) : Act → Files Node
  | .make _ s => s.world
  | .edit => w.set (.file L.file)
  | .mrproper => w.remove L.inOut
  | .remove gone => w.remove gone

/-- The targets of the layer. -/
def Key (n : Node) : Prop := ∃ t, L.keys t ∧ n = .target t

/-- What the targets are compared with, apart from each other. -/
def Base (n : Node) : Prop := n = .buildDir L.name ∨ ∃ p, L.inputs p ∧ n = .file p

/-- A `make` reads the layer and goes the way a make can go. -/
def Happens (w : Files Node) : Act → Prop
  | .make i s => i.Reads L ∧ i.project.system.Reachable w s
  | .edit | .mrproper | .remove _ => True

/-- No command of a `make` changes what the targets are compared with while there is a
target, and neither does the edit. -/
def Careful (w : Files Node) : Act → Prop
  | .make i s => i.Alone L ∧ (i.project.sparing L.Base L.Key).Reachable w s
  | .edit => ¬ L.inputs L.file
  | .mrproper | .remove _ => True

end KeyLayer

section Keys

variable {L : KeyLayer} {i : Invocation} {w : Files Node}
  {s : State Node (FileCmd Node) (Files Node)} {as : List Act} {b n : Node} {t : Path}

theorem Invocation.project_tidy : i.project.Tidy :=
  have h : (VeRoot.project i.cfg i.evs i.walk i.writes).Tidy := VeRoot.project_tidy
  ⟨h.rule_of_phony, h.recipe_of_phony, h.not_phony, h.recipe_of_file, h.eq_of_touch,
    h.recipe_of_create⟩

/-! ## The prerequisites of a key -/

/-- **What the engine attaches to a key**: the build directory of its layer.  The other
normal prerequisites are those of the layer's own rules. -/
theorem Invocation.Reads.normal (h : i.Reads L) (alone : i.Alone L) (ht : t ∈ i.layer.targets)
    (hn : Normal (makefile i.cfg i.evs) (.target t) b) :
    L.Base b ∨ ∃ u, (t, u) ∈ i.layer.deps ∧ b = .target u := by
  have only : ∀ g ∈ layersOf i.evs, t ∈ g.targets → g = i.layer :=
    fun g hg htg => alone.owner g hg t htg (h.keys t ht)
  rcases normal_makefile.mp hn with ⟨pre, g, post, hevs, e⟩ | ⟨pre, es, post, hevs, e⟩ | e
  · have hg : g ∈ layersOf i.evs := by simp [hevs, layersOf_append]
    cases e with
    | buildDir htg =>
      obtain rfl := only g hg htg
      exact .inl (.inl (by rw [h.name]))
    | file htg hf =>
      obtain rfl := only g hg htg
      simp [h.nodependFile] at hf
    | @source ds ds' t p hds htg =>
      obtain rfl := only g hg (by
        rw [LayerFile.targets, hds, Decl.targets, List.filterMap_append]
        exact List.mem_append_left _ htg)
      have hp : p ∈ i.layer.sources := by simp [LayerFile.sources, Decl.sources, hds]
      simp [h.sources] at hp
    | depends htg hd hu =>
      obtain rfl := only g hg htg
      have hnew : i.layer.name ∉ namesOf pre :=
        Distinct.notMem (show Distinct (pre ++ .layer i.layer :: post) from hevs ▸ alone.distinct)
      rw [mem_dependsRefs hnew, h.depends] at hd
      simp at hd
    | own he =>
      obtain rfl := only g hg (g.own _ he).1
      exact .inr ⟨_, he, rfl⟩
    | input he =>
      obtain rfl := only g hg (g.ownInputs _ he)
      exact .inl (.inr ⟨_, h.inputs _ he, rfl⟩)
  · obtain ⟨f, hf, g, -, k, hk, hname, hdep, t', ht', u, -, htt, -⟩ := e.exists_layers
    cases htt
    have sub : ∀ g ∈ layersOf pre, g ∈ layersOf i.evs := by
      intro g hg
      rw [hevs, layersOf_append]
      exact List.mem_append_left _ hg
    obtain rfl := only f (sub f hf) ht'
    obtain rfl := alone.distinct.eq (sub k hk) h.read hname
    simp [h.depends] at hdep
  · cases e

/-- A file that a rule of the layer names is not made. -/
theorem Invocation.not_executed_file {p : Path} (h : i.project.system.Reachable w s) :
    ¬ (s.phase (.file p)).Executed := by
  intro executed
  rcases isTarget_file (Project.isTarget_of_executed h executed) id with
    ⟨f, -, t, -, e⟩ | ⟨x, e⟩ | ⟨q, e⟩ <;> cases e

/-- In a careful run nothing that the keys are compared with is made while there is one. -/
theorem Invocation.not_made (hb : L.Base b) (hkey : L.Key n) (exists_n : w.mtime n ≠ 0)
    (h : (i.project.sparing L.Base L.Key).Reachable w s) : s.phase b ≠ .made := by
  rcases hb with rfl | ⟨p, hp, rfl⟩
  · refine Project.not_made_of_sparing (P := i.project) (.inl rfl) (fun ph => ph.1) rfl
      (fun a ha => ?_) hkey exists_n h
    obtain ⟨⟨t, e⟩, -⟩ := normal_file ha.1 id
    cases e
  · intro made
    have executed : (s.phase (.file p)).Executed := by
      rw [made]
      trivial
    exact i.not_executed_file (Project.reachable_of_sparing h) executed

/-! ## Histories -/

/-- One act. -/
theorem KeyLayer.keeps_of_careful {a : Act} (fresh : Fresh L.Base L.Key w) (happens : L.Happens w a)
    (careful : L.Careful w a) : a.Keeps w ∧ Fresh L.Base L.Key (L.after w a) := by
  cases a with
  | make i s =>
    obtain ⟨reads, -⟩ := happens
    obtain ⟨alone, run⟩ := careful
    refine ⟨fun t ht exists_t executed => ?_, Project.fresh_of_sparing fresh run⟩
    have hkey : L.Key (.target t) := ⟨t, reads.keys t ht, rfl⟩
    obtain ⟨b, hforces, hbase, hb⟩ := Project.exists_newer_of_executed (P := i.project) fresh hkey
      (fun ph => ph.1) exists_t (fun b hb _ s hs => i.not_made hb hkey exists_t hs) run executed
    obtain ⟨u, hu, rfl⟩ := (reads.normal alone ht hforces.1).resolve_left hbase
    exact ⟨u, hu, hb⟩
  | edit =>
    refine ⟨trivial, fresh.set ?_⟩
    rintro (e | ⟨p, hp, e⟩)
    · cases e
    · cases e
      exact absurd hp careful
  | mrproper | remove => exact ⟨trivial, fresh.remove _⟩

/-- **No key that exists is remade**, however often make is run, the layer file is edited and
files are removed, as long as every run is careful. -/
theorem keysKept (L : KeyLayer) (w : Files Node) (as : List Act)
    (happens : Along L.after L.Happens w as) (fresh : Fresh L.Base L.Key w)
    (careful : Along L.after L.Careful w as) : Along L.after Act.Keeps w as :=
  (happens.and careful).of_invariant (I := Fresh L.Base L.Key)
    (fun _ _ fresh h => KeyLayer.keeps_of_careful fresh h.1 h.2) fresh

/-! ## Careful runs -/

/-- The build directory of the layer is a prerequisite of its targets that make honours. -/
theorem Invocation.Reads.forces (h : i.Reads L) (ht : t ∈ i.layer.targets) :
    i.project.Forces (.target t) (.buildDir L.name) := by
  obtain ⟨pre, post, hevs⟩ := mem_layersOf.mp h.read
  exact @forces_leaf _ _ i.walk i.writes _ _ (.inl ⟨_, rfl⟩)
    (normal_makefile.mpr (.inl ⟨pre, i.layer, post, hevs, h.name ▸ .buildDir ht⟩))

/-- **Every run is careful** that finds the build directory if it finds a target, and whose
recipes leave the directory and the targets of the layer alone. -/
theorem Invocation.Reads.careful (h : i.Reads L) (alone : i.Alone L)
    (confined : ∀ t, ∀ n ∈ i.writes t, ¬ L.Base n ∧ ¬ L.Key n)
    (built : w.mtime (.buildDir L.name) = 0 → ∀ t, L.keys t → w.mtime (.target t) = 0)
    (run : i.project.system.Reachable w s) : L.Careful w (.make i s) := by
  refine ⟨alone, Project.sparing_of_reachable i.project_tidy ?_ ?_ ?_ ?_ ?_ ?_ run⟩
  · rintro u ⟨t, -, rfl⟩ ph
    exact ph.1
  · intro m n hn
    obtain ⟨t, -, ht⟩ := change_mem_fileRecipe hn
    exact confined t n ht
  · rintro b (rfl | ⟨p, -, rfl⟩) ht
    · exact absurd (List.mem_singleton.mp ht) nofun
    · exact absurd ht List.not_mem_nil
  · rintro u ⟨t, -, rfl⟩ e
    have last : (i.project.recipe (.target t)).getLast? = some (.touch (.target t)) :=
      List.getLast?_append_of_ne_nil _ (by simp)
    rw [e] at last
    cases last
  · rintro u b ⟨t, hkey, rfl⟩ hu (rfl | ⟨p, -, rfl⟩) e
    · obtain ⟨g, hg, t', ht, et⟩ := registered_of_isTarget hu
      cases et
      obtain rfl := alone.owner g hg t ht hkey
      exact h.forces ht
    · cases e
  · rintro b (rfl | ⟨p, -, rfl⟩) e h0 u ⟨t, ht, rfl⟩
    · exact built h0 t ht
    · cases e

/-- **After `make mrproper` the next run remakes every key**, and with it the file that was
there. -/
theorem Invocation.Reads.exists_remade (h : i.Reads L) (ht : t ∈ i.layer.targets)
    (wanted : i.project.system.wanted (.target t)) (stocked : i.project.Stocked (w.remove L.inOut)) :
    ∃ s, i.project.system.Reachable (w.remove L.inOut) s ∧ (s.phase (.target t)).Executed :=
  Project.exists_executed_of_missing i.project_tidy stocked ⟨wanted, fun ph => ph.1⟩ (h.forces ht)
    rfl

end Keys

/-! ## The keys of the boot loader -/

/-- `layers/bootloader/u-boot-security.mk` -/
def ubootSecurity : LayerFile where
  name := "uboot-security"
  file := "u-boot-security.mk"
  nodependFile := true
  decls := [.target "uboot_rsa_dev.key", .target "uboot_rsa_dev.crt"]
  deps := [("uboot_rsa_dev.crt", "uboot_rsa_dev.key")]

/-- The keys are in `$(KEY_PATH)`. -/
def ubootKeys : KeyLayer where
  name := "uboot-security"
  file := "u-boot-security.mk"
  out _ := false
  keys t := t = "uboot_rsa_dev.key" ∨ t = "uboot_rsa_dev.crt"
  inputs _ := False
  outside _ _ := rfl

/-- The level of a node of a recipe with this layer alone. -/
def ubootRank : Node → ℕ
  | .all => 9
  | .recipe => 8
  | .layer _ => 7
  | .outro _ | .overlayUmount _ | .chroot _ => 6
  | .target t => if t = "uboot_rsa_dev.crt" then 5 else 4
  | .preamble _ | .overlayMount _ | .sourceCheckout | .size | .clean _ => 1
  | _ => 0

/-- `make`, whose recipes run `openssl` on files in `$(KEY_PATH)`. -/
def ubootMake : Invocation where
  cfg := ⟨true, false⟩
  evs := [.layer ubootSecurity]
  walk :=
    { drop := fun _ _ => False
      drop_circular := fun _ _ h => h.elim
      acyclic := acyclic_of_rank_lt ubootRank fun a b e =>
        (forall_prereq (P := fun a b => ubootRank b < ubootRank a)).mpr (by decide) a b e.1 }
  writes _ := []
  goal := .all
  built := trivial
  layer := ubootSecurity

theorem ubootMake_reads : ubootMake.Reads ubootKeys where
  read := .head _
  name := rfl
  file := rfl
  nodependFile := rfl
  depends := rfl
  sources := rfl
  keys t ht := by
    simpa [ubootKeys, ubootMake, ubootSecurity, LayerFile.targets, Decl.targets] using ht
  inputs e he := by simp [ubootMake, ubootSecurity] at he

theorem ubootMake_alone : ubootMake.Alone ubootKeys where
  distinct := by decide
  owner g hg t _ _ := by simpa [ubootMake, layersOf] using hg

/-- Every node has a rule. -/
theorem ubootMake_stocked (w : Files Node) : ubootMake.project.Stocked w := by
  intro m wanted hm
  refine absurd ?_ hm
  have closed : ∀ a b, Prereq (makefile ⟨true, false⟩ [.layer ubootSecurity]) a b →
      ∃ r ∈ makefile ⟨true, false⟩ [.layer ubootSecurity], b ∈ r.targets :=
    forall_prereq.mpr (by decide)
  rcases Relation.ReflTransGen.cases_tail wanted with e | ⟨a, -, e⟩
  · rw [e]
    exact ⟨⟨[.all], [.recipe], []⟩, by decide, by decide⟩
  · exact closed a m e

/-- The keys as the first `make` leaves them behind. -/
def ubootMade : Files Node where
  mtime
    | .buildDir _ => 1
    | .target t => if t = "uboot_rsa_dev.key" then 2 else if t = "uboot_rsa_dev.crt" then 3 else 0
    | _ => 0
  clock := 3
  le_clock n := by
    cases n with
    | target t =>
      dsimp only
      split_ifs <;> omega
    | _ => simp

theorem ubootMade_fresh : Fresh ubootKeys.Base ubootKeys.Key ubootMade := by
  rintro b u (rfl | ⟨p, hp, -⟩) ⟨t, rfl | rfl, rfl⟩ -
  · decide
  · decide
  · exact hp.elim
  · exact hp.elim

/-- **After `make mrproper` a `make` overwrites the private key.** -/
theorem not_keysKept_uboot : Fresh ubootKeys.Base ubootKeys.Key ubootMade ∧
    ∃ s, Along ubootKeys.after ubootKeys.Happens ubootMade [.mrproper, .make ubootMake s] ∧
      ¬ Along ubootKeys.after Act.Keeps ubootMade [.mrproper, .make ubootMake s] := by
  refine ⟨ubootMade_fresh, ?_⟩
  obtain ⟨s, run, executed⟩ := ubootMake_reads.exists_remade (w := ubootMade) (.head _)
    (wanted_target (f := ubootSecurity) (.head _) (.head _)) (ubootMake_stocked _)
  refine ⟨s, ⟨trivial, ⟨ubootMake_reads, run⟩, trivial⟩, ?_⟩
  rintro ⟨-, keeps, -⟩
  obtain ⟨u, hu, -⟩ := keeps "uboot_rsa_dev.key" (.head _) (by decide) executed
  simp [ubootMake, ubootSecurity] at hu

/-- A run of `ubootMake` that finds the build directory is careful. -/
theorem ubootMake_careful {w : Files Node} {s : State Node (FileCmd Node) (Files Node)}
    (built : w.mtime (.buildDir "uboot-security") ≠ 0)
    (run : ubootMake.project.system.Reachable w s) : ubootKeys.Careful w (.make ubootMake s) :=
  ubootMake_reads.careful ubootMake_alone (by simp [ubootMake]) (fun h => absurd h built) run

/-- The certificate is removed and made again, and the layer file is edited. -/
theorem keysKept_uboot : ∃ s₁ s₂,
    ubootMake.project.Completed (ubootMade.remove (· == .target "uboot_rsa_dev.crt")) s₁ ∧
    ubootMake.project.Completed (s₁.world.set (.file "u-boot-security.mk")) s₂ ∧
    Along ubootKeys.after Act.Keeps ubootMade
      [.remove (· == .target "uboot_rsa_dev.crt"), .make ubootMake s₁, .edit, .make ubootMake s₂] := by
  obtain ⟨s₁, run₁⟩ := Project.Stocked.exists_completed
    (ubootMake_stocked (ubootMade.remove (· == .target "uboot_rsa_dev.crt"))) ubootMake.project_tidy
  obtain ⟨s₂, run₂⟩ := Project.Stocked.exists_completed
    (ubootMake_stocked (s₁.world.set (.file "u-boot-security.mk"))) ubootMake.project_tidy
  have built : (s₁.world.set (.file "u-boot-security.mk")).mtime (.buildDir "uboot-security") ≠ 0 := by
    have := Project.mtime_le_of_reachable run₁.1 (.buildDir "uboot-security")
    rw [Files.set_mtime_of_ne (by decide)]
    have : (ubootMade.remove (· == .target "uboot_rsa_dev.crt")).mtime
      (.buildDir "uboot-security") = 1 := by decide
    omega
  refine ⟨s₁, s₂, run₁, run₂, keysKept ubootKeys ubootMade _ ?_ ubootMade_fresh ?_⟩
  · exact ⟨trivial, ⟨ubootMake_reads, run₁.1⟩, trivial, ⟨ubootMake_reads, run₂.1⟩, trivial⟩
  · exact ⟨trivial, ubootMake_careful (by decide) run₁.1, id, ubootMake_careful built run₂.1, trivial⟩

end VeRoot
