import VeRoot.Engine.Closed
import VeRoot.Engine.Depends
import VeRoot.Engine.Serialise
import VeRoot.Make.Recipe

/-!
# Missing run-order layers

`check_rundeps` of `mk/build_layer.mk` looks at every entry of `RUNAFTER`.  It makes `all`
wait for `rundep_error` if the text `$(L_d)` is empty, and it adds the entry to
`error_info` in any case, since an `$(eval)` is carried out when the text around it is
expanded.  The recipe of `rundep_error` ends in `echo … || false`.

## Main definitions

* `ordersAfter`, `Missing` — the entries of `RUNAFTER`, and those that name no layer before.
* `CommandLine`, `rundepErrorRecipe`, `dependencyErrorRecipe` — the recipes of
  `mk/environment.mk`.
* `MakeFails`, `RunsRundepError`, `Detects` — what `make` does about missing layers.
* `detects_iff` — the main result.
-/

namespace VeRoot

open Make

/-! ## What is missing -/

/-- The entries of `RUNAFTER` of the layer file `f`, read after `pre`: its own, and the one
that `serialise_layers` adds. -/
def ordersAfter (cfg : Config) (pre : Reading) (f : LayerFile) : List Name :=
  f.runafter ++
    if cfg.parallelLayers then [] else (prevLayer (namesOf pre ++ [f.name])).toList

/-- The pairs of a layer and an entry of its `RUNAFTER` that no layer included before it has
as its name. -/
def Missing (cfg : Config) (evs : Reading) : Set (Name × Name) :=
  {e | ∃ pre f post, evs = pre ++ .layer f :: post ∧ f.name = e.1 ∧ e.2 ∈ ordersAfter cfg pre f ∧
    e.2 ∉ namesOf pre}

/-! ## The recipes -/

/-- A command line of the recipes of `mk/environment.mk`. -/
inductive CommandLine
  /-- `echo` of a text that lists the words `x::d`. -/
  | echo (words : List (Name × Name))
  /-- `false` -/
  | false
  /-- `a || b` -/
  | or (a b : CommandLine)

/-- What a command line prints, and whether it succeeds. -/
def CommandLine.run : CommandLine → List (Name × Name) → List (Name × Name) × Bool
  | echo words, out => (out ++ words, true)
  | false, out => (out, Bool.false)
  | or a b, out => if (a.run out).2 then a.run out else b.run (a.run out).1

/-- `@echo "Layer runtime order not found for layer: $(error_info)" || false` -/
def rundepErrorRecipe (σ : Parse) : List CommandLine := [.or (.echo σ.errorInfo) .false]

/-- The recipe of `dependency_error`, for comparison. -/
def dependencyErrorRecipe (σ : Parse) : List CommandLine :=
  [.echo [], .echo σ.errorInfo, .false]

/-- What `rundep_error` prints and whether its recipe succeeds, after reading `evs`. -/
def rundepError (cfg : Config) (evs : Reading) : List (Name × Name) × Bool :=
  runRecipe CommandLine.run (rundepErrorRecipe (readAll cfg evs)) []

/-! ## A run of make -/

/-- `make` asks for the node. -/
def Asked (cfg : Config) (evs : Reading) (n : Node) : Prop :=
  Relation.ReflTransGen (Prereq (makefile cfg evs)) .all n

/-- What a run finds and what the recipes do in it, other than that of `rundep_error`. -/
structure RunOutcome where
  /-- The files of the source tree that are there. -/
  present : Path → Bool
  succeeds : Node → Bool

/-- Every file is there and every recipe succeeds. -/
def RunOutcome.fine : RunOutcome := ⟨fun _ => true, fun _ => true⟩

/-- Make has a rule for the node, or it is a file that is there. -/
def RunOutcome.Available (o : RunOutcome) (cfg : Config) (evs : Reading) (n : Node) : Prop :=
  IsTarget (makefile cfg evs) n ∨ ∃ p, n = .file p ∧ o.present p = true

/-- The recipe of the node fails. -/
def RunOutcome.RecipeFails (o : RunOutcome) (cfg : Config) (evs : Reading) (n : Node) : Prop :=
  IsTarget (makefile cfg evs) n ∧
    (if n = .rundepError then (rundepError cfg evs).2 else o.succeeds n) = false

/-- `make` fails: it asks for something that there is no rule for, or for something whose
recipe fails. -/
def MakeFails (cfg : Config) (evs : Reading) (o : RunOutcome) : Prop :=
  ∃ n, Asked cfg evs n ∧ (¬ o.Available cfg evs n ∨ o.RecipeFails cfg evs n)

/-- `make` runs `rundep_error`.  It comes to it after `recipe`, the first prerequisite of `all`,
and if there is no rule for something below `recipe` it has stopped. -/
def RunsRundepError (cfg : Config) (evs : Reading) (o : RunOutcome) : Prop :=
  Prereq (makefile cfg evs) .all .rundepError ∧
    ∀ n, Relation.ReflTransGen (Prereq (makefile cfg evs)) .recipe n → o.Available cfg evs n

/-- What a run reports. -/
def Reported (cfg : Config) (evs : Reading) (o : RunOutcome) : Set (Name × Name) :=
  {e | RunsRundepError cfg evs o ∧ e ∈ (rundepError cfg evs).1}

/-- Missing run-order layers make `make` fail, and are what it reports if nothing else fails;
when none is missing `rundep_error` is not run. -/
structure Detects (cfg : Config) (evs : Reading) : Prop where
  fails : (Missing cfg evs).Nonempty → ∀ o, MakeFails cfg evs o
  reports : (Missing cfg evs).Nonempty → Reported cfg evs .fine = Missing cfg evs
  silent : Missing cfg evs = ∅ → ∀ o, ¬ RunsRundepError cfg evs o

section RunOrder

variable {cfg : Config} {evs pre post : Reading} {f : LayerFile} {σ : Parse}

/-- `$(RUNAFTER)` as `BUILD_LAYER` walks through it. -/
theorem runafterList_enterLayer :
    runafterList cfg (enterLayer f (readAll cfg pre)) = ordersAfter cfg pre f := by
  rw [runafterList, ordersAfter, enterLayer_runafter, enterLayer_recipe, readAll_recipe]
  cases cfg.parallelLayers <;> simp

/-- The entry that serialisation adds is never missing. -/
theorem mem_ordersAfter_of_missing {d : Name} (h : d ∈ ordersAfter cfg pre f)
    (hd : d ∉ namesOf pre) : d ∈ f.runafter := by
  refine (List.mem_append.mp h).resolve_right fun h => hd ?_
  split_ifs at h
  · simp at h
  · have mem := mem_of_lastword (Option.mem_toList.mp h)
    have mem : d ∈ namesOf pre ∧ d ≠ f.name := by simpa [filterOut] using mem
    exact mem.1

/-! ## What is reported -/

/-- **Every entry of `RUNAFTER` is reported**, missing or not. -/
theorem mem_errorInfo {e : Name × Name} :
    e ∈ (readAll cfg evs).errorInfo ↔ ∃ pre f post, evs = pre ++ .layer f :: post ∧ f.name = e.1 ∧
      e.2 ∈ ordersAfter cfg pre f := by
  induction evs using List.reverseRecOn with
  | nil => simp [readAll]
  | append_singleton evs ev ih =>
    rw [readAll_concat]
    -- a split of `evs ++ [ev]` is at `ev` or is a split of `evs`
    have split : ∀ pre f post, evs ++ [ev] = pre ++ .layer f :: post ↔
        (pre = evs ∧ ev = .layer f ∧ post = []) ∨ ∃ post', evs = pre ++ .layer f :: post' ∧
          post = post' ++ [ev] := by
      intro pre f post
      constructor
      · intro h
        rcases List.eq_nil_or_concat post with rfl | ⟨post', x, rfl⟩
        · obtain ⟨rfl, he⟩ := List.append_inj' h rfl
          exact .inl ⟨rfl, List.singleton_inj.mp he, rfl⟩
        · have h' : evs ++ [ev] = (pre ++ .layer f :: post') ++ [x] := by simpa using h
          obtain ⟨rfl, he⟩ := List.append_inj' h' rfl
          obtain rfl := List.singleton_inj.mp he
          exact .inr ⟨post', rfl, List.concat_eq_append⟩
      · rintro (⟨rfl, rfl, rfl⟩ | ⟨post', rfl, rfl⟩)
        · rfl
        · simp
    have old : (∃ pre f post, (∃ post', evs = pre ++ .layer f :: post' ∧ post = post' ++ [ev]) ∧
        f.name = e.1 ∧ e.2 ∈ ordersAfter cfg pre f) ↔ e ∈ (readAll cfg evs).errorInfo := by
      rw [ih]
      constructor
      · rintro ⟨pre, f, -, ⟨post, h, -⟩, he⟩
        exact ⟨pre, f, post, h, he⟩
      · rintro ⟨pre, f, post, h, he⟩
        exact ⟨pre, f, _, ⟨post, h, rfl⟩, he⟩
    simp only [split, or_and_right, exists_or, old]
    cases ev with
    | layer f =>
      have new : (read cfg (readAll cfg evs) (.layer f)).errorInfo =
          (readAll cfg evs).errorInfo ++ (ordersAfter cfg evs f).map fun d => (f.name, d) := by
        rw [← runafterList_enterLayer]
        simp [read, readLayer, buildLayer]
      rw [new, List.mem_append, or_comm]
      refine or_congr_left ?_
      constructor
      · intro h
        obtain ⟨d, hd, rfl⟩ := List.mem_map.mp h
        exact ⟨evs, f, [], ⟨rfl, rfl, rfl⟩, rfl, hd⟩
      · rintro ⟨pre, g, -, ⟨rfl, hg, -⟩, hname, he⟩
        cases hg
        exact List.mem_map.mpr ⟨e.2, he, Prod.ext hname rfl⟩
    | secondPass es => simp [read, secondPass]

/-- **The recipe of `rundep_error` succeeds**: `echo` does. -/
theorem rundepError_eq : rundepError cfg evs = ((readAll cfg evs).errorInfo, true) := by
  simp [rundepError, rundepErrorRecipe, runRecipe, CommandLine.run]

/-- The recipe next to it fails. -/
theorem dependencyErrorRecipe_fails :
    (runRecipe CommandLine.run (dependencyErrorRecipe σ) []).2 = false := by
  simp [dependencyErrorRecipe, runRecipe, CommandLine.run]

/-! ## What is run -/

/-- **`all` waits for `rundep_error` when an entry of `RUNAFTER` stands for no target.** -/
theorem prereq_rundepError_iff :
    Prereq (makefile cfg evs) .all .rundepError ↔ ∃ pre f post, evs = pre ++ .layer f :: post ∧
      ∃ d ∈ ordersAfter cfg pre f, targetsOf (pre ++ [.layer f]) d = [] := by
  constructor
  · rintro (edge | edge)
    · rcases normal_makefile.mp edge with ⟨pre, f, post, rfl, e⟩ | ⟨pre, es, post, rfl, e⟩ | e
      all_goals cases e
    · rcases orderOnly_makefile.mp edge with ⟨pre, f, post, rfl, e⟩ | e
      · cases e with
        | rundeps hd hu =>
          rw [runafterList_enterLayer] at hd
          rw [enterLayer_layerTargets_concat] at hu
          exact ⟨pre, f, post, rfl, _, hd, hu⟩
      · cases e
  · rintro ⟨pre, f, post, rfl, d, hd, hu⟩
    refine .inr (orderOnly_makefile.mpr (.inl ⟨pre, f, post, rfl, .rundeps (d := d) ?_ ?_⟩))
    · rwa [runafterList_enterLayer]
    · rwa [enterLayer_layerTargets_concat]

/-- Without overlays make stops below `recipe`, as soon as there is a layer. -/
theorem not_available_overlayUmount (ho : cfg.overlayfs = false) (o : RunOutcome) :
    ¬ o.Available cfg evs (.overlayUmount f.name) := by
  rintro (h | ⟨p, h, -⟩)
  · exact not_isTarget_overlayUmount ho h
  · cases h

theorem not_runsRundepError (ho : cfg.overlayfs = false) (hf : f ∈ layersOf evs) (o : RunOutcome) :
    ¬ RunsRundepError cfg evs o := by
  rintro ⟨-, available⟩
  have layer : Prereq (makefile cfg evs) .recipe (.layer f.name) := by
    refine .inl (normal_makefile.mpr (.inr (.inr (.recipe ?_))))
    rw [readAll_recipe]
    exact List.mem_map_of_mem hf
  have umount : Prereq (makefile cfg evs) (.layer f.name) (.overlayUmount f.name) := by
    obtain ⟨pre, post, rfl⟩ := mem_layersOf.mp hf
    exact .inr (orderOnly_makefile.mpr (.inl ⟨pre, f, post, rfl, .hookUmount⟩))
  exact not_available_overlayUmount ho o (available _ (.head layer (.single umount)))

/-- With overlays, and if nothing else goes wrong, everything that is asked for is there. -/
theorem available_of_reach (ho : cfg.overlayfs = true) {a n : Node}
    (ha : IsTarget (makefile cfg evs) a)
    (h : Relation.ReflTransGen (Prereq (makefile cfg evs)) a n) :
    RunOutcome.fine.Available cfg evs n := by
  rcases Relation.ReflTransGen.cases_tail h with rfl | ⟨b, -, edge⟩
  · exact .inl ha
  · rcases isTarget_of_prereq ho edge with rule | ⟨p, rfl⟩
    · exact .inl rule
    · exact .inr ⟨p, rfl, rfl⟩

/-- The failure of `make` is never due to `rundep_error`. -/
theorem not_makeFails (ho : cfg.overlayfs = true) : ¬ MakeFails cfg evs .fine := by
  rintro ⟨n, asked, missing | ⟨-, fails⟩⟩
  · exact missing (available_of_reach ho (isTarget_goal (by simp)) asked)
  · simp [rundepError_eq, RunOutcome.fine] at fails

/-- With overlays `rundep_error` is run when `all` waits for it. -/
theorem runsRundepError_of_prereq (ho : cfg.overlayfs = true)
    (h : Prereq (makefile cfg evs) .all .rundepError) : RunsRundepError cfg evs .fine :=
  ⟨h, fun _ path => available_of_reach ho (isTarget_goal (by simp)) path⟩

/-- **Missing run-order layers are detected exactly if there are none and, with overlays, no
entry of `RUNAFTER` names a layer without targets.**  Without overlays a layer that is missing is
not reported: make has stopped before. -/
theorem detects_iff (cfg : Config) (evs : Reading) :
    Detects cfg evs ↔ ∀ pre f post, evs = pre ++ .layer f :: post → ∀ d ∈ ordersAfter cfg pre f,
      d ∈ namesOf pre ∧ (cfg.overlayfs = true → targetsOf (pre ++ [.layer f]) d ≠ []) := by
  constructor
  · intro h
    have none : Missing cfg evs = ∅ := by
      by_contra ne
      have some := Set.nonempty_iff_ne_empty.mpr ne
      cases ho : cfg.overlayfs with
      | true => exact not_makeFails ho (h.fails some _)
      | false =>
        obtain ⟨e, he⟩ := some
        obtain ⟨pre, f, post, hevs, -⟩ := id he
        have reported : e ∈ Reported cfg evs .fine := by rwa [h.reports ⟨e, he⟩]
        exact not_runsRundepError ho (mem_layersOf.mpr ⟨pre, post, hevs⟩) _ reported.1
    intro pre f post hevs d hd
    constructor
    · by_contra hd'
      have missing : (f.name, d) ∈ Missing cfg evs := ⟨pre, f, post, hevs, rfl, hd, hd'⟩
      rw [none] at missing
      exact missing
    · intro ho hu
      have edge := prereq_rundepError_iff.mpr ⟨pre, f, post, hevs, d, hd, hu⟩
      exact h.silent none _ (runsRundepError_of_prereq ho edge)
  · intro h
    have none : ¬ (Missing cfg evs).Nonempty := by
      rintro ⟨e, pre, f, post, hevs, -, he, hn⟩
      exact hn (h pre f post hevs e.2 he).1
    refine ⟨fun m => absurd m none, fun m => absurd m none, fun _ o runs => ?_⟩
    obtain ⟨pre, f, post, hevs, d, hd, hu⟩ := prereq_rundepError_iff.mp runs.1
    cases ho : cfg.overlayfs with
    | true => exact (h pre f post hevs d hd).2 ho hu
    | false => exact not_runsRundepError ho (mem_layersOf.mpr ⟨pre, post, hevs⟩) o runs

end RunOrder

/-! ## A root filesystem without a kernel -/

/-- The layer of `layers/debian/rootfs/layer.mk` alone: neither `bootloader` nor `kernel`. -/
def kernellessReading : Reading :=
  [.layer { name := "debian-rootfs", file := "debian/rootfs/layer.mk",
            decls := [.target "debian-rootfs-base", .target "debian-rootfs-patch",
              .target "debian-rootfs-config", .runafter "bootloader", .runafter "kernel"],
            deps := [("debian-rootfs-patch", "debian-rootfs-base"),
              ("debian-rootfs-config", "debian-rootfs-patch")],
            inputs := [("debian-rootfs-base", "packages.list")] }]

/-- **The missing layers do not make `make` fail**, and a layer without targets is reported
although nothing is missing. -/
theorem not_detects_rootfs :
    ¬ Detects ⟨true, true⟩ kernellessReading ∧ ¬ Detects ⟨true, false⟩ gapReading := by
  constructor
  · intro h
    have missing : ("debian-rootfs", "kernel") ∈ Missing ⟨true, true⟩ kernellessReading :=
      ⟨[], _, [], rfl, rfl, by decide, by decide⟩
    exact not_makeFails rfl (h.fails ⟨_, missing⟩ _)
  · intro h
    refine h.silent ?_ .fine (runsRundepError_of_prereq rfl (.inr ?_))
    · rw [Set.eq_empty_iff_forall_notMem]
      rintro e ⟨pre, f, post, hevs, -, he, hn⟩
      have none : ∀ f ∈ layersOf gapReading, f.runafter = [] := by decide
      have := mem_ordersAfter_of_missing he hn
      rw [none f (mem_layersOf.mpr ⟨pre, post, hevs⟩)] at this
      simp at this
    · exact ⟨⟨[.all], [], [.rundepError]⟩, by decide, by decide, by decide⟩

end VeRoot
