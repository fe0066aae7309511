import VeRoot.Source.Directories
import VeRoot.Store.Interleave

/-!
# Variants in one tree

A variant has its own `OUT`, and shares `SOURCE` with the others.  A source macro
fetches only what is not there yet, so a variant compiles whatever another one has
fetched into the same checkout directory.

## Main definitions

* `outputs`, `checkouts` — the paths of a variant.
* `Sources`, `Action`, `Sources.step` — fetching and compiling, in any order.
* `Isolated` — what is wanted of two variants.
* `isolated_iff` — the main result.
-/

namespace VeRoot

open Unix (Text)
open Store

/-- The paths that a build of the variant reaches through `OUT`, `BUILD` and so on. -/
def outputs (E : Place) (v : Text) : Set Unix.Path :=
  {p | ∃ d ∈ [E.out v, E.build v, E.stamp v, E.overlayfs v, E.rootfs v, E.boot v],
    p ∈ Unix.below (Unix.resolve d)}

/-- The paths that fetching some sources reaches: the `SRCDEST` files, and the checkout
directories with whatever is fetched there. -/
def checkouts (E : Place) (calls : List Call) : Set Unix.Path :=
  {p | ∃ a ∈ calls, p = a.srcdest E ∨ p ∈ Unix.below (a.checkout E)}

/-- What a compilation found: the variant, the source and the revision. -/
abbrev Finding := Text × Call × Option Rev

/-- What is below `SOURCE`, and what has been compiled. -/
structure Sources where
  /-- The file exists. -/
  present : Unix.Path → Bool := fun _ => false
  /-- What was last fetched into the directory. -/
  content : Unix.Path → Option Rev := fun _ => none
  compiled : List Finding := []

/-- What a build does with a source. -/
inductive Task
  | fetch | compile
  deriving DecidableEq, Repr

/-- One step of a build of some variant. -/
structure Action where
  variant : Text
  task : Task
  call : Call
  deriving DecidableEq

namespace Sources

/-- The recipe of `SRCDEST`, which does nothing when the file exists. -/
def fetch (E : Place) (a : Call) (σ : Sources) : Sources :=
  if σ.present (a.srcdest E) then σ
  else
    { σ with
      present := Function.update σ.present (a.srcdest E) true
      content := Function.update σ.content (a.checkout E) (some a.rev) }

/-- One step. -/
def step (E : Place) (σ : Sources) (e : Action) : Sources :=
  match e.task with
  | .fetch => σ.fetch E e.call
  | .compile => { σ with compiled := σ.compiled ++ [(e.variant, e.call, σ.content (e.call.checkout E))] }

/-- What the compilations of a variant have found. -/
def findings (σ : Sources) (v : Text) : List Finding := σ.compiled.filter fun f => f.1 = v

/-- The tree after a history that begins with a fresh one. -/
def after (E : Place) (h : List Action) : Sources := h.foldl (step E) {}

end Sources

/-- A history of builds of `v` and `v'`, each with its own sources. -/
def History (calls : Text → List Call) (v v' : Text) (h : List Action) : Prop :=
  ∀ e ∈ h, (e.variant = v ∨ e.variant = v') ∧ e.call ∈ calls e.variant

/-- The directories of two sources are the same or one lies in the other. -/
def Overlapping (E : Place) (a b : Call) : Prop :=
  a.checkout E <+: b.checkout E ∨ b.checkout E <+: a.checkout E

instance (E : Place) (a b : Call) : Decidable (Overlapping E a b) :=
  inferInstanceAs (Decidable (_ ∨ _))

/-- The variant itself fetches nothing else into the directory of `a`. -/
def Alone (E : Place) (calls : List Call) (a : Call) : Prop :=
  ∀ b ∈ calls, Overlapping E a b → b.checkout E = a.checkout E ∧ b.rev = a.rev

/-- Two variants do not interfere: their paths are disjoint; in every history of builds the
compilations of each find what they find in a tree of its own; and that is, for what the
variant fetches into a directory of its own before it compiles it, what its settings denote.
Outputs are compared with outputs and checkouts with checkouts; with an `OUT_BASE` below a
checkout directory the outputs of the one could lie in a checkout of the other. -/
def Isolated (E : Place) (calls : Text → List Call) (v v' : Text) : Prop :=
  Disjoint (outputs E v) (outputs E v') ∧
  Disjoint (checkouts E (calls v)) (checkouts E (calls v')) ∧
  ∀ h, History calls v v' h → ∀ x ∈ [v, v'],
    (Sources.after E h).findings x = (Sources.after E (purge Action.variant x h)).findings x ∧
    ∀ h₁ h₂ a, h = h₁ ++ ⟨x, .compile, a⟩ :: h₂ → ⟨x, .fetch, a⟩ ∈ h₁ → Alone E (calls x) a →
      (Sources.after E h₁).content (a.checkout E) = some a.rev

section Variants

variable {E : Place} {calls : Text → List Call} {v v' x : Text} {a b : Call} {l : List Action}
  {σ τ : Sources}

/-! ## Paths -/

theorem Place.out_of_ne_nil (hv : v ≠ []) : E.out v = E.outBase ++ [v] := if_neg hv

/-- Everything is below `OUT`. -/
theorem outputs_eq (E : Place) (v : Text) : outputs E v = Unix.below (Unix.resolve (E.out v)) := by
  have sub : ∀ c, Unix.Plain c → Unix.resolve (E.out v) <+: Unix.resolve (E.out v ++ [c]) := by
    intro c hc
    rw [hc.resolve_concat]
    exact List.prefix_append _ _
  ext p
  constructor
  · rintro ⟨d, hd, hp⟩
    simp only [List.mem_cons, List.not_mem_nil, or_false] at hd
    rcases hd with rfl | rfl | rfl | rfl | rfl | rfl
    · exact hp
    all_goals exact Unix.below_subset (sub _ (by decide)) hp
  · exact fun hp => ⟨_, .head _, hp⟩

/-- A checkout directory holds its `SRCDEST`. -/
theorem checkouts_eq (E : Place) (calls : List Call) :
    checkouts E calls = {p | ∃ a ∈ calls, p ∈ Unix.below (a.checkout E)} := by
  ext p
  constructor
  · rintro ⟨a, ha, rfl | hp⟩
    · refine ⟨a, ha, ?_⟩
      rw [Call.srcdest_eq]
      exact List.prefix_append _ _
    · exact ⟨a, ha, hp⟩
  · rintro ⟨a, ha, hp⟩
    exact ⟨a, ha, .inr hp⟩

theorem not_overlapping : ¬ Overlapping E a b ↔
    Disjoint (Unix.below (a.checkout E)) (Unix.below (b.checkout E)) := by
  rw [Unix.disjoint_below, Overlapping, not_or]

theorem disjoint_checkouts :
    Disjoint (checkouts E (calls v)) (checkouts E (calls v')) ↔
      ∀ a ∈ calls v, ∀ b ∈ calls v', ¬ Overlapping E a b := by
  simp only [checkouts_eq, Set.disjoint_left, not_overlapping, Set.mem_ofPred_eq]
  constructor
  · intro h a ha b hb p hp hp'
    exact h ⟨a, ha, hp⟩ ⟨b, hb, hp'⟩
  · rintro h p ⟨a, ha, hp⟩ ⟨b, hb, hp'⟩
    exact h a ha b hb hp hp'

/-- The output directories are apart exactly if both variants name a directory below
`OUT_BASE`. -/
theorem disjoint_outputs (hne : v ≠ v') (hv : v ≠ [] ∧ '/' ∉ v) (hv' : v' ≠ [] ∧ '/' ∉ v') :
    Disjoint (outputs E v) (outputs E v') ↔ Unix.Plain v ∧ Unix.Plain v' := by
  rw [outputs_eq, outputs_eq, Unix.disjoint_below, E.out_of_ne_nil hv.1, E.out_of_ne_nil hv'.1]
  by_cases hp : Unix.Plain v <;> by_cases hp' : Unix.Plain v'
  · simp only [hp, hp', hp.resolve_concat, hp'.resolve_concat, and_self, iff_true]
    constructor <;> intro h <;> simp_all
  · have up := Unix.resolve_concat_prefix (p := E.outBase) hv'.2 hp'
    simp only [hp', and_false, iff_false, not_and, not_not]
    intro _
    rw [hp.resolve_concat]
    exact up.trans (List.prefix_append _ _)
  · have up := Unix.resolve_concat_prefix (p := E.outBase) hv.2 hp
    simp only [hp, false_and, iff_false, not_and_or, not_not]
    left
    rw [hp'.resolve_concat]
    exact up.trans (List.prefix_append _ _)
  · simp only [hp, false_and, iff_false, not_and_or, not_not]
    exact List.prefix_or_prefix_of_prefix (Unix.resolve_concat_prefix hv.2 hp)
      (Unix.resolve_concat_prefix hv'.2 hp')

/-! ## Histories -/

/-- Nothing that a source outside the directory of `a` does is seen there. -/
theorem Sources.step_apart {e : Action} (h : ¬ Overlapping E a e.call) :
    (σ.step E e).present (a.srcdest E) = σ.present (a.srcdest E) ∧
      (σ.step E e).content (a.checkout E) = σ.content (a.checkout E) := by
  have apart := Set.disjoint_left.mp (not_overlapping.mp h)
  have hsrc : a.srcdest E ≠ e.call.srcdest E := by
    intro heq
    refine apart (a := a.srcdest E) ?_ ?_
    · rw [Call.srcdest_eq]; exact List.prefix_append _ _
    · rw [heq, Call.srcdest_eq]; exact List.prefix_append _ _
  have hdir : a.checkout E ≠ e.call.checkout E :=
    fun heq => h (.inl (heq ▸ List.prefix_rfl))
  unfold Sources.step
  cases e.task with
  | compile => exact ⟨rfl, rfl⟩
  | fetch =>
    simp only [Sources.fetch]
    split
    · exact ⟨rfl, rfl⟩
    · simp [Function.update_of_ne hsrc, Function.update_of_ne hdir]

/-- The trees look the same to the variant `x`. -/
def SameFor (E : Place) (calls : Text → List Call) (x : Text) (σ τ : Sources) : Prop :=
  (∀ a ∈ calls x, σ.present (a.srcdest E) = τ.present (a.srcdest E) ∧
    σ.content (a.checkout E) = τ.content (a.checkout E)) ∧
  σ.findings x = τ.findings x

theorem findings_step_other {e : Action} (h : e.variant ≠ x) :
    (σ.step E e).findings x = σ.findings x := by
  unfold Sources.step Sources.findings
  cases e.task with
  | compile => simp [h]
  | fetch =>
    simp only [Sources.fetch]
    split <;> rfl

/-- Own steps do the same in trees that look the same. -/
theorem SameFor.step_own {e : Action} (h : SameFor E calls x σ τ) (hx : e.variant = x)
    (he : e.call ∈ calls x) : SameFor E calls x (σ.step E e) (τ.step E e) := by
  obtain ⟨hpresent, hcontent⟩ := h.1 e.call he
  unfold Sources.step
  cases e.task with
  | compile =>
    refine ⟨h.1, ?_⟩
    have hf := h.2
    simp only [Sources.findings] at hf ⊢
    simp [hx, hf, hcontent]
  | fetch =>
    simp only [Sources.fetch, hpresent]
    split
    · exact h
    · refine ⟨fun a ha => ?_, h.2⟩
      simp only [Function.update_apply, (h.1 a ha).1, (h.1 a ha).2, and_self]

theorem Sources.after_concat (E : Place) (l : List Action) (e : Action) :
    Sources.after E (l ++ [e]) = (Sources.after E l).step E e := by
  simp [Sources.after]

theorem History.symm (h : History calls v v' l) : History calls v' v l :=
  fun e he => ⟨(h e he).1.symm, (h e he).2⟩

/-- A step of the other variant stays outside the directories of this one. -/
theorem History.apart (hh : History calls v v' l)
    (hapart : ∀ a ∈ calls v, ∀ b ∈ calls v', ¬ Overlapping E a b) (ha : a ∈ calls v) {e : Action}
    (he : e ∈ l) (ho : Overlapping E a e.call) : e.variant = v ∧ e.call ∈ calls v := by
  obtain ⟨hv | hv, hc⟩ := hh e he
  · exact ⟨hv, hv ▸ hc⟩
  · exact absurd ho (hapart a ha e.call (hv ▸ hc))

/-- **The compilations of a variant find what they find in a tree of its own.** -/
theorem findings_purge (hh : History calls v v' l)
    (hapart : ∀ a ∈ calls v, ∀ b ∈ calls v', ¬ Overlapping E a b) :
    (Sources.after E l).findings v = (Sources.after E (purge Action.variant v l)).findings v := by
  have start : SameFor E calls v {} {} := ⟨fun _ _ => ⟨rfl, rfl⟩, rfl⟩
  refine (foldl_purge (P := fun e => e ∈ l) ?_ ?_ l (fun _ he => he) start).2
  · intro σ τ e he hx same
    refine ⟨fun a ha => ?_, (findings_step_other hx).trans same.2⟩
    have hno : ¬ Overlapping E a e.call := fun ho => hx (hh.apart hapart ha he ho).1
    rw [(Sources.step_apart hno).1, (Sources.step_apart hno).2]
    exact same.1 a ha
  · intro σ τ e he hx same
    exact same.step_own hx (hx ▸ (hh e he).2)

/-- A file that has been fetched stays. -/
theorem present_step {p : Unix.Path} {e : Action} (h : σ.present p = true) :
    (σ.step E e).present p = true := by
  unfold Sources.step
  cases e.task with
  | compile => exact h
  | fetch =>
    simp only [Sources.fetch]
    split
    · exact h
    · simp only [Function.update_apply]
      split
      · rfl
      · exact h

theorem present_after {e : Action} (he : e ∈ l) (hf : e.task = .fetch) :
    (Sources.after E l).present (e.call.srcdest E) = true := by
  induction l using List.reverseRecOn with
  | nil => simp at he
  | append_singleton l e' ih =>
    rw [Sources.after_concat]
    rcases List.mem_append.mp he with he | he
    · exact present_step (ih he)
    · obtain rfl := List.mem_singleton.mp he
      simp only [Sources.step, hf, Sources.fetch]
      split <;> simp_all

/-- A step for a source that is to hold the same revision keeps to it. -/
theorem content_step {e : Action} (hdir : e.call.checkout E = a.checkout E)
    (hrev : e.call.rev = a.rev)
    (ih : σ.present (a.srcdest E) = true → σ.content (a.checkout E) = some a.rev)
    (hp : (σ.step E e).present (a.srcdest E) = true) :
    (σ.step E e).content (a.checkout E) = some a.rev := by
  unfold Sources.step at hp ⊢
  cases ht : e.task with
  | compile =>
    rw [ht] at hp
    exact ih hp
  | fetch =>
    simp only [ht, Sources.fetch] at hp ⊢
    split at hp
    · rw [if_pos ‹_›]
      exact ih hp
    · rw [if_neg ‹_›]
      simp [hdir, hrev]

/-- A directory with one source of its variant holds the revision of that source. -/
theorem content_after (hh : History calls v v' l)
    (hapart : ∀ a ∈ calls v, ∀ b ∈ calls v', ¬ Overlapping E a b) (ha : a ∈ calls v)
    (halone : Alone E (calls v) a) (hp : (Sources.after E l).present (a.srcdest E) = true) :
    (Sources.after E l).content (a.checkout E) = some a.rev := by
  induction l using List.reverseRecOn with
  | nil => simp [Sources.after] at hp
  | append_singleton l e ih =>
    have ih := ih fun e he => hh e (by simp [he])
    rw [Sources.after_concat] at hp ⊢
    by_cases ho : Overlapping E a e.call
    · -- a step of the variant itself, into the same directory
      have hown := hh.apart hapart ha (by simp) ho
      obtain ⟨hdir, hrev⟩ := halone e.call hown.2 ho
      exact content_step hdir hrev ih hp
    · rw [(Sources.step_apart ho).1] at hp
      rw [(Sources.step_apart ho).2]
      exact ih hp

/-- What one of two variants with separate sources finds. -/
theorem isolated_of_apart (hh : History calls v v' l)
    (hapart : ∀ a ∈ calls v, ∀ b ∈ calls v', ¬ Overlapping E a b) :
    (Sources.after E l).findings v = (Sources.after E (purge Action.variant v l)).findings v ∧
    ∀ h₁ h₂ a, l = h₁ ++ ⟨v, .compile, a⟩ :: h₂ → ⟨v, .fetch, a⟩ ∈ h₁ → Alone E (calls v) a →
      (Sources.after E h₁).content (a.checkout E) = some a.rev := by
  refine ⟨findings_purge hh hapart, ?_⟩
  rintro h₁ h₂ a rfl hf halone
  have hh₁ : History calls v v' h₁ := fun e he => hh e (by simp [he])
  exact content_after hh₁ hapart (hh₁ _ hf).2 halone (present_after hf rfl)

end Variants

/-- **Two variants are isolated exactly if** both name a directory below `OUT_BASE` and no
checkout directory of one is, or lies in, one of the other. -/
theorem isolated_iff (E : Place) (calls : Text → List Call) (v v' : Text) (hne : v ≠ v')
    (hv : v ≠ [] ∧ '/' ∉ v) (hv' : v' ≠ [] ∧ '/' ∉ v') :
    Isolated E calls v v' ↔
      (Unix.Plain v ∧ Unix.Plain v') ∧ ∀ a ∈ calls v, ∀ b ∈ calls v', ¬ Overlapping E a b := by
  rw [Isolated, disjoint_outputs hne hv hv', disjoint_checkouts]
  refine and_congr_right fun _ => and_iff_left_of_imp fun hapart h hh x hx => ?_
  simp only [List.mem_cons, List.not_mem_nil, or_false] at hx
  rcases hx with rfl | rfl
  · exact isolated_of_apart hh hapart
  · exact isolated_of_apart hh.symm fun a ha b hb ho => hapart b hb a ha ho.symm

/-! ## A checkout of both variants -/

section Shared

variable {E : Place} {calls : Text → List Call} {v v' : Text} {a b : Call}

/-- `v` fetches, and then `v'` fetches and compiles. -/
def fetchedBefore (v v' : Text) (a b : Call) : List Action :=
  [⟨v, .fetch, a⟩, ⟨v', .fetch, b⟩, ⟨v', .compile, b⟩]

/-- **What is fetched first is compiled by both**: `v'` finds the revision that `v` has asked
for, and in a tree of its own it finds its own. -/
theorem findings_fetchedBefore (hne : v ≠ v') (hdir : a.checkout E = b.checkout E)
    (hdest : a.srcdest E = b.srcdest E) :
    (Sources.after E (fetchedBefore v v' a b)).findings v' = [(v', b, some a.rev)] ∧
    (Sources.after E (purge Action.variant v' (fetchedBefore v v' a b))).findings v' =
      [(v', b, some b.rev)] := by
  simp [fetchedBefore, purge, hne, Sources.after, Sources.step, Sources.fetch, Sources.findings,
    hdir, hdest]

/-- So variants that want different revisions in one place are not isolated. -/
theorem not_isolated_of_shared (hne : v ≠ v') (ha : a ∈ calls v) (hb : b ∈ calls v')
    (hdir : a.checkout E = b.checkout E) (hdest : a.srcdest E = b.srcdest E)
    (hrev : a.rev ≠ b.rev) : ¬ Isolated E calls v v' := by
  intro h
  have history : History calls v v' (fetchedBefore v v' a b) := by
    simp [History, fetchedBefore, ha, hb]
  have same := (h.2.2 _ history v' (by simp)).1
  obtain ⟨found, own⟩ := findings_fetchedBefore hne hdir hdest
  rw [found, own] at same
  simp [hrev] at same

end Shared

/-- A checkout of the Raspberry Pi recipe, with the default directories. -/
def rpiPlace : Place where
  curdir := ["ve-root".toList]
  base := ["ve-root".toList]
  recipe := "rpi".toList

/-- The kernel of a variant, as `recipes/rpi/config.mk` sets its URL and its branch. -/
def rpiKernel (url ref : Text) : Call where
  kind := .gitClone
  layer := "L_kernel".toList
  dir := "linux".toList
  url := url
  ref := ref
  file h := absurd rfl h

/-- The kernel of `rpi3`. -/
def rpi3Kernel : Call :=
  rpiKernel "https://github.com/VitalElement/linux.git".toList "ve-rpi-4.10.y".toList

/-- The kernel of `rpi4`. -/
def rpi4Kernel : Call :=
  rpiKernel "https://github.com/raspberrypi/linux.git".toList "rpi-4.19.y".toList

/-- The sources of the variants. -/
def rpiCalls (v : Text) : List Call := if v = "rpi4".toList then [rpi4Kernel] else [rpi3Kernel]

theorem rpiKernel_shared (url ref url' ref' : Text) :
    (rpiKernel url ref).checkout rpiPlace = (rpiKernel url' ref').checkout rpiPlace ∧
      (rpiKernel url ref).srcdest rpiPlace = (rpiKernel url' ref').srcdest rpiPlace :=
  ⟨rfl, rfl⟩

/-- The sources of the variants, if each had a checkout directory of its own. -/
def rpiCallsApart (v : Text) : List Call :=
  if v = "rpi4".toList then [{ rpi4Kernel with dir := "linux-rpi4".toList }] else [rpi3Kernel]

theorem isolated_rpi_apart : Isolated rpiPlace rpiCallsApart "rpi3".toList "rpi4".toList := by
  refine (isolated_iff rpiPlace rpiCallsApart _ _ (by decide) (by decide) (by decide)).mpr
    ⟨by decide, ?_⟩
  have three : rpiCallsApart "rpi3".toList = [rpi3Kernel] := by simp [rpiCallsApart]
  have four : rpiCallsApart "rpi4".toList = [{ rpi4Kernel with dir := "linux-rpi4".toList }] := by
    simp [rpiCallsApart]
  rw [three, four]
  simp only [List.mem_singleton, forall_eq]
  decide

/-- After the kernel of `rpi3` has been fetched, it is what a build of `rpi4` compiles. -/
theorem not_isolated_rpi :
    (Sources.after rpiPlace (fetchedBefore "rpi3".toList "rpi4".toList rpi3Kernel rpi4Kernel)).findings
        "rpi4".toList = [("rpi4".toList, rpi4Kernel, some rpi3Kernel.rev)] ∧
    ¬ Isolated rpiPlace rpiCalls "rpi3".toList "rpi4".toList := by
  have hne : "rpi3".toList ≠ "rpi4".toList := by decide
  obtain ⟨hdir, hdest⟩ : rpi3Kernel.checkout rpiPlace = rpi4Kernel.checkout rpiPlace ∧
      rpi3Kernel.srcdest rpiPlace = rpi4Kernel.srcdest rpiPlace := rpiKernel_shared _ _ _ _
  have hrev : rpi3Kernel.rev ≠ rpi4Kernel.rev := by decide
  exact ⟨(findings_fetchedBefore hne hdir hdest).1,
    not_isolated_of_shared hne (by simp [rpiCalls]) (by simp [rpiCalls]) hdir hdest hrev⟩

end VeRoot
