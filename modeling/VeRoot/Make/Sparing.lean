import VeRoot.Make.History
import VeRoot.Make.Incremental

/-!
# Files that are made once

A file that exists is remade when a prerequisite has become newer.  If a prerequisite
changes only while none of the files in question exists, they are never behind it, and it
is never the reason why one of them is remade.

## Main definitions

* `Files.remove` — files that are removed.
* `Fresh` — no file of `K` is behind a file of `B`.
* `Project.sparing` — the runs that change files of `B` only while no file of `K` exists.
* `exists_newer_of_executed` — why a file of `K` is remade in such a run.
* `sparing_of_reachable` — recipes all of whose runs are of this kind.
* `exists_executed_of_missing` — a file whose prerequisite was removed is remade.
-/

namespace Make

variable {ν : Type*}

/-- The files `gone` are removed. -/
def Files.remove (w : Files ν) (gone : ν → Bool) : Files ν where
  mtime n := if gone n then 0 else w.mtime n
  clock := w.clock
  le_clock n := by
    split
    · exact Nat.zero_le _
    · exact w.le_clock n

/-- No file of `K` is behind a file of `B`. -/
def Fresh (B K : ν → Prop) (w : Files ν) : Prop :=
  ∀ b u, B b → K u → w.mtime u ≠ 0 → w.mtime b ≤ w.mtime u

section Fresh

variable {B K : ν → Prop} {w : Files ν} {n : ν}

/-- A removal leaves no file behind another. -/
theorem Fresh.remove (h : Fresh B K w) (gone : ν → Bool) : Fresh B K (w.remove gone) := by
  intro b u hb hu hex
  have stays : gone u = false := by
    by_contra hg
    simp [Files.remove, hg] at hex
  have same : (w.remove gone).mtime u = w.mtime u := by simp [Files.remove, stays]
  rw [same] at hex ⊢
  refine le_trans ?_ (h b u hb hu hex)
  by_cases hg : gone b <;> simp [Files.remove, hg]

variable [DecidableEq ν]

/-- A change of a file that is not in `B`, or while no file of `K` exists. -/
theorem Fresh.set (h : Fresh B K w) (spared : B n → ∀ u, K u → w.mtime u = 0) : Fresh B K (w.set n) := by
  intro b u hb hu hex
  by_cases hun : u = n
  · subst hun
    rw [Files.set_mtime_self]
    exact (w.set u).le_clock b
  · rw [Files.set_mtime_of_ne hun] at hex ⊢
    have hbn : b ≠ n := by
      rintro rfl
      exact hex (spared hb u hu)
    rw [Files.set_mtime_of_ne hbn]
    exact h b u hb hu hex

end Fresh

namespace Project

variable [DecidableEq ν] {P : Project ν} {B K : ν → Prop} {w : Files ν}
  {s s' : State ν (FileCmd ν) (Files ν)} {b m n t u : ν} {c : FileCmd ν}

/-- The command is about to change the file `b`, or may do so. -/
def Alters (b : ν) (w : Files ν) (c : FileCmd ν) : Prop :=
  c = .touch b ∨ (c = .create b ∧ w.mtime b = 0) ∨ c = .change b

/-- The runs that change files of `B` only while no file of `K` exists. -/
def sparing (P : Project ν) (B K : ν → Prop) : System ν (FileCmd ν) (Files ν) :=
  { P.system with
    drop_circular := P.drop_circular
    exec := fun c w w' => c.Does w w' ∧ ∀ b, B b → Alters b w c → ∀ u, K u → w.mtime u = 0 }

theorem step_of_sparing (h : (P.sparing B K).Step s s') : P.system.Step s s' := by
  cases h with
  | make m idle wanted ready may => exact .make m idle wanted ready may
  | keep m idle wanted ready may => exact .keep m idle wanted ready may
  | exec m c rest w' running does => exact .exec m c rest w' running does.1
  | finish m running => exact .finish m running

theorem reachable_of_sparing (h : (P.sparing B K).Reachable w s) : P.system.Reachable w s :=
  Relation.ReflTransGen.mono (fun _ _ => step_of_sparing) _ _ h

/-- **Such a run puts no file of `K` behind a file of `B`.** -/
theorem fresh_of_sparing (fresh : Fresh B K w) (h : (P.sparing B K).Reachable w s) : Fresh B K s.world := by
  refine h.invariant (P := fun s => Fresh B K s.world) fresh ?_
  intro s s' _ ih step
  cases step with
  | make | keep | finish => exact ih
  | exec m c rest w' running does =>
    rcases does.1.eq_or with rfl | ⟨n, rfl, hn⟩
    · exact ih
    · exact ih.set fun hb => does.2 n hb hn

/-- While a file of `K` exists, a file of `B` that is created, if at all, is not made. -/
theorem not_made_of_sparing (hb : B b) (file : ¬ P.phony b) (recipe : P.recipe b = [.create b])
    (free : ∀ a, ¬ P.Forces b a) (hu : K u) (exists_u : w.mtime u ≠ 0)
    (h : (P.sparing B K).Reachable w s) : s.phase b ≠ .made := by
  suffices inv : s.phase b ≠ .made ∧
      ∀ rest, s.phase b = .running rest → s.world.mtime b = 0 ∧ rest = [.create b] from inv.1
  refine h.invariant (P := fun s => s.phase b ≠ .made ∧
    ∀ rest, s.phase b = .running rest → s.world.mtime b = 0 ∧ rest = [.create b])
    (by simp [System.start]) ?_
  intro s s' hs ih step
  have exists_u : s.world.mtime u ≠ 0 := by
    have := mtime_le_of_reachable (reachable_of_sparing hs) u
    omega
  cases step with
  | make m idle wanted ready may =>
    by_cases e : b = m
    · subst e
      refine ⟨by simp, fun rest hr => ?_⟩
      obtain rfl : P.recipe b = rest := by simpa [sparing, system] using hr
      obtain ⟨-, ph | h0 | ⟨a, ha, -⟩⟩ := may
      · exact absurd ph file
      · exact ⟨h0, recipe⟩
      · exact absurd ha (free a)
    · simpa [Function.update_of_ne e] using ih
  | keep m idle wanted ready may =>
    by_cases e : b = m
    · subst e
      simp
    · simpa [Function.update_of_ne e] using ih
  | finish m running =>
    by_cases e : b = m
    · subst e
      have := (ih.2 [] running).2
      cases this
    · simpa [Function.update_of_ne e] using ih
  | exec m c rest w' running does =>
    have spared : ¬ Alters b s.world c := fun ha => exists_u (does.2 b hb ha u hu)
    by_cases e : b = m
    · -- the directory would be created now
      subst e
      obtain ⟨h0, hrest⟩ := ih.2 _ running
      obtain ⟨rfl, -⟩ := List.cons.inj hrest
      exact absurd (.inr (.inl ⟨rfl, h0⟩)) spared
    · have same : w'.mtime b = s.world.mtime b := by
        rcases does.1.eq_or with rfl | ⟨n, rfl, hn⟩
        · rfl
        · refine Files.set_mtime_of_ne ?_
          rintro rfl
          exact spared hn
      refine ⟨by simpa [Function.update_of_ne e] using ih.1, fun rest' hr => ?_⟩
      rw [same]
      exact ih.2 rest' (by simpa [Function.update_of_ne e] using hr)

/-- What a file of `K` is remade for, given that it existed. -/
theorem exists_newer_of_executed (fresh : Fresh B K w)
    (ht : K t) (file : ¬ P.phony t) (exists_t : w.mtime t ≠ 0)
    (unmade : ∀ b, B b → P.Forces t b → ∀ s, (P.sparing B K).Reachable w s → s.phase b ≠ .made)
    (h : (P.sparing B K).Reachable w s) (executed : (s.phase t).Executed) :
    ∃ u, P.Forces t u ∧ ¬ B u ∧ ((s.phase u).Executed ∨ w.mtime t < s.world.mtime u) := by
  revert executed
  refine h.invariant (P := fun s => (s.phase t).Executed →
    ∃ u, P.Forces t u ∧ ¬ B u ∧ ((s.phase u).Executed ∨ w.mtime t < s.world.mtime u))
    (fun h => h.elim) ?_
  intro s s' hs ih step executed
  have later : ∀ u, (s.phase u).Executed ∨ w.mtime t < s.world.mtime u →
      (s'.phase u).Executed ∨ w.mtime t < s'.world.mtime u := by
    intro u hu
    have hle := mtime_le_of_step (step_of_sparing step) u
    refine hu.imp (fun hx => ?_) (fun hlt => hlt.trans_le hle)
    rcases step.phase_cases u with same | ⟨idle, -⟩ | ⟨c, rest, -, running, -⟩ | ⟨-, made, -⟩
    · rwa [same]
    · simp [idle] at hx
    · simp [running]
    · simp [made]
  rcases step.phase_cases t with same | ⟨idle, -, -, -, ⟨may, -⟩ | ⟨-, kept⟩⟩ |
    ⟨c, rest, running, -⟩ | ⟨running, -⟩
  · obtain ⟨u, hu, hB, hx⟩ := ih (same ▸ executed)
    exact ⟨u, hu, hB, later u hx⟩
  · have hle := mtime_le_of_reachable (reachable_of_sparing hs) t
    obtain ⟨-, ph | h0 | ⟨u, hu, hx⟩⟩ := may
    · exact absurd ph file
    · omega
    · by_cases hB : B u
      · rcases hx with made | hlt
        · exact absurd made (unmade u hB hu s hs)
        · have := fresh_of_sparing fresh hs u t hB ht (by omega)
          omega
      · exact ⟨u, hu, hB, later u (hx.imp (fun made => by simp [made]) hle.trans_lt)⟩
  · simp [kept] at executed
  · obtain ⟨u, hu, hB, hx⟩ := ih (by simp [running])
    exact ⟨u, hu, hB, later u hx⟩
  · obtain ⟨u, hu, hB, hx⟩ := ih (by simp [running])
    exact ⟨u, hu, hB, later u hx⟩

/-- **Recipes that leave both alone** change files of `B` only by creating a directory that is
missing, and that comes before every file of `K`. -/
theorem sparing_of_reachable (tidy : P.Tidy) (files : ∀ u, K u → ¬ P.phony u)
    (confined : ∀ m n, .change n ∈ P.recipe m → ¬ B n ∧ ¬ K n)
    (untouched : ∀ b, B b → .touch b ∉ P.recipe b) (uncreated : ∀ u, K u → P.recipe u ≠ [.create u])
    (first : ∀ u b, K u → IsTarget P.rules u → B b → P.recipe b = [.create b] → P.Forces u b)
    (built : ∀ b, B b → P.recipe b = [.create b] → w.mtime b = 0 → ∀ u, K u → w.mtime u = 0)
    (h : P.system.Reachable w s) : (P.sparing B K).Reachable w s := by
  refine (h.invariant (P := fun s => (P.sparing B K).Reachable w s ∧
    ∀ b, B b → P.recipe b = [.create b] → s.world.mtime b = 0 → ∀ u, K u → s.world.mtime u = 0)
    ⟨.refl, built⟩ ?_).1
  rintro s s' hs ⟨ih, hbuilt⟩ step
  cases step with
  | make m idle wanted ready may => exact ⟨ih.step (.make m idle wanted ready may), hbuilt⟩
  | keep m idle wanted ready may => exact ⟨ih.step (.keep m idle wanted ready may), hbuilt⟩
  | finish m running => exact ⟨ih.step (.finish m running), hbuilt⟩
  | exec m c rest w' running does =>
    have hc : c ∈ P.recipe m := (hs.suffix running).subset (by simp)
    refine ⟨ih.step (.exec m c rest w' running ⟨does, fun b hb alters => ?_⟩), ?_⟩
    · rcases alters with rfl | ⟨rfl, h0⟩ | rfl
      · rw [← tidy.eq_of_touch m b hc] at hc
        exact absurd hc (untouched b hb)
      · exact hbuilt b hb (tidy.recipe_of_create m b hc) h0
      · exact absurd hb (confined m b hc).1
    · intro b hb hr h0 u hu
      have h0' : s.world.mtime b = 0 := Nat.le_zero.mp (h0 ▸ does.le.2 b)
      rw [← hbuilt b hb hr h0' u hu]
      refine does.mtime_eq ?_ ?_ ?_
      · -- the directory is there when a recipe for a file of `K` is executed
        rintro rfl
        obtain rfl := tidy.eq_of_touch m u hc
        have hfile : P.File u := ⟨hs.wanted_of_begun (by simp [running]), files u hu⟩
        have hf : P.Forces u b :=
          first u b hu (isTarget_of_executed hs (by simp [running])) hb hr
        have done := hs.finished_of_prereq hf.honours.1 hf.honours.2 (by simp [running])
        exact mtime_ne_zero tidy hs (hfile.forces tidy hf) done h0'
      · rintro rfl
        exact absurd (tidy.recipe_of_create m u hc) (uncreated u hu)
      · rintro rfl
        exact (confined m u hc).2 hu

/-- **A prerequisite that is missing makes a file out of date**, although it exists. -/
theorem exists_executed_of_missing (tidy : P.Tidy) (stocked : P.Stocked w)
    (hu : P.File u) (hf : P.Forces u b) (missing : w.mtime b = 0) :
    ∃ s, P.system.Reachable w s ∧ (s.phase u).Executed := by
  obtain ⟨cs, hcs⟩ := hf.recipe tidy hu
  have hr : P.recipe u ≠ [.create u] := by
    intro e
    simpa [List.append_eq_cons_iff] using hcs.symm.trans e
  have ne : u ≠ b := by
    rintro rfl
    exact P.acyclic u (.single hf.honours)
  obtain ⟨s, run, ready, idle, htime⟩ := exists_ready (f := b) tidy stocked hu hr ne
  have reach : P.system.Reachable w s := reachable_of_reckless run .refl
  have there : s.world.mtime b ≠ 0 := mtime_ne_zero tidy reach (hu.forces tidy hf)
    (ready b hf.honours.1 hf.honours.2)
  have recent : s.world.mtime b = 0 ∨ w.clock < s.world.mtime b := by
    refine (reach.invariant (P := fun s => w.clock ≤ s.world.clock ∧
      (s.world.mtime b = 0 ∨ w.clock < s.world.mtime b)) ⟨le_rfl, .inl missing⟩ ?_).2
    rintro s s' - ⟨hclock, ih⟩ step
    cases step with
    | make | keep | finish => exact ⟨hclock, ih⟩
    | exec m c rest w' running does =>
      rcases does.eq_or with rfl | ⟨n, rfl, -⟩
      · exact ⟨hclock, ih⟩
      · refine ⟨hclock.trans (Nat.le_succ _), ?_⟩
        by_cases e : b = n
        · subst e
          exact .inr (by rw [Files.set_mtime_self]; omega)
        · rwa [Files.set_mtime_of_ne e]
  have newer : s.world.mtime u < s.world.mtime b := by
    have := w.le_clock u
    omega
  have target : IsTarget P.rules u := hf.1.imp fun _ hr => ⟨hr.1, hr.2.1⟩
  exact ⟨_, reach.step (.make u idle hu.1 ready ⟨target, .inr (.inr ⟨b, hf, .inr newer⟩)⟩),
    by simp⟩

end Project

end Make
