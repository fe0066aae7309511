import VeRoot.Make.Graph
import Mathlib.Data.Set.Card
import Mathlib.Logic.Function.Basic

/-!
# Runs of a parallel make

`make -j` walks the prerequisite graph and starts a node once its prerequisites
are finished.  Nodes run side by side, and the commands of one recipe interleave
with the commands of the others.  A `System` says what the graph, the recipes and
the world are; `Step` is one move of make and `Reachable` a whole run.

Make drops an edge which closes a cycle, and which edge of the cycle it drops
depends on the order it walks the graph in.  `System.drop` is that choice: any
set of circular edges.  A statement about every `System` is then a statement
about every order.

## Main definitions

* `Phase`, `State`, `System` — what a run is about.
* `Step`, `Reachable` — one move and a run of any length.
* `finished_of_firm_path` — whatever has begun has its prerequisites behind it.
* `exists_reachable_running` — every wanted node can be brought to run.
-/

namespace Make

variable {ν κ W : Type*}

/-- Where one node stands in a run. -/
inductive Phase (κ : Type*)
  /-- Not considered yet. -/
  | idle
  /-- Its recipe is executing; `rest` is still to come. -/
  | running (rest : List κ)
  /-- Its recipe has been executed. -/
  | made
  /-- It was found up to date and its recipe was not executed. -/
  | kept
  deriving DecidableEq, Repr

/-- The node is done with, one way or the other. -/
def Phase.Finished : Phase κ → Prop
  | .made | .kept => True
  | .idle | .running _ => False

/-- The node's recipe is executing. -/
def Phase.Running : Phase κ → Prop
  | .running _ => True
  | .idle | .made | .kept => False

/-- The command `c` of a node is behind it.  Meant for a command that the node's recipe
has once. -/
def Phase.Past (c : κ) : Phase κ → Prop
  | .running rest => c ∉ rest
  | .made => True
  | .idle | .kept => False

@[simp] theorem Phase.past_made {c : κ} : (Phase.made : Phase κ).Past c := trivial
@[simp] theorem Phase.not_past_idle {c : κ} : ¬ (Phase.idle : Phase κ).Past c := id
@[simp] theorem Phase.not_past_kept {c : κ} : ¬ (Phase.kept : Phase κ).Past c := id
@[simp] theorem Phase.past_running {c : κ} {cs : List κ} : (Phase.running cs).Past c ↔ c ∉ cs :=
  Iff.rfl

@[simp] theorem Phase.finished_made : (Phase.made : Phase κ).Finished := trivial
@[simp] theorem Phase.finished_kept : (Phase.kept : Phase κ).Finished := trivial
@[simp] theorem Phase.not_finished_idle : ¬ (Phase.idle : Phase κ).Finished := id
@[simp] theorem Phase.not_finished_running (cs : List κ) : ¬ (Phase.running cs).Finished := id

theorem Phase.Finished.ne_idle {p : Phase κ} (h : p.Finished) : p ≠ .idle := by
  rintro rfl; exact h

theorem Phase.Running.ne_idle {p : Phase κ} (h : p.Running) : p ≠ .idle := by
  rintro rfl; exact h

theorem Phase.Running.not_finished {p : Phase κ} (h : p.Running) : ¬ p.Finished := by
  cases p <;> simp_all [Phase.Running]

/-- A node that is not running and not done with has not been considered. -/
theorem Phase.eq_idle {p : Phase κ} (hr : ¬ p.Running) (hf : ¬ p.Finished) : p = .idle := by
  cases p with
  | idle => rfl
  | running rest => exact absurd trivial hr
  | made | kept => exact absurd trivial hf

/-- A run's state: the phase of every node, and the world the commands act on. -/
structure State (ν κ W : Type*) where
  phase : ν → Phase κ
  world : W

/-- A graph with recipes, and the choices one run of make has made. -/
structure System (ν κ W : Type*) where
  /-- Prerequisite edges, normal or order-only. -/
  prereq : ν → ν → Prop
  /-- The edges this run drops. -/
  drop : ν → ν → Prop
  /-- Only an edge which closes a cycle is dropped. -/
  drop_circular : ∀ a b, drop a b → Relation.TransGen prereq b a
  /-- The nodes the goals ask for. -/
  wanted : ν → Prop
  /-- The commands of a node's recipe. -/
  recipe : ν → List κ
  /-- What one command may do to the world. -/
  exec : κ → W → W → Prop
  /-- When the recipe of a node may be executed. -/
  mayMake : State ν κ W → ν → Prop
  /-- When a node may be left as it is. -/
  mayKeep : State ν κ W → ν → Prop

namespace System

variable [DecidableEq ν] (S : System ν κ W)

/-- A prerequisite that make honours: it is not dropped. -/
def Honours (a b : ν) : Prop := S.prereq a b ∧ ¬ S.drop a b

/-- Every prerequisite that make honours is finished. -/
def Ready (s : State ν κ W) (n : ν) : Prop :=
  ∀ m, S.prereq n m → ¬ S.drop n m → (s.phase m).Finished

/-- One move of make. -/
inductive Step (s : State ν κ W) : State ν κ W → Prop
  /-- The recipe of a node is begun. -/
  | make (n : ν) (idle : s.phase n = .idle) (wanted : S.wanted n) (ready : S.Ready s n)
      (may : S.mayMake s n) :
      Step s { s with phase := Function.update s.phase n (.running (S.recipe n)) }
  /-- A node is found up to date. -/
  | keep (n : ν) (idle : s.phase n = .idle) (wanted : S.wanted n) (ready : S.Ready s n)
      (may : S.mayKeep s n) :
      Step s { s with phase := Function.update s.phase n .kept }
  /-- A running recipe executes its next command. -/
  | exec (n : ν) (c : κ) (rest : List κ) (w : W) (running : s.phase n = .running (c :: rest))
      (does : S.exec c s.world w) :
      Step s ⟨Function.update s.phase n (.running rest), w⟩
  /-- A recipe with no command left is finished. -/
  | finish (n : ν) (running : s.phase n = .running []) :
      Step s { s with phase := Function.update s.phase n .made }

/-- Before the first move nothing has been considered. -/
def start (w : W) : State ν κ W := ⟨fun _ => .idle, w⟩

/-- `s` is reached by a run which begins in the world `w`. -/
def Reachable (w : W) (s : State ν κ W) : Prop := Relation.ReflTransGen S.Step (start w) s

variable {S}

theorem Reachable.step {w : W} {s s' : State ν κ W} (h : S.Reachable w s) (e : S.Step s s') :
    S.Reachable w s' :=
  Relation.ReflTransGen.tail h e

/-- What every move preserves, a run preserves. -/
theorem preserved {P : State ν κ W → Prop} (hP : ∀ s s', P s → S.Step s s' → P s')
    {s s' : State ν κ W} (run : Relation.ReflTransGen S.Step s s') (hs : P s) : P s' := by
  induction run with
  | refl => exact hs
  | tail _ e ih => exact hP _ _ ih e

/-- **The invariant rule.**  What holds at the start and survives every move of a
reachable state holds in every reachable state. -/
theorem Reachable.invariant {w : W} {P : State ν κ W → Prop} (h0 : P (start w))
    (hstep : ∀ s s', S.Reachable w s → P s → S.Step s s' → P s') {s : State ν κ W}
    (h : S.Reachable w s) : P s := by
  induction h with
  | refl => exact h0
  | tail h e ih => exact hstep _ _ h ih e

/-! ## Order -/

/-- What one move can mean for one node. -/
theorem Step.phase_cases {s s' : State ν κ W} (e : S.Step s s') (n : ν) :
    s'.phase n = s.phase n ∨
    (s.phase n = .idle ∧ S.wanted n ∧ S.Ready s n ∧ s'.world = s.world ∧
      ((S.mayMake s n ∧ s'.phase n = .running (S.recipe n)) ∨
        (S.mayKeep s n ∧ s'.phase n = .kept))) ∨
    (∃ c rest, s.phase n = .running (c :: rest) ∧ s'.phase n = .running rest ∧
      S.exec c s.world s'.world) ∨
    (s.phase n = .running [] ∧ s'.phase n = .made ∧ s'.world = s.world) := by
  cases e with
  | make m idle wanted ready may =>
    rcases eq_or_ne n m with rfl | ne
    · exact .inr (.inl ⟨idle, wanted, ready, rfl, .inl ⟨may, Function.update_self ..⟩⟩)
    · exact .inl (Function.update_of_ne ne _ _)
  | keep m idle wanted ready may =>
    rcases eq_or_ne n m with rfl | ne
    · exact .inr (.inl ⟨idle, wanted, ready, rfl, .inr ⟨may, Function.update_self ..⟩⟩)
    · exact .inl (Function.update_of_ne ne _ _)
  | exec m c rest w running does =>
    rcases eq_or_ne n m with rfl | ne
    · exact .inr (.inr (.inl ⟨c, rest, running, Function.update_self .., does⟩))
    · exact .inl (Function.update_of_ne ne _ _)
  | finish m running =>
    rcases eq_or_ne n m with rfl | ne
    · exact .inr (.inr (.inr ⟨running, Function.update_self .., rfl⟩))
    · exact .inl (Function.update_of_ne ne _ _)

/-- A finished node keeps its phase. -/
theorem Step.phase_of_finished {s s' : State ν κ W} (e : S.Step s s') {m : ν}
    (h : (s.phase m).Finished) : s'.phase m = s.phase m := by
  rcases e.phase_cases m with same | ⟨idle, -⟩ | ⟨c, rest, running, -⟩ | ⟨running, -⟩
  · exact same
  · simp [idle] at h
  · simp [running] at h
  · simp [running] at h

/-- A node which is begun by this move was ready before it. -/
theorem Step.ready_of_begun {s s' : State ν κ W} (e : S.Step s s') {a : ν}
    (h : s.phase a = .idle) (h' : s'.phase a ≠ .idle) : S.Ready s a := by
  rcases e.phase_cases a with same | ⟨-, -, ready, -⟩ | ⟨c, rest, running, -⟩ | ⟨running, -⟩
  · exact absurd (same.trans h) h'
  · exact ready
  · simp [running] at h
  · simp [running] at h

/-- **Prerequisites come first.**  Once a node has begun, every prerequisite that
make honours is finished. -/
theorem Reachable.finished_of_prereq {w : W} {s : State ν κ W} (h : S.Reachable w s) {a b : ν}
    (e : S.prereq a b) (nd : ¬ S.drop a b) (ha : s.phase a ≠ .idle) : (s.phase b).Finished := by
  revert ha
  refine h.invariant (P := fun s => s.phase a ≠ .idle → (s.phase b).Finished) ?_ ?_
  · intro h; exact absurd rfl h
  · intro s s' _ ih step ha'
    have hb : (s.phase b).Finished := by
      by_cases ha : s.phase a = .idle
      · exact step.ready_of_begun ha ha' b e nd
      · exact ih ha
    rw [step.phase_of_finished hb]
    exact hb

/-- So is whatever a path of such prerequisites leads to. -/
theorem Reachable.finished_of_path {w : W} {s : State ν κ W} (h : S.Reachable w s) {a b : ν}
    (path : Relation.TransGen S.Honours a b) (ha : s.phase a ≠ .idle) : (s.phase b).Finished := by
  induction path with
  | single e => exact h.finished_of_prereq e.1 e.2 ha
  | tail _ e ih => exact h.finished_of_prereq e.1 e.2 ih.ne_idle

/-- Firm edges are never dropped, and neither is a path of them. -/
theorem Reachable.finished_of_firm_path {w : W} {s : State ν κ W} (h : S.Reachable w s)
    {a b : ν} (path : Relation.TransGen (Firm S.prereq) a b) (ha : s.phase a ≠ .idle) :
    (s.phase b).Finished :=
  h.finished_of_path (Relation.TransGen.mono
    (fun _ _ e => ⟨e.1, fun d => e.2 (S.drop_circular _ _ d)⟩) _ _ path) ha

/-- Only wanted nodes are ever begun. -/
theorem Reachable.wanted_of_begun {w : W} {s : State ν κ W} (h : S.Reachable w s) {a : ν}
    (ha : s.phase a ≠ .idle) : S.wanted a := by
  revert ha
  refine h.invariant (P := fun s => s.phase a ≠ .idle → S.wanted a) (fun h => absurd rfl h) ?_
  intro s s' _ ih step ha'
  rcases step.phase_cases a with same | ⟨-, wanted, -⟩ | ⟨c, rest, running, -⟩ | ⟨running, -⟩
  · exact ih (same ▸ ha')
  · exact wanted
  · exact ih (by simp [running])
  · exact ih (by simp [running])

/-! ## Commands -/

/-- A running recipe has its last commands left. -/
theorem Reachable.suffix {w : W} {s : State ν κ W} (h : S.Reachable w s) {n : ν} {cs : List κ}
    (hn : s.phase n = .running cs) : cs <:+ S.recipe n := by
  refine h.invariant (P := fun s => ∀ cs, s.phase n = .running cs → cs <:+ S.recipe n)
    (by simp [start]) ?_ cs hn
  clear hn h s
  intro s s' _ ih step cs hcs
  rcases step.phase_cases n with same | ⟨-, -, -, -, ⟨-, made⟩ | ⟨-, kept⟩⟩ |
    ⟨c, rest, running, now, -⟩ | ⟨-, made, -⟩
  · exact ih cs (same ▸ hcs)
  · obtain rfl : S.recipe n = cs := by simpa using made.symm.trans hcs
    exact List.suffix_rfl
  · simp [kept] at hcs
  · obtain rfl : rest = cs := by simpa using now.symm.trans hcs
    exact (List.suffix_cons c rest).trans (ih _ running)
  · simp [made] at hcs

/-- **What a command establishes and no command undoes** holds once it is past. -/
theorem Reachable.established {w : W} {s : State ν κ W} (h : S.Reachable w s) {Q : W → Prop} {n : ν}
    {c : κ} (hc : c ∈ S.recipe n) (hest : ∀ w w', S.exec c w w' → Q w')
    (hpres : ∀ m, S.wanted m → ∀ d ∈ S.recipe m, ∀ w w', S.exec d w w' → Q w → Q w')
    (hpast : (s.phase n).Past c) : Q s.world := by
  revert hpast
  refine h.invariant (P := fun s => (s.phase n).Past c → Q s.world) (fun h => h.elim) ?_
  intro s s' hs ih step hpast
  cases step with
  | make m idle | keep m idle =>
    by_cases e : n = m
    · subst e
      simp [hc] at hpast
    · exact ih (by simpa [Function.update_of_ne e] using hpast)
  | finish m running =>
    by_cases e : n = m
    · subst e
      exact ih (by simp [running])
    · exact ih (by simpa [Function.update_of_ne e] using hpast)
  | exec m d rest w' running does =>
    have wanted : S.wanted m := hs.wanted_of_begun (by simp [running])
    have hd : d ∈ S.recipe m := (hs.suffix running).subset (by simp)
    by_cases e : n = m
    · subst e
      have hrest : c ∉ rest := by simpa using hpast
      by_cases ec : c = d
      · exact hest _ _ (ec ▸ does)
      · exact hpres n wanted d hd _ _ does (ih (by simp [running, ec, hrest]))
    · exact hpres m wanted d hd _ _ does (ih (by simpa [Function.update_of_ne e] using hpast))

/-! ## Runs exist -/

/-- A running recipe can execute all of its commands. -/
theorem exists_run_recipe (hexec : ∀ c w, ∃ w', S.exec c w w') (n : ν) :
    ∀ (cs : List κ) (s : State ν κ W), s.phase n = .running cs →
      ∃ w', Relation.ReflTransGen S.Step s
        ⟨Function.update s.phase n (.running []), w'⟩ := by
  intro cs
  induction cs with
  | nil =>
    intro s h
    refine ⟨s.world, ?_⟩
    rw [← h, Function.update_eq_self]
  | cons c cs ih =>
    intro s h
    obtain ⟨w, hw⟩ := hexec c s.world
    obtain ⟨w', hw'⟩ := ih ⟨Function.update s.phase n (.running cs), w⟩ (by simp)
    refine ⟨w', .head (.exec n c cs w h hw) ?_⟩
    simpa using hw'

/-- A node whose turn has come can be finished, leaving every other node alone. -/
theorem exists_finish (hexec : ∀ c w, ∃ w', S.exec c w w') {s : State ν κ W} {n : ν}
    (idle : s.phase n = .idle) (wanted : S.wanted n) (ready : S.Ready s n)
    (may : S.mayMake s n ∨ S.mayKeep s n) :
    ∃ s', Relation.ReflTransGen S.Step s s' ∧ (s'.phase n).Finished ∧
      ∀ m ≠ n, s'.phase m = s.phase m := by
  rcases may with may | may
  · let s₁ : State ν κ W :=
      { s with phase := Function.update s.phase n (.running (S.recipe n)) }
    obtain ⟨w', run⟩ := exists_run_recipe hexec n (S.recipe n) s₁ (Function.update_self ..)
    let s₂ : State ν κ W := ⟨Function.update s₁.phase n (.running []), w'⟩
    have done : S.Step s₂ _ := Step.finish n (Function.update_self ..)
    refine ⟨_, (Relation.ReflTransGen.head (.make n idle wanted ready may) run).tail done, ?_, ?_⟩
    · simp
    · intro m hm
      simp [s₂, s₁, hm]
  · exact ⟨_, .single (.keep n idle wanted ready may), by simp, fun m hm => by simp [hm]⟩

/-- A list of nodes in which honoured prerequisites come earlier can be finished from
left to right, leaving every other node alone.  `P` is what makes sure that a node can
be made or kept when its turn has come. -/
theorem exists_finished_of_order (hexec : ∀ c w, ∃ w', S.exec c w w') {P : State ν κ W → Prop}
    (hP : ∀ s s', P s → S.Step s s' → P s')
    (hmay : ∀ s n, P s → S.wanted n → S.Ready s n → S.mayMake s n ∨ S.mayKeep s n)
    {s : State ν κ W} (hs : P s) (order : List ν) (nodup : order.Nodup)
    (wanted : ∀ n ∈ order, S.wanted n) (quiet : ∀ n ∈ order, ¬ (s.phase n).Running)
    (first : ∀ pre n post, order = pre ++ n :: post → ∀ m, S.Honours n m → m ∈ pre) :
    ∃ s', Relation.ReflTransGen S.Step s s' ∧ (∀ n ∈ order, (s'.phase n).Finished) ∧
      ∀ n ∉ order, s'.phase n = s.phase n := by
  induction order using List.reverseRecOn with
  | nil => exact ⟨s, .refl, by simp, fun _ _ => rfl⟩
  | append_singleton l n ih =>
    have hn : n ∉ l := fun h => (List.nodup_append.mp nodup).2.2 n h n (by simp) rfl
    obtain ⟨s₁, run, hdone, hother⟩ := ih (List.nodup_append.mp nodup).1
      (fun m hm => wanted m (by simp [hm])) (fun m hm => quiet m (by simp [hm]))
      (fun pre m post h => first pre m (post ++ [n]) (by simp [h]))
    have keeps : ∀ m ∉ l ++ [n], m ≠ n ∧ m ∉ l := by
      intro m hm
      simp only [List.mem_append, List.mem_singleton, not_or] at hm
      exact hm.symm
    by_cases hfin : (s₁.phase n).Finished
    · refine ⟨s₁, run, ?_, fun m hm => hother m (keeps m hm).2⟩
      intro m hm
      rcases List.mem_append.mp hm with hm | hm
      · exact hdone m hm
      · rw [List.mem_singleton.mp hm]
        exact hfin
    · have idle : s₁.phase n = .idle := by
        have hq := quiet n (by simp)
        rw [← hother n hn] at hq
        exact Phase.eq_idle hq hfin
      have ready : S.Ready s₁ n := fun m e nd => hdone m (first l n [] rfl m ⟨e, nd⟩)
      obtain ⟨s₂, run₂, hfin₂, hother₂⟩ :=
        exists_finish hexec idle (wanted n (by simp)) ready
          (hmay s₁ n (preserved hP run hs) (wanted n (by simp)) ready)
      refine ⟨s₂, run.trans run₂, ?_, ?_⟩
      · intro m hm
        by_cases h : m = n
        · exact h ▸ hfin₂
        · rw [hother₂ m h]
          exact hdone m (by simpa [h] using hm)
      · intro m hm
        rw [hother₂ m (keeps m hm).1, hother m (keeps m hm).2]

/-- Sorting by the number of descendants puts every prerequisite that closes no
cycle in front. -/
theorem exists_order {E : ν → ν → Prop} (C : Finset ν)
    (closed : ∀ a ∈ C, ∀ b, E a b → b ∈ C) :
    ∃ order : List ν, order.Nodup ∧ (∀ n, n ∈ order ↔ n ∈ C) ∧
      ∀ pre n post, order = pre ++ n :: post →
        ∀ m, E n m → ¬ Relation.TransGen E m n → m ∈ pre := by
  classical
  let below : ν → Set ν := fun a => {b | Relation.ReflTransGen E a b}
  have sub : ∀ a ∈ C, below a ⊆ C := by
    intro a ha b hb
    induction hb with
    | refl => exact ha
    | tail _ e ih => exact closed _ ih _ e
  let r : ν → ℕ := fun a => (below a).ncard
  have rank : ∀ n ∈ C, ∀ m, E n m → ¬ Relation.TransGen E m n → r m < r n := by
    intro n hn m e back
    refine Set.ncard_lt_ncard ⟨fun b hb => .head e hb, fun hsub => ?_⟩
      (C.finite_toSet.subset (sub n hn))
    have self : n ∈ below m := hsub .refl
    rcases Relation.reflTransGen_iff_eq_or_transGen.mp self with rfl | h
    · exact back (.single e)
    · exact back h
  let le : ν → ν → Bool := fun a b => decide (r a ≤ r b)
  have sorted : (C.toList.mergeSort le).Pairwise (fun a b => le a b = true) :=
    List.pairwise_mergeSort (fun a b c => by simp only [le, decide_eq_true_eq]; omega)
      (fun a b => by simp only [le, Bool.or_eq_true, decide_eq_true_eq]; omega) _
  have mem : ∀ n, n ∈ C.toList.mergeSort le ↔ n ∈ C := by simp [List.mem_mergeSort]
  refine ⟨_, (List.mergeSort_perm _ _).nodup_iff.mpr C.nodup_toList, mem, ?_⟩
  intro pre n post h m e back
  have hn : n ∈ C := (mem n).mp (by rw [h]; simp)
  have hlt : r m < r n := rank n hn m e back
  have hm : m ∈ C.toList.mergeSort le := (mem m).mpr (closed n hn m e)
  rw [h] at hm sorted
  rcases List.mem_append.mp hm with hm | hm
  · exact hm
  · have tail := (List.pairwise_append.mp sorted).2.1
    rcases List.mem_cons.mp hm with rfl | hm
    · omega
    · have : r n ≤ r m := by simpa [le] using (List.pairwise_cons.mp tail).1 m hm
      omega

/-- **A closed set of nodes can be finished**, from any state in which none of them is
running, when the edges that make honours have no cycle. -/
theorem exists_finished (hexec : ∀ c w, ∃ w', S.exec c w w') {P : State ν κ W → Prop}
    (hP : ∀ s s', P s → S.Step s s' → P s')
    (hmay : ∀ s n, P s → S.wanted n → S.Ready s n → S.mayMake s n ∨ S.mayKeep s n)
    (acyclic : Acyclic S.Honours) {s : State ν κ W} (hs : P s) (C : Set ν) (fin : C.Finite)
    (closed : ∀ a ∈ C, ∀ b, S.Honours a b → b ∈ C) (wanted : ∀ n ∈ C, S.wanted n)
    (quiet : ∀ n ∈ C, ¬ (s.phase n).Running) :
    ∃ s', Relation.ReflTransGen S.Step s s' ∧ (∀ n ∈ C, (s'.phase n).Finished) ∧
      ∀ n ∉ C, s'.phase n = s.phase n := by
  obtain ⟨order, nodup, mem, first⟩ := exists_order (E := S.Honours) fin.toFinset
    (by simpa using closed)
  replace mem : ∀ n, n ∈ order ↔ n ∈ C := by simpa using mem
  obtain ⟨s', run, hdone, hother⟩ := exists_finished_of_order hexec hP hmay hs order nodup
    (fun n hn => wanted n ((mem n).mp hn)) (fun n hn => quiet n ((mem n).mp hn))
    (fun pre n post h m e => first pre n post h m e fun back => acyclic n (.head e back))
  exact ⟨s', run, fun n hn => hdone n ((mem n).mpr hn), fun n hn => hother n (mt (mem n).mp hn)⟩

/-- The prerequisites of a node can be finished before it is begun. -/
theorem exists_ready (hexec : ∀ c w, ∃ w', S.exec c w w') {P : State ν κ W → Prop}
    (hP : ∀ s s', P s → S.Step s s' → P s')
    (hmay : ∀ s n, P s → S.wanted n → S.Ready s n → S.mayMake s n ∨ S.mayKeep s n)
    (acyclic : Acyclic S.Honours) {s : State ν κ W} (hs : P s) (n : ν)
    (fin : {m | Relation.ReflTransGen S.prereq n m}.Finite)
    (wanted : ∀ m, Relation.ReflTransGen S.prereq n m → S.wanted m)
    (quiet : ∀ m, ¬ (s.phase m).Running) :
    ∃ s', Relation.ReflTransGen S.Step s s' ∧ S.Ready s' n ∧ s'.phase n = s.phase n := by
  have below : ∀ m, Relation.TransGen S.Honours n m → Relation.ReflTransGen S.prereq n m :=
    fun m h => (Relation.TransGen.mono (fun _ _ e => e.1) _ _ h).to_reflTransGen
  obtain ⟨s', run, hdone, hother⟩ := exists_finished hexec hP hmay acyclic hs
    {m | Relation.TransGen S.Honours n m} (fin.subset below) (fun a ha b e => ha.tail e)
    (fun m hm => wanted m (below m hm)) (fun m _ => quiet m)
  exact ⟨s', run, fun m e nd => hdone m (.single ⟨e, nd⟩), hother n (acyclic n)⟩

/-- **Every wanted node can be brought to run**, when the edges that make honours have no
cycle and the node's descendants are finitely many and wanted. -/
theorem exists_reachable_running (hexec : ∀ c w, ∃ w', S.exec c w w')
    (hmay : ∀ s n, S.mayMake s n) (acyclic : Acyclic S.Honours) (w : W)
    (n : ν) (fin : {m | Relation.ReflTransGen S.prereq n m}.Finite)
    (wanted : ∀ m, Relation.ReflTransGen S.prereq n m → S.wanted m) :
    ∃ s, S.Reachable w s ∧ (s.phase n).Running := by
  obtain ⟨s, run, ready, idle⟩ := exists_ready (P := fun _ => True) hexec (fun _ _ _ _ => trivial)
    (fun s n _ _ _ => .inl (hmay s n)) acyclic (s := start w) trivial n fin wanted
    (by simp [start, Phase.Running])
  exact ⟨_, Reachable.step run (.make n idle (wanted n .refl) ready (hmay s n)),
    by simp [Phase.Running]⟩

/-! ## A run written out

`f` is what the commands happen to do. -/

/-- A running recipe executes its next commands. -/
theorem run_commands {f : κ → W → W} (hf : ∀ c w, S.exec c w (f c w)) (n : ν) (rest : List κ) :
    ∀ (cs : List κ) (s : State ν κ W), s.phase n = .running (cs ++ rest) →
      Relation.ReflTransGen S.Step s
        ⟨Function.update s.phase n (.running rest), cs.foldl (fun w c => f c w) s.world⟩ := by
  intro cs
  induction cs with
  | nil =>
    intro s h
    rw [List.nil_append] at h
    rw [← h, Function.update_eq_self]
    exact .refl
  | cons c cs ih =>
    intro s h
    have run := ih ⟨Function.update s.phase n (.running (cs ++ rest)), f c s.world⟩ (by simp)
    rw [Function.update_idem] at run
    exact .head (.exec n c (cs ++ rest) _ h (hf c s.world)) run

/-- What has a smaller index in a list without repetitions stands before. -/
theorem mem_of_idxOf_lt {order pre post : List ν} {m n : ν} (nodup : order.Nodup)
    (h : order = pre ++ n :: post) (lt : order.idxOf m < order.idxOf n) : m ∈ pre := by
  subst h
  have hn : n ∉ pre := fun hn => (List.nodup_append.mp nodup).2.2 n hn n (by simp) rfl
  by_contra hm
  rw [List.idxOf_append_of_notMem hn, List.idxOf_append_of_notMem hm, List.idxOf_cons_self] at lt
  omega

/-- **Make may go through the nodes one by one**, in any order that puts prerequisites first. -/
theorem reachable_of_order {f : κ → W → W} (hf : ∀ c w, S.exec c w (f c w)) (w : W)
    (order : List ν) (nodup : order.Nodup) (wanted : ∀ n ∈ order, S.wanted n)
    (may : ∀ s, ∀ n ∈ order, S.mayMake s n)
    (first : ∀ pre n post, order = pre ++ n :: post → ∀ m, S.Honours n m → m ∈ pre) :
    S.Reachable w ⟨fun n => if n ∈ order then .made else .idle,
      (order.flatMap S.recipe).foldl (fun w c => f c w) w⟩ := by
  induction order using List.reverseRecOn with
  | nil => exact .refl
  | append_singleton l n ih =>
    have hn : n ∉ l := fun h => (List.nodup_append.mp nodup).2.2 n h n (by simp) rfl
    have reach := ih (List.nodup_append.mp nodup).1 (fun m hm => wanted m (by simp [hm]))
      (fun s m hm => may s m (by simp [hm]))
      (fun pre m post h => first pre m (post ++ [n]) (by simp [h]))
    let s₀ : State ν κ W := ⟨fun m => if m ∈ l then .made else .idle,
      (l.flatMap S.recipe).foldl (fun w c => f c w) w⟩
    have idle : s₀.phase n = .idle := by simp [s₀, hn]
    have ready : S.Ready s₀ n := by
      intro m e nd
      simp [s₀, first l n [] rfl m ⟨e, nd⟩]
    let s₁ : State ν κ W := { s₀ with phase := Function.update s₀.phase n (.running (S.recipe n)) }
    have made : S.Step s₀ s₁ := .make n idle (wanted n (by simp)) ready (may _ n (by simp))
    let s₂ : State ν κ W := ⟨Function.update s₁.phase n (.running []),
      (S.recipe n).foldl (fun w c => f c w) s₁.world⟩
    have run : Relation.ReflTransGen S.Step s₁ s₂ :=
      run_commands hf n [] (S.recipe n) s₁ (by simp [s₁])
    have done : S.Step s₂ { s₂ with phase := Function.update s₂.phase n .made } :=
      .finish n (Function.update_self ..)
    have reach' := (Relation.ReflTransGen.trans (Reachable.step reach made) run).tail done
    have phases : Function.update (fun m => if m ∈ l then Phase.made else (Phase.idle : Phase κ)) n
        .made = fun m => if m ∈ l ++ [n] then .made else .idle := by
      funext m
      by_cases e : m = n
      · subst e
        simp
      · simp [e]
    simpa [s₂, s₁, s₀, phases, Reachable] using reach'

end System

end Make
