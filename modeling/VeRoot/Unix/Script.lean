import Mathlib.Data.List.Basic
import Mathlib.Tactic.SplitIfs

/-!
# Shell scripts

A script without `set -e` executes its commands one after the other, whatever
becomes of them, and branches on tests of the state.  The commands that one run
executes are its trace; a machine that loses power after `n` commands has executed
the first `n` of them.

## Main definitions

* `Script` — commands and conditionals, in sequence.
* `Script.trace`, `Script.run` — the commands a run executes, and what they leave.
* `Script.Resumes` — a run, cut where a part of the script begins.
* `Script.commands` — the commands that occur.
* `Script.Matches` — two scripts that keep two machines alike.
-/

namespace Unix

variable {κ κ' τ τ' σ σ' : Type*}

/-- A script. -/
inductive Script (κ τ : Type*)
  | done
  /-- Some commands, and the rest. -/
  | cmds (cs : List κ) (next : Script κ τ)
  /-- `if t; then yes; else no; fi`, and the rest. -/
  | cond (t : τ) (yes no next : Script κ τ)

namespace Script

/-- The commands that occur in a script. -/
def commands : Script κ τ → List κ
  | done => []
  | cmds cs next => cs ++ next.commands
  | cond _ yes no next => yes.commands ++ no.commands ++ next.commands

variable (exec : κ → σ → σ) (test : τ → σ → Bool)

/-- The commands that a run from the state `s` executes. -/
def trace : Script κ τ → σ → List κ
  | done, _ => []
  | cmds cs next, s => cs ++ next.trace (cs.foldl (fun s c => exec c s) s)
  | cond t yes no next, s =>
    let cs := if test t s then yes.trace s else no.trace s
    cs ++ next.trace (cs.foldl (fun s c => exec c s) s)

/-- The state a run leaves. -/
def run (k : Script κ τ) (s : σ) : σ := (k.trace exec test s).foldl (fun s c => exec c s) s

variable {exec : κ → σ → σ} {test : τ → σ → Bool} {s : σ} {cs : List κ} {t : τ}
  {k yes no next : Script κ τ}

@[simp] theorem trace_done : (done : Script κ τ).trace exec test s = [] := rfl

theorem trace_cmds : (cmds cs next).trace exec test s =
    cs ++ next.trace exec test (cs.foldl (fun s c => exec c s) s) := rfl

theorem trace_cond_of_true (h : test t s = true) : (cond t yes no next).trace exec test s =
    yes.trace exec test s ++ next.trace exec test (yes.run exec test s) := by
  rw [trace]
  simp only [h, if_true]
  rfl

theorem trace_cond_of_false (h : test t s = false) : (cond t yes no next).trace exec test s =
    no.trace exec test s ++ next.trace exec test (no.run exec test s) := by
  rw [trace]
  simp only [h, Bool.false_eq_true, if_false]
  rfl

@[simp] theorem run_done : (done : Script κ τ).run exec test s = s := rfl

theorem run_cmds : (cmds cs next).run exec test s =
    next.run exec test (cs.foldl (fun s c => exec c s) s) := by
  rw [run, trace_cmds, List.foldl_append]
  rfl

theorem run_cond_of_true (h : test t s = true) :
    (cond t yes no next).run exec test s = next.run exec test (yes.run exec test s) := by
  rw [run, trace_cond_of_true h, List.foldl_append]
  rfl

theorem run_cond_of_false (h : test t s = false) :
    (cond t yes no next).run exec test s = next.run exec test (no.run exec test s) := by
  rw [run, trace_cond_of_false h, List.foldl_append]
  rfl

theorem mem_trace_cmds {c : κ} (h : ∀ s, c ∈ next.trace exec test s) :
    c ∈ (cmds cs next).trace exec test s :=
  List.mem_append_right _ (h _)

theorem mem_trace_cond {c : κ} (h : ∀ s, c ∈ next.trace exec test s) :
    c ∈ (cond t yes no next).trace exec test s :=
  List.mem_append_right _ (h _)

theorem trace_cmds_done : (cmds cs done : Script κ τ).trace exec test s = cs := List.append_nil cs

/-- A run of `w` from `s` executes `cs` and goes on with `k`. -/
def Resumes (exec : κ → σ → σ) (test : τ → σ → Bool) (w : Script κ τ) (s : σ) (cs : List κ)
    (k : Script κ τ) : Prop :=
  w.trace exec test s = cs ++ k.trace exec test (cs.foldl (fun s c => exec c s) s)

namespace Resumes

variable {w : Script κ τ} {xs : List κ}

theorem start : Resumes exec test w s [] w := rfl

theorem cmds (h : Resumes exec test w s cs (.cmds xs next)) :
    Resumes exec test w s (cs ++ xs) next := by
  rw [Resumes, trace_cmds] at h
  rw [Resumes, h, List.foldl_append, List.append_assoc]

theorem cond_of_true (h : Resumes exec test w s cs (.cond t yes no next))
    (ht : test t (cs.foldl (fun s c => exec c s) s) = true)
    (hyes : yes.trace exec test (cs.foldl (fun s c => exec c s) s) = xs) :
    Resumes exec test w s (cs ++ xs) next := by
  rw [Resumes, trace_cond_of_true ht, hyes, run, hyes] at h
  rw [Resumes, h, List.foldl_append, List.append_assoc]

theorem cond_of_false (h : Resumes exec test w s cs (.cond t yes no next))
    (ht : test t (cs.foldl (fun s c => exec c s) s) = false)
    (hno : no.trace exec test (cs.foldl (fun s c => exec c s) s) = xs) :
    Resumes exec test w s (cs ++ xs) next := by
  rw [Resumes, trace_cond_of_false ht, hno, run, hno] at h
  rw [Resumes, h, List.foldl_append, List.append_assoc]

/-- Past a conditional whose branches are lists of commands. -/
theorem cond {p : Prop} [Decidable p] {ys : List κ}
    (h : Resumes exec test w s cs (.cond t yes no next))
    (ht : test t (cs.foldl (fun s c => exec c s) s) = decide p)
    (hyes : yes.trace exec test (cs.foldl (fun s c => exec c s) s) = xs)
    (hno : no.trace exec test (cs.foldl (fun s c => exec c s) s) = ys) :
    Resumes exec test w s (cs ++ if p then xs else ys) next := by
  split_ifs with hp
  · exact h.cond_of_true (by rw [ht, decide_eq_true hp]) hyes
  · exact h.cond_of_false (by rw [ht, decide_eq_false hp]) hno

/-- What a run leaves, from where it goes on. -/
theorem run_eq (h : Resumes exec test w s cs k) :
    w.run exec test s = k.run exec test (cs.foldl (fun s c => exec c s) s) := by
  rw [run, h, List.foldl_append]
  rfl

theorem done (h : Resumes exec test w s cs .done) : w.trace exec test s = cs := by
  rw [h, trace_done, List.append_nil]

end Resumes

/-- A run executes only commands that occur. -/
theorem mem_commands {c : κ} (h : c ∈ k.trace exec test s) : c ∈ k.commands := by
  induction k generalizing s with
  | done => exact h
  | cmds cs next ih =>
    rcases List.mem_append.mp h with h | h
    · exact List.mem_append_left _ h
    · exact List.mem_append_right _ (ih h)
  | cond t yes no next ihy ihn ih =>
    cases ht : test t s with
    | true =>
      rw [trace_cond_of_true ht] at h
      rcases List.mem_append.mp h with h | h
      · simp [commands, ihy h]
      · simp [commands, ih h]
    | false =>
      rw [trace_cond_of_false ht] at h
      rcases List.mem_append.mp h with h | h
      · simp [commands, ihn h]
      · simp [commands, ih h]

/-! ## Two scripts -/

/-- Two scripts with the same branches, whose commands keep two machines alike. -/
inductive Matches (R : σ → σ' → Prop) (exec : κ → σ → σ) (test : τ → σ → Bool)
    (exec' : κ' → σ' → σ') (test' : τ' → σ' → Bool) : Script κ τ → Script κ' τ' → Prop
  | done : Matches R exec test exec' test' .done .done
  | cmds {cs : List κ} {cs' : List κ'} {k : Script κ τ} {k' : Script κ' τ'}
      (keeps : ∀ s s', R s s' →
        R (cs.foldl (fun s c => exec c s) s) (cs'.foldl (fun s c => exec' c s) s'))
      (next : Matches R exec test exec' test' k k') :
      Matches R exec test exec' test' (.cmds cs k) (.cmds cs' k')
  | cond {t : τ} {t' : τ'} {yes no k : Script κ τ} {yes' no' k' : Script κ' τ'}
      (same : ∀ s s', R s s' → test t s = test' t' s')
      (left : Matches R exec test exec' test' yes yes')
      (right : Matches R exec test exec' test' no no')
      (next : Matches R exec test exec' test' k k') :
      Matches R exec test exec' test' (.cond t yes no k) (.cond t' yes' no' k')

/-- **Matching scripts keep two machines alike.** -/
theorem Matches.run {R : σ → σ' → Prop} {exec' : κ' → σ' → σ'} {test' : τ' → σ' → Bool}
    {k' : Script κ' τ'} {s' : σ'} (h : Matches R exec test exec' test' k k') (hs : R s s') :
    R (k.run exec test s) (k'.run exec' test' s') := by
  induction h generalizing s s' with
  | done => exact hs
  | cmds keeps _ ih =>
    rw [run_cmds, run_cmds]
    exact ih (keeps s s' hs)
  | @cond t t' _ _ _ _ _ _ same _ _ _ ihy ihn ih =>
    have both := same s s' hs
    cases ht : test t s with
    | true =>
      rw [run_cond_of_true ht, run_cond_of_true (both ▸ ht)]
      exact ih (ihy hs)
    | false =>
      rw [run_cond_of_false ht, run_cond_of_false (both ▸ ht)]
      exact ih (ihn hs)

end Script

/-- What every command preserves, a list of commands preserves. -/
theorem foldl_invariant {exec : κ → σ → σ} {cs : List κ} {s : σ} {P : σ → Prop}
    (h : ∀ c ∈ cs, ∀ s, P s → P (exec c s)) (hs : P s) : P (cs.foldl (fun s c => exec c s) s) := by
  induction cs generalizing s with
  | nil => exact hs
  | cons c cs ih => exact ih (fun d hd => h d (by simp [hd])) (h c (by simp) s hs)

end Unix
