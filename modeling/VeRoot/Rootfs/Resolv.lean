import VeRoot.Make.History
import VeRoot.Unix.Errexit
import Mathlib.Logic.Function.Basic

/-!
# The name server while packages are installed

`install-packages.sh` and `full-upgrade.sh` run in the root file system under `set -e`.
They put `/etc/resolv.conf` aside, write one of their own, call `apt` and put the original
back at the end.  Whatever stops them in between leaves the original aside, and the next
execution puts the replacement in its place.

## Main definitions

* `Etc`, `EtcCmd`, `EtcCmd.Does` — the two files, and what the commands may do to them.
* `installPackages`, `fullUpgrade` — the scripts.
* `Execution`, `Execution.Happens` — one execution, up to its end or to a failure.
* `Execution.Restored`, `Execution.Finds` — the original after an execution, and before.
* `restored_of_clean` — what restores the configuration in a whole history.
* `restored_iff` — what restores it exactly.
-/

namespace VeRoot

open Unix Make

/-- The files that the scripts move. -/
inductive EtcFile
  /-- `/etc/resolv.conf` -/
  | conf
  /-- `/etc/resolv.conf.old` -/
  | old
  deriving DecidableEq, Repr

/-- What the files contain. -/
abbrev Etc := EtcFile → Option String

/-- A command of the scripts. -/
inductive EtcCmd
  /-- `chmod`, an assignment, or `rm -rf /tmp/*` -/
  | other (c : String)
  | apt (c : String)
  | mv (src dst : EtcFile)
  /-- `echo "nameserver 8.8.8.8" > /etc/resolv.conf` -/
  | echo
  | rm (n : EtcFile)
  deriving DecidableEq, Repr

/-- The line that the scripts write. -/
def googleDns : String := "nameserver 8.8.8.8\n"

/-- What a command may do.  Installing a package may replace `/etc/resolv.conf`, and a
redirection that fails may have emptied it. -/
inductive EtcCmd.Does : EtcCmd → Etc → Etc → Bool → Prop
  | other (c s b) : Does (.other c) s s b
  | apt {c s s'} (b) (aside : s' .old = s .old) : Does (.apt c) s s' b
  | mv {src dst : EtcFile} {s : Etc} {t} (there : s src = some t) :
      Does (.mv src dst) s (Function.update (Function.update s src none) dst (some t)) true
  | mvFails (src dst s) : Does (.mv src dst) s s false
  | echo (s : Etc) : Does .echo s (Function.update s .conf (some googleDns)) true
  | echoFails {s s' : Etc} (aside : s' .old = s .old) : Does .echo s s' false
  | rm {n : EtcFile} {s : Etc} {t} (there : s n = some t) :
      Does (.rm n) s (Function.update s n none) true
  | rmFails (n s) : Does (.rm n) s s false

/-- What both scripts do, around the calls of `apt`. -/
def swapping (calls : List EtcCmd) : List EtcCmd :=
  [.other "chmod 1777 /tmp", .mv .conf .old] ++ (.echo :: calls) ++
    [.rm .conf, .mv .old .conf, .other "rm -rf /tmp/*"]

/-- `layers/debian/packages/scripts/install-packages.sh` -/
def installPackages : List EtcCmd :=
  swapping [.other "DPKG_OPTIONS", .apt "update", .other "PACKAGES", .apt "install",
    .apt "autoclean", .apt "clean"]

/-- `layers/debian/full-upgrade/full-upgrade.sh` -/
def fullUpgrade : List EtcCmd := swapping [.other "DPKG_OPTIONS", .apt "update", .apt "full-upgrade"]

/-- The two scripts. -/
inductive EtcScript
  | installPackages | fullUpgrade
  deriving DecidableEq, Repr

/-- The commands of a script. -/
def EtcScript.commands : EtcScript → List EtcCmd
  | .installPackages => VeRoot.installPackages
  | .fullUpgrade => VeRoot.fullUpgrade

/-- One execution of a script: what it leaves behind, and whether it finished. -/
structure Execution where
  script : EtcScript
  after : Etc
  finished : Bool

namespace Execution

/-- The script can do this. -/
def Happens (s : Etc) (e : Execution) : Prop :=
  Errexit EtcCmd.Does e.script.commands s e.after e.finished

/-- If it finishes, the original is in its place and nothing is left aside. -/
def Restored (original : String) (_ : Etc) (e : Execution) : Prop :=
  e.finished = true → e.after .conf = some original ∧ e.after .old = none

/-- If it finishes, it has found the original in its place. -/
def Finds (original : String) (s : Etc) (e : Execution) : Prop :=
  e.finished = true → s .conf = some original

/-- It begins when nothing is left aside. -/
def Clean (s : Etc) (_ : Execution) : Prop := s .old = none

end Execution

/-- A root file system with its original configuration. -/
def pristine (original : String) : Etc
  | .conf => some original
  | .old => none

section Resolv

variable {original : String} {s s' s'' : Etc} {e : Execution} {es : List Execution} {b : Bool}
  {calls : List EtcCmd} {c : EtcCmd}

/-! ## One execution -/

/-- The command leaves what has been put aside. -/
def EtcCmd.Spares : EtcCmd → Prop
  | .other _ | .apt _ | .echo | .rm .conf => True
  | .mv _ _ | .rm .old => False

theorem EtcCmd.Spares.old_eq (hc : c.Spares) (h : c.Does s s' b) : s' .old = s .old := by
  cases h with
  | other | rmFails => rfl
  | apt _ aside => exact aside
  | echoFails aside => exact aside
  | echo => exact Function.update_of_ne (by decide) ..
  | @rm n =>
    cases n with
    | conf => exact Function.update_of_ne (by decide) ..
    | old => exact hc.elim
  | mv | mvFails => exact hc.elim

/-- So does a list of such commands. -/
theorem Errexit.old_eq (hcs : ∀ c ∈ calls, c.Spares) (h : Errexit EtcCmd.Does calls s s' b) :
    s' .old = s .old := by
  refine h.invariant (P := fun t => t .old = s .old) ?_ rfl
  intro c hc t t' b does ht
  rw [(hcs c hc).old_eq does, ht]

theorem other_iff {w : String} : EtcCmd.Does (.other w) s s' b ↔ s' = s := by
  constructor
  · intro h
    cases h
    rfl
  · rintro rfl
    exact .other w _ b

/-- **An execution that finishes puts back what it found.** -/
theorem conf_of_success (hcalls : ∀ c ∈ calls, c.Spares)
    (h : Errexit EtcCmd.Does (swapping calls) s s' true) : s' .conf = s .conf ∧ s' .old = none := by
  obtain ⟨s₂, h₂, last⟩ := Errexit.append_success_iff.mp h
  obtain ⟨s₁, first, middle⟩ := Errexit.append_success_iff.mp h₂
  simp only [Errexit.cons_success_iff, Errexit.nil_iff, other_iff, and_true] at first last
  obtain ⟨_, rfl, _, moved, rfl⟩ := first
  obtain ⟨_, removed, _, back, _, rfl, rfl⟩ := last
  have aside : s₂ .old = s₁ .old :=
    Errexit.old_eq (by simpa [EtcCmd.Spares] using hcalls) middle
  cases moved with
  | mv there =>
    cases removed with
    | rm =>
      cases back with
      | mv there' =>
        simp_all

/-- An execution that begins with nothing aside and leaves nothing aside leaves the
configuration as it found it, whether or not it finishes. -/
theorem conf_of_clean (hcalls : ∀ c ∈ calls, c.Spares) (clean : s .old = none)
    (h : Errexit EtcCmd.Does (swapping calls) s s' b) (left : s' .old = none) :
    s' .conf = s .conf := by
  cases b with
  | true => exact (conf_of_success hcalls h).1
  | false =>
    have spares : ∀ c ∈ .echo :: calls, c.Spares := by simpa [EtcCmd.Spares] using hcalls
    rcases Errexit.append_cases h with ⟨-, early⟩ | ⟨s₂, h₂, last⟩
    · rcases Errexit.append_cases early with ⟨-, first⟩ | ⟨s₁, first, middle⟩
      · -- nothing has been moved yet
        have same : s' = s := by
          cases first with
          | stop fails => exact other_iff.mp fails
          | next succeeds rest =>
            obtain rfl := other_iff.mp succeeds
            cases rest with
            | stop fails => cases fails; rfl
            | next _ rest => cases rest
        rw [same]
      · -- the original is aside
        simp only [Errexit.cons_success_iff, Errexit.nil_iff, other_iff, and_true] at first
        obtain ⟨_, rfl, _, moved, rfl⟩ := first
        have aside := Errexit.old_eq spares middle
        cases moved with
        | mv there => simp [left] at aside
    · obtain ⟨s₁, first, middle⟩ := Errexit.append_success_iff.mp h₂
      simp only [Errexit.cons_success_iff, Errexit.nil_iff, other_iff, and_true] at first
      obtain ⟨_, rfl, _, moved, rfl⟩ := first
      have aside := Errexit.old_eq spares middle
      cases moved with
      | mv there =>
        cases last with
        | stop fails => cases fails; simp [left] at aside
        | next succeeds rest =>
          cases succeeds with
          | rm =>
            cases rest with
            | stop fails => cases fails; simp_all
            | next back rest =>
              cases rest with
              | stop fails =>
                obtain rfl := other_iff.mp fails
                cases back with
                | mv there' => simp_all
              | next _ rest => cases rest

/-! ## Histories -/

theorem EtcScript.exists_calls (k : EtcScript) :
    ∃ calls : List EtcCmd, (∀ c ∈ calls, c.Spares) ∧ k.commands = swapping calls := by
  cases k
  · exact ⟨_, by simp [EtcCmd.Spares], rfl⟩
  · exact ⟨_, by simp [EtcCmd.Spares], rfl⟩

/-- One execution. -/
theorem Execution.restored_iff_finds (h : e.Happens s) :
    e.Restored original s ↔ e.Finds original s := by
  obtain ⟨calls, hcalls, hk⟩ := e.script.exists_calls
  rw [Happens, hk] at h
  refine forall_congr' fun fin => ?_
  obtain ⟨hconf, hold⟩ := conf_of_success hcalls (fin ▸ h)
  rw [hconf]
  exact and_iff_left hold

/-- Every execution finds the original as long as each of them begins with nothing left aside. -/
theorem finds_of_clean (happens : Along (fun _ e => e.after) Execution.Happens s es)
    (start : s .conf = some original)
    (clean : Along (fun _ e => e.after) Execution.Clean s es) :
    Along (fun _ e => e.after) (Execution.Finds original) s es := by
  refine (happens.and clean).of_invariant
    (I := fun s => s .old = none → s .conf = some original) ?_ fun _ => start
  rintro s e hs ⟨he, hclean⟩
  refine ⟨fun _ => hs hclean, fun hleft => ?_⟩
  obtain ⟨calls, hcalls, hk⟩ := e.script.exists_calls
  rw [Execution.Happens, hk] at he
  rw [conf_of_clean hcalls hclean he hleft]
  exact hs hclean

/-- **The configuration is restored in every history in which no execution begins with something
left aside** by one that was stopped. -/
theorem restored_of_clean (happens : Along (fun _ e => e.after) Execution.Happens s es)
    (start : s .conf = some original)
    (clean : Along (fun _ e => e.after) Execution.Clean s es) :
    Along (fun _ e => e.after) (Execution.Restored original) s es :=
  (happens.and (finds_of_clean happens start clean)).mono fun _ _ he =>
    (Execution.restored_iff_finds he.1).mpr he.2

/-- **The configuration is restored by every execution that finishes exactly if each of them
has found the original in its place**, one execution at a time. -/
theorem restored_iff (original : String) (s : Etc) (es : List Execution)
    (happens : Along (fun _ e => e.after) Execution.Happens s es) :
    Along (fun _ e => e.after) (Execution.Restored original) s es ↔
      Along (fun _ e => e.after) (Execution.Finds original) s es := by
  constructor
  · intro h
    exact (happens.and h).mono fun s e he => (Execution.restored_iff_finds he.1).mp he.2
  · intro h
    exact (happens.and h).mono fun s e he => (Execution.restored_iff_finds he.1).mpr he.2

/-! ## Executions that happen -/

/-- The configuration is aside, and the replacement in its place. -/
def interrupted (original : String) : Etc
  | .conf => some googleDns
  | .old => some original

theorem quiet_calls (hcalls : ∀ c ∈ calls, (∃ w, c = .other w) ∨ ∃ w, c = .apt w) (s : Etc) :
    Errexit EtcCmd.Does calls s s true := by
  induction calls with
  | nil => exact .done s
  | cons c calls ih =>
    refine .next ?_ (ih fun c hc => hcalls c (by simp [hc]))
    rcases hcalls c (by simp) with ⟨w, rfl⟩ | ⟨w, rfl⟩
    · exact .other w s true
    · exact .apt true rfl

/-- Once the configuration is aside and the replacement is written. -/
theorem begin_swapping (hs : s .conf = some original) :
    Errexit EtcCmd.Does [.other "chmod 1777 /tmp", .mv .conf .old, .echo] s (interrupted original)
      true := by
  have e : Function.update (Function.update (Function.update s .conf none) .old (some original))
      .conf (some googleDns) = interrupted original := by
    funext n
    cases n <;> simp [interrupted]
  exact .next (.other _ s true) (.next (.mv hs) (.next (e ▸ .echo _) (.done _)))

/-- If `apt` can be called, the script can finish. -/
theorem swapping_succeeds (hcalls : ∀ c ∈ calls, (∃ w, c = .other w) ∨ ∃ w, c = .apt w)
    (hs : s .conf = some original) :
    Errexit EtcCmd.Does (swapping calls) s (pristine original) true := by
  refine Errexit.append_success_iff.mpr ⟨interrupted original, ?_, ?_⟩
  · have := Errexit.append_success_iff.mpr ⟨_, begin_swapping hs, quiet_calls hcalls _⟩
    simpa using this
  · have e : Function.update (Function.update (Function.update (interrupted original) .conf none)
        .old none) .conf (some original) = pristine original := by
      funext n
      cases n <;> simp [pristine]
    refine .next (.rm (t := googleDns) rfl) (.next (e ▸ .mv ?_) (.next (.other _ _ true) (.done _)))
    rfl

/-- Without a network it is stopped by the first call of `apt`. -/
theorem swapping_stopped {w c : String} (hs : s .conf = some original) :
    Errexit EtcCmd.Does (swapping (.other w :: .apt c :: calls)) s (interrupted original)
      false := by
  have first := begin_swapping hs
  cases first with
  | next h₁ rest =>
    cases rest with
    | next h₂ rest =>
      cases rest with
      | next h₃ rest =>
        obtain ⟨rfl, -⟩ := Errexit.nil_iff.mp rest
        exact .next h₁ (.next h₂ (.next h₃ (.next (.other w _ true) (.stop (.apt false rfl)))))

end Resolv

/-- **After a try without a network the next one finishes with the wrong name server.** -/
theorem not_restored_retry : ∃ es : List Execution,
    Along (fun _ e => e.after) Execution.Happens (pristine "nameserver 10.0.0.1\n") es ∧
      ¬ Along (fun _ e => e.after) (Execution.Restored "nameserver 10.0.0.1\n")
        (pristine "nameserver 10.0.0.1\n") es := by
  refine ⟨[⟨.installPackages, interrupted "nameserver 10.0.0.1\n", false⟩,
    ⟨.installPackages, pristine googleDns, true⟩], ⟨?_, ?_, trivial⟩, ?_⟩
  · exact swapping_stopped rfl
  · exact swapping_succeeds (by simp) rfl
  · rintro ⟨-, restored, -⟩
    have := (restored rfl).1
    revert this
    decide

/-- A try that cannot even change `/tmp` does no harm. -/
theorem restored_retry : Along (fun _ e => e.after) (Execution.Restored "nameserver 10.0.0.1\n")
    (pristine "nameserver 10.0.0.1\n")
    [⟨.fullUpgrade, pristine "nameserver 10.0.0.1\n", false⟩,
      ⟨.installPackages, pristine "nameserver 10.0.0.1\n", true⟩] := by
  refine (restored_iff _ _ _ ?_).mpr ⟨fun _ => rfl, fun _ => rfl, trivial⟩
  exact ⟨.stop (.other _ _ false), swapping_succeeds (by simp) rfl, trivial⟩

end VeRoot
