import Mathlib.Data.List.Basic

/-!
# Disks that write back

The machine reads what it has written.  The medium has it later: place by place,
in any order, and all of it after a sync.  When the machine stops, what is not on
the medium is lost.

## Main definitions

* `Disk` — the cached and the stored contents.
* `Disk.write`, `Disk.settle`, `Disk.sync` — what happens to them.
* `Disk.forall_settle` — what holds of both contents holds after settling.
* `foldl_of_last` — the last write to a place counts.
-/

namespace Store

variable {κ α σ γ : Type*}

/-- A disk with places `κ`. -/
structure Disk (κ α : Type*) where
  /-- What the machine reads. -/
  cache : κ → α
  /-- What survives a power loss. -/
  medium : κ → α

namespace Disk

/-- A disk that has just been found with the contents `m`. -/
def found (m : κ → α) : Disk κ α := ⟨m, m⟩

/-- Some places are written. -/
def write (d : Disk κ α) (ws : κ → Option α) : Disk κ α :=
  { d with cache := fun l => (ws l).getD (d.cache l) }

/-- The places in `S` reach the medium. -/
def settle (d : Disk κ α) (S : κ → Bool) : Disk κ α :=
  { d with medium := fun l => if S l then d.cache l else d.medium l }

/-- Everything reaches the medium. -/
def sync (d : Disk κ α) : Disk κ α := { d with medium := d.cache }

variable {d : Disk κ α} {ws : κ → Option α} {S : κ → Bool} {l : κ} {a : α}

@[simp] theorem found_cache (m : κ → α) : (found m).cache = m := rfl
@[simp] theorem found_medium (m : κ → α) : (found m).medium = m := rfl
@[simp] theorem write_medium : (d.write ws).medium = d.medium := rfl
@[simp] theorem settle_cache : (d.settle S).cache = d.cache := rfl
@[simp] theorem sync_cache : d.sync.cache = d.cache := rfl
@[simp] theorem sync_medium : d.sync.medium = d.cache := rfl

theorem settle_medium_of_mem (h : S l = true) : (d.settle S).medium l = d.cache l := if_pos h

theorem settle_medium_of_notMem (h : S l = false) : (d.settle S).medium l = d.medium l :=
  if_neg (by simp [h])

/-- What a place holds in the cache and on the medium, it holds after settling. -/
theorem forall_settle {P : α → Prop} (hc : P (d.cache l)) (hm : P (d.medium l)) :
    P ((d.settle S).medium l) := by
  cases h : S l with
  | true => rwa [settle_medium_of_mem h]
  | false => rwa [settle_medium_of_notMem h]

end Disk

/-- The last of some steps that writes to a place decides what is there. -/
theorem foldl_of_last {step : σ → γ → σ} (read : σ → α) (writes : γ → Option α)
    (hwrite : ∀ s c a, writes c = some a → read (step s c) = a)
    (hkeep : ∀ s c, writes c = none → read (step s c) = read s) {cs : List γ} {c : γ} {a : α}
    (hc : writes c = some a) (hcs : ∀ c ∈ cs, writes c = none ∨ writes c = some a) (s : σ) :
    read ((c :: cs).foldl step s) = a := by
  rw [List.foldl_cons]
  have start : read (step s c) = a := hwrite s c a hc
  generalize step s c = t at start
  induction cs generalizing t with
  | nil => exact start
  | cons e cs ih =>
    rw [List.foldl_cons]
    refine ih (fun c hc => hcs c (by simp [hc])) _ ?_
    rcases hcs e (by simp) with he | he
    · rw [hkeep t e he, start]
    · exact hwrite t e a he

end Store
