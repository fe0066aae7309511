import VeRoot.Kconfig.Agree

/-!
# User values

`set_value` and `unset_value` of symbols and choices, without the cache: which values are
accepted, what they change, and the item from which the invalidation starts.

## Main definitions

* `Settings` — the user values, and the symbols and choices that have been set.
* `setValue`, `unsetValue`, `setMode`, `unsetMode` — the four assignments.
-/

namespace Kconfig

open Unix Demand

/-- A value that is handed to `set_value`: one of 0, 1 and 2, or a text. -/
inductive UserValue
  | tri (v : Tri)
  | str (t : Text)
  deriving DecidableEq

/-- For bool and tristate symbols `n`, `m` and `y` stand for 0, 1 and 2. -/
def UserValue.ofType (t : SymType) : UserValue → UserValue
  | tri v => tri v
  | str s => if t.isBoolTristate then (strToTri s).elim (str s) tri else str s

/-- Whether the value has the form that the type asks for. -/
def UserValue.valid : SymType → UserValue → Bool
  | .bool, tri v => v ≠ .m
  | .tristate, tri _ => true
  | .string, str _ => true
  | .int, str s => isBaseN s 10
  | .hex, str s => (int 16 s).any (0 ≤ ·)
  | _, _ => false

namespace User

variable (u : User)

/-- Nothing has been set. -/
def empty : User := ⟨fun _ => none, fun _ => none, fun _ => none, fun _ => none⟩

/-- The user value of a symbol is the given one. -/
def has (x : Text) : UserValue → Bool
  | .tri v => u.tri x = some v
  | .str s => u.str x = some s

/-- Set the user value of a symbol. -/
def set (x : Text) : UserValue → User
  | .tri v => { u with tri := Function.update u.tri x (some v) }
  | .str s => { u with str := Function.update u.str x (some s) }

/-- Make a symbol the user selection of a choice. -/
def select (k : ℕ) (x : Text) : User := { u with selected := Function.update u.selected k (some x) }

/-- Remove the user value of a symbol. -/
def unset (x : Text) : User :=
  { u with tri := Function.update u.tri x none, str := Function.update u.str x none }

/-- Remove the mode and the selection of a choice. -/
def unsetChoice (k : ℕ) : User :=
  { u with mode := Function.update u.mode k none, selected := Function.update u.selected k none }

end User

/-- The user values, with the marks (`_was_set`) of what has been set. -/
structure Settings where
  user : User
  wasSet : Text → Bool
  choiceWasSet : ℕ → Bool

namespace Settings

/-- A fresh configuration. -/
def start : Settings := ⟨.empty, fun _ => false, fun _ => false⟩

/-- Mark a symbol. -/
def mark (g : Settings) (x : Text) : Settings := { g with wasSet := Function.update g.wasSet x true }

/-- Mark a choice. -/
def markChoice (g : Settings) (k : ℕ) : Settings :=
  { g with choiceWasSet := Function.update g.choiceWasSet k true }

end Settings

/-- What an assignment does: whether the value is accepted, the new settings, and the item that has
to be invalidated. -/
structure Assigned where
  accepted : Bool
  settings : Settings
  stale : Option Item

namespace Config

variable (K : Config)

/-- `_rec_invalidate_if_has_prompt`: user values have no effect on symbols without a prompt. -/
def staleIfPrompt (x : Text) (s : Symbol) : Option Item :=
  if s.prompts = [] then none else some (.sym x)

/-- `set_value` of a symbol. -/
def setValue (x : Text) (value : UserValue) (g : Settings) : Assigned :=
  match K.sym x with
  | none => ⟨false, g, none⟩
  | some s =>
    let value := value.ofType s.origType
    if g.user.has x value ∧ s.choice = none then ⟨true, g.mark x, none⟩
    else if value.valid s.origType = false then ⟨false, g, none⟩
    else
      let g := { g.mark x with user := g.user.set x value }
      match s.choice, value with
      | some k, .tri .y =>
        ⟨true, { g.markChoice k with user := g.user.select k x }, some (.choice k)⟩
      | _, _ => ⟨true, g, staleIfPrompt x s⟩

/-- `unset_value` of a symbol. -/
def unsetValue (x : Text) (g : Settings) : Assigned :=
  match K.sym x with
  | none => ⟨false, g, none⟩
  | some s =>
    if g.user.tri x = none ∧ g.user.str x = none then ⟨false, g, none⟩
    else ⟨true, { g with user := g.user.unset x }, staleIfPrompt x s⟩

/-- `set_value` of a choice. -/
def setMode (k : ℕ) (value : UserValue) (g : Settings) : Assigned :=
  match K.choices[k]?, value.ofType .tristate with
  | some c, .tri v =>
    if g.user.mode k = some v then ⟨true, g.markChoice k, none⟩
    else if UserValue.valid c.origType (.tri v) = false then ⟨false, g, none⟩
    else ⟨true, { g.markChoice k with
      user := { g.user with mode := Function.update g.user.mode k (some v) } }, some (.choice k)⟩
  | _, _ => ⟨false, g, none⟩

/-- `unset_value` of a choice. -/
def unsetMode (k : ℕ) (g : Settings) : Assigned :=
  match K.choices[k]? with
  | none => ⟨false, g, none⟩
  | some _ =>
    if g.user.mode k = none ∧ g.user.selected k = none then ⟨false, g, none⟩
    else ⟨true, { g with user := g.user.unsetChoice k }, some (.choice k)⟩

end Config

end Kconfig
