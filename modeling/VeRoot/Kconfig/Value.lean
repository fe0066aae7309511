import VeRoot.Demand.Query
import VeRoot.Kconfig.Expr
import VeRoot.Kconfig.Number

/-!
# The values of symbols and choices

A configuration is what is left of the Kconfig files once the menu tree is finalized: symbols and
choices with their properties, into which the dependencies have been propagated.  A value is
calculated when it is first read, and reads the values it depends on; so the calculation is a rule
that asks for cells.  A cell is one of the cached attributes of a symbol or a choice.

Warnings are not modelled, and neither are the reads that only a warning makes.

## Main definitions

* `Symbol`, `Choice`, `Config` — the configuration.
* `User` — what the user has set.
* `Cell`, `Val` — the cached attributes and what they hold.
* `exprValue` — `expr_value`.
* `rule` — how the attributes are calculated.
-/

namespace Kconfig

open Unix Demand

/-- A defined symbol.  Prompts are represented by their conditions. -/
structure Symbol where
  origType : SymType
  prompts : List Expr
  defaults : List (Expr × Expr)
  ranges : List (Atom × Atom × Expr)
  revDep : Expr
  weakRevDep : Expr
  directDep : Expr
  choice : Option ℕ
  envVar : Option Text

/-- A choice.  A default is a symbol with a condition. -/
structure Choice where
  origType : SymType
  prompts : List Expr
  syms : List Text
  defaults : List (Atom × Expr)
  isOptional : Bool

/-- A configuration: `unique_defined_syms` and `unique_choices`. -/
structure Config where
  symbols : List (Text × Symbol)
  choices : List Choice
  defconfigList : Option Text

/-- The user values of symbols and choices.  A bool or tristate symbol has a tristate value and
any other symbol a text; a choice has a mode (`user_value`) and a `user_selection`. -/
structure User where
  tri : Text → Option Tri
  str : Text → Option Text
  mode : ℕ → Option Tri
  selected : ℕ → Option Text

/-- The attributes that are cached.  The value of a symbol comes with `_write_to_conf`, which is
determined along with it. -/
inductive Cell
  | vis (i : Item)
  | tri (x : Text)
  | str (x : Text)
  | assignable (i : Item)
  | selection (k : ℕ)
  deriving DecidableEq

/-- What a cell holds. -/
abbrev Val : Cell → Type
  | .vis _ => Tri
  | .tri _ => Tri × Bool
  | .str _ => Text × Bool
  | .assignable _ => List Tri
  | .selection _ => Option Text

/-- Ask for a visibility. -/
def getVis (i : Item) : Query Val Tri := .ask (.vis i) .done

/-- Ask for a tristate value. -/
def getTri (x : Text) : Query Val (Tri × Bool) := .ask (.tri x) .done

/-- Ask for a text value. -/
def getStr (x : Text) : Query Val (Text × Bool) := .ask (.str x) .done

/-- Ask for the selection of a choice. -/
def getSelection (k : ℕ) : Query Val (Option Text) := .ask (.selection k) .done

/-- Whether a relation holds of a comparison. -/
def Relation.holds (r : Relation) (comp : ℤ) : Bool :=
  match r with
  | equal => comp = 0
  | unequal => comp ≠ 0
  | less => comp < 0
  | lessEqual => comp ≤ 0
  | greater => comp > 0
  | greaterEqual => comp ≥ 0

namespace Config

variable (K : Config) (u : User)

/-- The symbol of a name, if it is defined. -/
def sym (x : Text) : Option Symbol := K.symbols.lookup x

/-- The name of the symbol that enables modules. -/
def modules : Text := "MODULES".toList

/-- The type of a symbol in an expression.  Constants other than `n`, `m` and `y` have none, and
neither have names that are not defined. -/
def atomType : Atom → SymType
  | .const c => if (strToTri c).isSome then .tristate else .unknown
  | .sym x => (K.sym x).elim .unknown Symbol.origType

/-- `tri_value` of a symbol in an expression. -/
def triValue : Atom → Query Val Tri
  | .const c => pure ((strToTri c).getD .n)
  | .sym x => if (K.sym x).isSome then do return (← getTri x).1 else pure .n

/-- `str_value` of a symbol in an expression.  Constants and undefined symbols get their name. -/
def strValue : Atom → Query Val Text
  | .const c => pure c
  | .sym x => if (K.sym x).isSome then do return (← getStr x).1 else pure x

/-- `type` of a choice. -/
def choiceType (c : Choice) : Query Val SymType :=
  if c.origType = .tristate then do
    return if (← K.triValue (.sym modules)) = .n then .bool else .tristate
  else pure c.origType

/-- The mode that the user has set for a choice, or the lowest one that it allows. -/
def wantedMode (c : Choice) (k : ℕ) : Tri :=
  max (if c.isOptional then .n else .m) ((u.mode k).getD .n)

/-- `tri_value` of a choice, its mode; it is not cached. -/
def choiceTri (k : ℕ) : Query Val Tri :=
  match K.choices[k]? with
  | none => pure .n
  | some c => do
    let val := min (wantedMode u c k) (← getVis (.choice k))
    if val = .m then do
      return if (← K.choiceType c) = .bool then .y else .m
    else return val

/-- Whether the choice of a symbol is in y mode. -/
def inYMode (s : Symbol) : Query Val Bool :=
  match s.choice with
  | none => pure false
  | some k => do return decide ((← K.choiceTri u k) = .y)

/-- `type` of a symbol. -/
def symType (s : Symbol) : Query Val SymType :=
  if s.origType = .tristate then do
    if (← K.inYMode u s) then return .bool
    else return if (← K.triValue (.sym modules)) = .n then .bool else .tristate
  else pure s.origType

/-! ### Expressions -/

/-- `_strcmp` -/
def strcmp (s t : Text) : ℤ := if t < s then 1 else if s < t then -1 else 0

/-- `_TYPE_TO_BASE` -/
def typeToBase : SymType → ℕ
  | .hex => 16
  | .int => 10
  | _ => 0

/-- `_sym_to_num`; `none` for the `ValueError`. -/
def symToNum (a : Atom) : Query Val (Option ℤ) := do
  if (K.atomType a).isBoolTristate then return some (← K.triValue a).toNat
  else return int (typeToBase (K.atomType a)) (← K.strValue a)

/-- The lexicographic comparison of two symbols. -/
def compareText (a b : Atom) : Query Val ℤ := do
  return strcmp (← K.strValue a) (← K.strValue b)

/-- The comparison that a relation looks at: by numbers, unless both sides are strings or one of
them is not a number. -/
def compare (a b : Atom) : Query Val ℤ := do
  if K.atomType a = .string ∧ K.atomType b = .string then K.compareText a b
  else
    match ← K.symToNum a with
    | none => K.compareText a b
    | some v =>
      match ← K.symToNum b with
      | none => K.compareText a b
      | some w => return v - w

/-- `expr_value` -/
def exprValue : Expr → Query Val Tri
  | .atom a => K.triValue a
  | .choice k => K.choiceTri u k
  | .and a b => do
    let v ← exprValue a
    if v = .n then return .n else return min v (← exprValue b)
  | .or a b => do
    let v ← exprValue a
    if v = .y then return .y else return max v (← exprValue b)
  | .not a => do return (← exprValue a).not
  | .rel r a b => do return if r.holds (← K.compare a b) then .y else .n

/-- The largest of the values. -/
def maxValue : List Expr → Query Val Tri
  | [] => pure .n
  | e :: es => do return max (← K.exprValue u e) (← maxValue es)

/-- The first property whose condition is not `n`, with the value of the condition. -/
def firstActive {α : Type} (cond : α → Expr) : List α → Query Val (Option (α × Tri))
  | [] => pure none
  | p :: ps => do
    let dep ← K.exprValue u (cond p)
    if dep = .n then firstActive cond ps else return some (p, dep)

/-! ### Visibility -/

/-- Whether the mode of its choice hides a symbol of visibility `vis`. -/
def hides (s : Symbol) (vis : Tri) : Query Val Bool :=
  match s.choice with
  | none => pure false
  | some k =>
    if (K.choices[k]?).elim false (·.origType = .tristate) ∧ s.origType ≠ .tristate then do
      -- a non-tristate choice symbol is only visible in y mode
      return decide ((← K.choiceTri u k) ≠ .y)
    else if s.origType = .tristate ∧ vis = .m then do
      -- a choice symbol with m visibility is not visible in y mode
      return decide ((← K.choiceTri u k) = .y)
    else pure false

/-- `m` is promoted to `y` unless the type is tristate. -/
def promoteVis (vis : Tri) (type : Query Val SymType) : Query Val Tri :=
  if vis = .m then do return if (← type) ≠ .tristate then .y else .m
  else pure vis

/-- `_visibility` -/
def visibility : Item → Query Val Tri
  | .sym x =>
    match K.sym x with
    | none => pure .n
    | some s => do
      let vis ← K.maxValue u s.prompts
      if (← K.hides u s vis) then return .n else promoteVis vis (K.symType u s)
  | .choice k =>
    match K.choices[k]? with
    | none => pure .n
    | some c => do promoteVis (← K.maxValue u c.prompts) (K.choiceType c)

/-! ### Bool and tristate values -/

/-- The value of the first active default. -/
def triDefault (s : Symbol) : Query Val Tri := do
  match ← K.firstActive u Prod.snd s.defaults with
  | none => return .n
  | some (p, dep) => return min (← K.exprValue u p.1) dep

/-- The value by defaults and implies.  Implies count if the direct dependencies are met. -/
def triImplied (s : Symbol) (vis : Tri) : Query Val (Tri × Bool) := do
  let val ← K.triDefault u s
  let write := decide (vis ≠ .n) || decide (val ≠ .n)
  let dep ← K.exprValue u s.weakRevDep
  if dep ≠ .n then do
    return if (← K.exprValue u s.directDep) ≠ .n then (max dep val, true) else (val, write)
  else return (val, write)

/-- The value from the user or by default, for a symbol that is not in a choice. -/
def triBase (x : Text) (s : Symbol) (vis : Tri) : Query Val (Tri × Bool) :=
  match u.tri x with
  | some v => if vis ≠ .n then pure (min v vis, true) else K.triImplied u s vis
  | none => K.triImplied u s vis

/-- Whether `m` is promoted to `y`. -/
def promotes (s : Symbol) : Query Val Bool := do
  if (← K.symType u s) = .bool then return true
  else return decide ((← K.exprValue u s.weakRevDep) = .y)

/-- Selects are a lower bound. -/
def raise (v : Tri × Bool) (dep : Tri) : Tri × Bool := if dep ≠ .n then (max dep v.1, true) else v

/-- The value of a symbol that is not in a choice. -/
def triFree (x : Text) (s : Symbol) (vis : Tri) : Query Val (Tri × Bool) := do
  let v ← K.triBase u x s vis
  let v := raise v (← K.exprValue u s.revDep)
  if v.1 = .m then do return if (← K.promotes u s) then (.y, v.2) else v
  else return v

/-- The value of a choice symbol. -/
def triChoice (x : Text) (k : ℕ) (vis : Tri) : Query Val (Tri × Bool) :=
  if vis = .y then do return (if (← getSelection k) = some x then .y else .n, true)
  else if vis ≠ .n ∧ (u.tri x).getD .n ≠ .n then pure (.m, true)
  else pure (.n, decide (vis ≠ .n))

/-- `tri_value` of a defined symbol. -/
def triRule (x : Text) (s : Symbol) : Query Val (Tri × Bool) :=
  if s.origType.isBoolTristate then do
    let vis ← getVis (.sym x)
    match s.choice with
    | none => K.triFree u x s vis
    | some k => triChoice u x k vis
  else pure (.n, false)

/-! ### Text values -/

/-- The number a value stands for; the text may be empty or malformed. -/
def toNum (base : ℕ) (t : Text) : ℤ := (int base t).getD 0

/-- The value of the first active default.  `_check_sym_sanity` refuses a default that is not a
symbol. -/
def strDefault (s : Symbol) : Query Val (Option Text) := do
  match ← K.firstActive u Prod.snd s.defaults with
  | none => return none
  | some ((.atom a, _), _) => return some (← K.strValue a)
  | some _ => return some []

/-- The bounds of the first active range. -/
def activeRange (s : Symbol) : Query Val (Option (ℤ × ℤ)) := do
  match ← K.firstActive u (·.2.2) s.ranges with
  | none => return none
  | some ((low, high, _), _) =>
    return some (toNum (typeToBase s.origType) (← K.strValue low),
      toNum (typeToBase s.origType) (← K.strValue high))

/-- The bound that a number is moved to. -/
def clamp (range : Option (ℤ × ℤ)) (v : ℤ) : Option ℤ :=
  range.bind fun r => if v < r.1 then some r.1 else if v > r.2 then some r.2 else none

/-- How a number is written when it is clamped. -/
def writeNum (t : SymType) (v : ℤ) : Text := if t = .int then strOf v else hexOf v

/-- The value of an int or hex symbol by default, moved into the active range. -/
def numDefault (s : Symbol) (range : Option (ℤ × ℤ)) (vis : Tri) : Query Val (Text × Bool) := do
  let d ← K.strDefault u s
  let val := d.getD []
  return ((clamp range (toNum (typeToBase s.origType) val)).elim val (writeNum s.origType),
    decide (vis ≠ .n) || d.isSome)

/-- The value of an int or hex symbol.  A user value outside the active range is ignored. -/
def numRule (x : Text) (s : Symbol) (vis : Tri) : Query Val (Text × Bool) := do
  let range ← K.activeRange u s
  match u.str x with
  | some t =>
    if vis ≠ .n ∧ t ≠ [] ∧ clamp range (toNum (typeToBase s.origType) t) = none then
      return (t, true)
    else K.numDefault u s range vis
  | none => K.numDefault u s range vis

/-- The value of a string symbol by default. -/
def textDefault (s : Symbol) (vis : Tri) : Query Val (Text × Bool) := do
  let d ← K.strDefault u s
  return (d.getD [], decide (vis ≠ .n) || d.isSome)

/-- The value of a string symbol. -/
def textRule (x : Text) (s : Symbol) (vis : Tri) : Query Val (Text × Bool) :=
  match u.str x with
  | some t => if vis ≠ .n then pure (t, true) else K.textDefault u s vis
  | none => K.textDefault u s vis

/-- The value of a string, int or hex symbol. -/
def textOrNum (x : Text) (s : Symbol) (vis : Tri) : Query Val (Text × Bool) :=
  if s.origType = .string then K.textRule u x s vis else K.numRule u x s vis

/-- `str_value` of a defined symbol. -/
def strRule (x : Text) (s : Symbol) : Query Val (Text × Bool) :=
  if s.origType.isBoolTristate then do
    let v ← getTri x
    return (triToStr v.1, v.2)
  else if s.origType = .unknown then pure (x, false)
  else do
    let v ← K.textOrNum u x s (← getVis (.sym x))
    -- `option env` and `option defconfig_list`
    return (v.1, v.2 && s.envVar.isNone && decide (K.defconfigList ≠ some x))

/-! ### Assignable values and selections -/

/-- `_assignable` of a defined symbol that is bool or tristate. -/
def symAssignable (s : Symbol) (vis : Tri) : Query Val (List Tri) :=
  if vis = .n then pure []
  else do
    match vis, ← K.exprValue u s.revDep with
    | .y, rev =>
      if s.choice.isSome then return [.y]
      else match rev with
        | .n => return if (← K.promotes u s) then [.n, .y] else [.n, .m, .y]
        | .y => return [.y]
        | .m => return if (← K.promotes u s) then [.y] else [.m, .y]
    | _, .n => return if (← K.exprValue u s.weakRevDep) ≠ .y then [.n, .m] else [.n, .y]
    | _, .y => return [.y]
    | _, .m => return [.m]

/-- `_assignable` of a choice. -/
def choiceAssignable (c : Choice) (vis : Tri) : Query Val (List Tri) :=
  match vis with
  | .n => pure []
  | .y => do
    let bool := (← K.choiceType c) = .bool
    if c.isOptional then return if bool then [.n, .y] else [.n, .m, .y]
    else return if bool then [.y] else [.m, .y]
  | .m => pure (if c.isOptional then [.n, .m] else [.m])

/-- `assignable` -/
def assignableRule : Item → Query Val (List Tri)
  | .sym x =>
    match K.sym x with
    | none => pure []
    | some s =>
      if s.origType.isBoolTristate then do
        K.symAssignable u s (← getVis (.sym x))
      else pure []
  | .choice k =>
    match K.choices[k]? with
    | none => pure []
    | some c => do K.choiceAssignable c (← getVis (.choice k))

/-- `visibility` of a symbol in the defaults of a choice. -/
def atomVis : Atom → Query Val Tri
  | .const _ => pure .n
  | .sym x => if (K.sym x).isSome then getVis (.sym x) else pure .n

/-- The first default whose condition is not `n` and whose symbol is visible. -/
def firstDefault : List (Atom × Expr) → Query Val (Option Text)
  | [] => pure none
  | (a, cond) :: ds => do
    if (← K.exprValue u cond) = .n then firstDefault ds
    else if (← K.atomVis a) = .n then firstDefault ds
    else return some a.name

/-- The first visible symbol. -/
def firstVisible : List Text → Query Val (Option Text)
  | [] => pure none
  | x :: xs => do if (← K.atomVis (.sym x)) = .n then firstVisible xs else return some x

/-- `_selection_from_defaults` -/
def selectionFromDefaults (c : Choice) : Query Val (Option Text) := do
  match ← K.firstDefault u c.defaults with
  | some x => return some x
  | none => K.firstVisible c.syms

/-- `_selection` -/
def selectionRule (k : ℕ) : Query Val (Option Text) :=
  match K.choices[k]? with
  | none => pure none
  | some c => do
    if (← K.choiceTri u k) ≠ .y then return none
    else match u.selected k with
      | none => K.selectionFromDefaults u c
      | some x => if (← K.atomVis (.sym x)) ≠ .n then return some x else K.selectionFromDefaults u c

/-- How the attributes are calculated. -/
def rule : (c : Cell) → Query Val (Val c)
  | .vis i => K.visibility u i
  | .tri x => (K.sym x).elim (pure (.n, false)) (K.triRule u x)
  | .str x => (K.sym x).elim (pure (x, false)) (K.strRule u x)
  | .assignable i => K.assignableRule u i
  | .selection k => K.selectionRule u k

end Config

end Kconfig
