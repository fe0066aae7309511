import VeRoot.Unix.Path

/-!
# Kconfig expressions

The tristate values with their order, the types of symbols and the expression trees that the
Kconfig parser builds.  A quoted name and the names `n`, `m` and `y` are constants.

## Main definitions

* `Tri`, `SymType`, `Relation` — the enumerations.
* `Atom`, `Expr` — expressions over symbols, constants and choices.
* `Item`, `Expr.items` — what an expression refers to.
-/

namespace Kconfig

open Unix

/-- The tristate values. -/
inductive Tri
  | n | m | y
  deriving DecidableEq, Repr

namespace Tri

/-- The value as the number 0, 1 or 2. -/
def toNat : Tri → ℕ
  | n => 0
  | m => 1
  | y => 2

theorem toNat_injective : Function.Injective toNat := by
  intro a b h
  cases a <;> cases b <;> first | rfl | cases h

/-- The order of the numbers. -/
instance : LinearOrder Tri := LinearOrder.lift' toNat toNat_injective

/-- `2 - v` -/
def not : Tri → Tri
  | n => y
  | m => m
  | y => n

theorem n_le (a : Tri) : n ≤ a := by cases a <;> decide

theorem le_y (a : Tri) : a ≤ y := by cases a <;> decide

@[simp] theorem max_n (a : Tri) : max a n = a := max_eq_left (n_le a)

@[simp] theorem n_max (a : Tri) : max n a = a := max_eq_right (n_le a)

@[simp] theorem min_n (a : Tri) : min a n = n := min_eq_right (n_le a)

@[simp] theorem n_min (a : Tri) : min n a = n := min_eq_left (n_le a)

@[simp] theorem min_y (a : Tri) : min a y = a := min_eq_left (le_y a)

@[simp] theorem y_min (a : Tri) : min y a = a := min_eq_right (le_y a)

@[simp] theorem max_y (a : Tri) : max a y = y := max_eq_right (le_y a)

@[simp] theorem y_max (a : Tri) : max y a = y := max_eq_left (le_y a)

end Tri

/-- `TRI_TO_STR` -/
def triToStr : Tri → Text
  | .n => ['n']
  | .m => ['m']
  | .y => ['y']

/-- `STR_TO_TRI` -/
def strToTri (t : Text) : Option Tri :=
  if t = ['n'] then some .n else if t = ['m'] then some .m else if t = ['y'] then some .y else none

@[simp] theorem strToTri_triToStr (v : Tri) : strToTri (triToStr v) = some v := by
  cases v <;> rfl

/-- The types of symbols and choices. -/
inductive SymType
  | unknown | bool | tristate | string | int | hex
  deriving DecidableEq, Repr

/-- `_BOOL_TRISTATE` -/
def SymType.isBoolTristate : SymType → Bool
  | bool | tristate => true
  | _ => false

/-- The relations between two symbols. -/
inductive Relation
  | equal | unequal | less | lessEqual | greater | greaterEqual
  deriving DecidableEq, Repr

/-- A symbol in an expression: a constant (`is_constant`) or a name that may be defined. -/
inductive Atom
  | const (name : Text)
  | sym (name : Text)
  deriving DecidableEq

/-- An expression.  A choice stands in the dependencies of what the choice contains. -/
inductive Expr
  | atom (a : Atom)
  | choice (k : ℕ)
  | and (a b : Expr)
  | or (a b : Expr)
  | not (a : Expr)
  | rel (r : Relation) (a b : Atom)
  deriving DecidableEq

/-- The constant symbols `n`, `m` and `y`. -/
def Expr.tri (v : Tri) : Expr := .atom (.const (triToStr v))

/-- A symbol by its name, or a choice. -/
inductive Item
  | sym (name : Text)
  | choice (k : ℕ)
  deriving DecidableEq

/-- `name` -/
def Atom.name : Atom → Text
  | const c => c
  | sym x => x

/-- Constants never change their value and are skipped. -/
def Atom.items : Atom → List Item
  | const _ => []
  | sym x => [.sym x]

/-- The symbols and choices that `_depend_on` finds in an expression. -/
def Expr.items : Expr → List Item
  | atom a => a.items
  | choice k => [.choice k]
  | and a b | or a b => a.items ++ b.items
  | not a => a.items
  | rel _ a b => a.items ++ b.items

end Kconfig
