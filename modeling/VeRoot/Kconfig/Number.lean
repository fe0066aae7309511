import VeRoot.Unix.Path

/-!
# Numbers in configuration values

`int(s, base)` for the bases 10, 16 and 0, on ASCII text: white space around the number, a sign,
a base prefix and single underscores between digits are all accepted.

## Main definitions

* `int` — Python's `int(s, base)`; `none` where it raises `ValueError`.
* `isBaseN` — `_is_base_n`.
* `strOf`, `hexOf` — `str(n)` and `hex(n)`.
-/

namespace Kconfig

open Unix

/-- C's `isspace`. -/
def isSpace (c : Char) : Bool :=
  c == ' ' || c == '\t' || c == '\n' || c == '\x0b' || c == '\x0c' || c == '\r'

/-- The value of a digit or a letter. -/
def digitValue (c : Char) : ℕ :=
  if '0' ≤ c ∧ c ≤ '9' then c.toNat - 48
  else if 'a' ≤ c ∧ c ≤ 'z' then c.toNat - 87
  else if 'A' ≤ c ∧ c ≤ 'Z' then c.toNat - 55
  else 37

/-- Digits below the base, with single underscores between them.  `after` tells that a digit
stands in front. -/
def digits (base : ℕ) : Bool → ℕ → Text → Option ℕ
  | after, v, [] => if after then some v else none
  | after, v, c :: t =>
    if c = '_' then if after then digits base false v t else none
    else if digitValue c < base then digits base true (v * base + digitValue c) t
    else none

/-- What stands behind `0x`, `0o` or `0b`: one underscore may come first. -/
def prefixed (base : ℕ) (t : Text) : Option ℕ :=
  match t with
  | '_' :: t => digits base false 0 t
  | t => digits base false 0 t

/-- The digits of a number, with the prefix that base 16 allows and base 0 goes by. -/
def magnitude (base : ℕ) (t : Text) : Option ℕ :=
  match base, t with
  | 16, '0' :: 'x' :: t | 16, '0' :: 'X' :: t | 0, '0' :: 'x' :: t | 0, '0' :: 'X' :: t =>
    prefixed 16 t
  | 0, '0' :: 'o' :: t | 0, '0' :: 'O' :: t => prefixed 8 t
  | 0, '0' :: 'b' :: t | 0, '0' :: 'B' :: t => prefixed 2 t
  -- without a prefix, base 0 refuses a leading zero unless the number is zero
  | 0, '0' :: t => (digits 10 false 0 ('0' :: t)).filter (· = 0)
  | 0, t => digits 10 false 0 t
  | base, t => digits base false 0 t

/-- White space at the end is dropped. -/
def rstripSpace (t : Text) : Text := (t.reverse.dropWhile isSpace).reverse

/-- `int(s, base)`, for ASCII text: Python takes the digits and the white space of other scripts as
well. -/
def int (base : ℕ) (s : Text) : Option ℤ :=
  match rstripSpace (s.dropWhile isSpace) with
  | '-' :: t => (magnitude base t).map fun n : ℕ => -(n : ℤ)
  | '+' :: t => (magnitude base t).map fun n : ℕ => (n : ℤ)
  | t => (magnitude base t).map fun n : ℕ => (n : ℤ)

/-- `_is_base_n` -/
def isBaseN (s : Text) (base : ℕ) : Bool := (int base s).isSome

/-- A sign in front of what is written for the magnitude. -/
def signed (write : ℕ → Text) (z : ℤ) : Text :=
  if z < 0 then '-' :: write z.natAbs else write z.natAbs

/-- `str(n)` -/
def strOf (z : ℤ) : Text := signed (Nat.toDigits 10) z

/-- `hex(n)` -/
def hexOf (z : ℤ) : Text := signed (fun n => '0' :: 'x' :: Nat.toDigits 16 n) z

end Kconfig
