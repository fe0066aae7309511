import VeRoot.Unix.Path

/-!
# Line editors

The lines of a file, `grep -n`, `sed` programs that are put together from line numbers, and
the substitution of a part of a line.  A sed program with an address and no command is
refused, and then `sed -i` leaves the file as it is.

## Main definitions

* `records`, `lines` — the lines of a text.
* `occurs` — a pattern whose only special character is the dot.
* `grepN` — `grep -n`, cut down to the numbers.
* `substitute` — `s/re/new/`, on one line.
* `SedLine`, `splice`, `sedI` — `sed -i "${n}s/re/new/"`, where `n` holds numbers.
* `sedI_splice_of_one`, `sedI_splice_of_many` — what becomes of the file.
-/

namespace Unix

/-- The lines of a text that end in a newline, and what stands behind the last newline. -/
def records : Text → List Text × Text
  | [] => ([], [])
  | c :: t =>
    if c = '\n' then ([] :: (records t).1, (records t).2)
    else
      match records t with
      | ([], r) => ([], c :: r)
      | (l :: ls, r) => ((c :: l) :: ls, r)

/-- The lines of a text; the last one may lack its newline. -/
def lines (t : Text) : List Text :=
  (records t).1 ++ if (records t).2 = [] then [] else [(records t).2]

/-- A space or a tab. -/
def isBlank (c : Char) : Bool := c == ' ' || c == '\t'

/-! ## Patterns -/

/-- The line begins with the pattern. -/
def prefixMatch : Text → Text → Bool
  | [], _ => true
  | _ :: _, [] => false
  | a :: p, b :: t => (a == '.' || a == b) && prefixMatch p t

/-- The pattern matches somewhere in the line. -/
def occurs (p : Text) : Text → Bool
  | [] => prefixMatch p []
  | c :: t => prefixMatch p (c :: t) || occurs p t

/-- The numbers of the lines that match, counted from `k`. -/
def grepFrom (hit : Text → Bool) (k : ℕ) : List Text → List ℕ
  | [] => []
  | l :: ls => if hit l then k :: grepFrom hit (k + 1) ls else grepFrom hit (k + 1) ls

/-- `grep -n re | cut -d: -f1` -/
def grepN (hit : Text → Bool) (ls : List Text) : List ℕ := grepFrom hit 1 ls

/-! ## Programs -/

/-- `s/re/new/` on one line.  `m` takes a match from the head of a text. -/
def substitute (m : Text → Option Text) (new : Text) : Text → Text
  | [] => []
  | c :: t =>
    match m (c :: t) with
    | some r => new ++ r
    | none => c :: substitute m new t

/-- One line of a sed program: an address and a command, either of which may be missing. -/
structure SedLine where
  address : Option ℕ
  command : Option (Text → Text)

/-- The program `${n}s/…/`: the numbers stand on lines of their own, and the command follows
the last one. -/
def splice (f : Text → Text) : List ℕ → List SedLine
  | [] => [⟨none, some f⟩]
  | [n] => [⟨some n, some f⟩]
  | n :: m :: ns => ⟨some n, none⟩ :: splice f (m :: ns)

/-- A line of the program, on line `k` of the file. -/
def SedLine.apply (k : ℕ) (l : Text) (c : SedLine) : Text :=
  if c.address = none ∨ c.address = some k then c.command.getD id l else l

/-- The program on every line of the file, counted from `k`. -/
def sedFrom (program : List SedLine) (k : ℕ) : List Text → List Text
  | [] => []
  | l :: ls => program.foldl (SedLine.apply k) l :: sedFrom program (k + 1) ls

/-- `sed -i` -/
def sedI (program : List SedLine) (ls : List Text) : List Text :=
  if program.all fun c => c.command.isSome then sedFrom program 1 ls else ls

section Lines

variable {p t s : Text} {ls : List Text} {k n : ℕ} {f : Text → Text} {hit : Text → Bool}
  {m : Text → Option Text} {new r : Text}

/-- A pattern matches itself. -/
theorem prefixMatch_self (p t : Text) : prefixMatch p (p ++ t) = true := by
  induction p with
  | nil => simp [prefixMatch]
  | cons a p ih => simp [prefixMatch, ih]

/-- A pattern without dots matches itself only. -/
theorem prefixMatch_iff {p t : Text} (h : '.' ∉ p) : prefixMatch p t = true ↔ p <+: t := by
  induction p generalizing t with
  | nil => simp [prefixMatch]
  | cons a p ih =>
    rw [List.mem_cons, not_or] at h
    cases t with
    | nil => simp [prefixMatch]
    | cons b t =>
      have ha : (a == '.') = false := beq_eq_false_iff_ne.mpr (Ne.symm h.1)
      rw [prefixMatch, ha, Bool.false_or, Bool.and_eq_true, ih h.2, beq_iff_eq,
        List.cons_prefix_cons]

theorem occurs_iff {p t : Text} (h : '.' ∉ p) : occurs p t = true ↔ p <:+: t := by
  induction t with
  | nil => rw [occurs, prefixMatch_iff h, List.prefix_nil, List.infix_nil]
  | cons c t ih =>
    rw [occurs, Bool.or_eq_true, prefixMatch_iff h, ih, List.infix_cons_iff]

theorem occurs_self (p t : Text) : occurs p (p ++ t) = true := by
  have h := prefixMatch_self p t
  cases hpt : p ++ t with
  | nil => rwa [occurs, ← hpt]
  | cons c u =>
    rw [occurs, ← hpt, h]
    rfl

@[simp] theorem length_grepFrom : (grepFrom hit k ls).length = ls.countP hit := by
  induction ls generalizing k with
  | nil => rfl
  | cons l ls ih =>
    rw [grepFrom, List.countP_cons]
    split_ifs <;> simp [ih]

theorem le_of_mem_grepFrom (h : n ∈ grepFrom hit k ls) : k ≤ n := by
  induction ls generalizing k with
  | nil => simp [grepFrom] at h
  | cons l ls ih =>
    rw [grepFrom] at h
    split_ifs at h
    · rcases List.mem_cons.mp h with rfl | h
      · exact le_rfl
      · exact (Nat.le_succ k).trans (ih h)
    · exact (Nat.le_succ k).trans (ih h)

/-! ## Substitutions -/

theorem substitute_of_match (hm : m t = some r) (ht : t ≠ []) : substitute m new t = new ++ r := by
  cases t with
  | nil => exact absurd rfl ht
  | cons c t => simp [substitute, hm]

/-- What stands before the first match is kept. -/
theorem substitute_append (h : ∀ u b, p = u ++ b → b ≠ [] → m (b ++ s) = none) :
    substitute m new (p ++ s) = p ++ substitute m new s := by
  induction p with
  | nil => rfl
  | cons c p ih =>
    have hc : m (c :: (p ++ s)) = none := h [] (c :: p) rfl (by simp)
    rw [List.cons_append, substitute, hc, List.cons_append]
    exact congrArg _ (ih fun u b hb => h (c :: u) b (by rw [hb]; rfl))

/-! ## Programs that are put together -/

/-- A number that is behind changes nothing. -/
theorem sedFrom_of_lt (h : n < k) : sedFrom [⟨some n, some f⟩] k ls = ls := by
  induction ls generalizing k with
  | nil => rfl
  | cons l ls ih =>
    have ne : n ≠ k := h.ne
    simp [sedFrom, SedLine.apply, ne, ih (h.trans (Nat.lt_succ_self k))]

theorem sedFrom_of_grepFrom (h : grepFrom hit k ls = [n]) :
    sedFrom [⟨some n, some f⟩] k ls = ls.map fun l => if hit l then f l else l := by
  induction ls generalizing k with
  | nil => simp [grepFrom] at h
  | cons l ls ih =>
    rw [grepFrom] at h
    rw [sedFrom, List.map_cons]
    split_ifs at h with hl
    · -- this is the line, and no other one matches
      obtain ⟨rfl, rest⟩ := List.cons.inj h
      have none : ∀ x ∈ ls, ¬ hit x = true := by
        have := @length_grepFrom ls (k + 1) hit
        rw [rest] at this
        exact List.countP_eq_zero.mp this.symm
      rw [sedFrom_of_lt (Nat.lt_succ_self k)]
      have same : (ls.map fun l => if hit l then f l else l) = ls := by
        conv_rhs => rw [← List.map_id ls]
        exact List.map_congr_left fun x hx => by simp [none x hx]
      simp [SedLine.apply, hl, same]
    · have lt : k < n := le_of_mem_grepFrom (by rw [h]; simp)
      simp [SedLine.apply, hl, lt.ne', ih h]

/-- **One number**: the line that matches is changed, and no other one. -/
theorem sedI_splice_of_one (h : ls.countP hit = 1) :
    sedI (splice f (grepN hit ls)) ls = ls.map fun l => if hit l then f l else l := by
  rw [← length_grepFrom (k := 1)] at h
  obtain ⟨n, hn⟩ := List.length_eq_one_iff.mp h
  rw [grepN, hn]
  exact sedFrom_of_grepFrom hn

/-- **More than one number**: the program is refused. -/
theorem sedI_splice_of_many (h : 1 < ls.countP hit) :
    sedI (splice f (grepN hit ls)) ls = ls := by
  rw [← length_grepFrom (k := 1)] at h
  match hg : grepFrom hit 1 ls, h with
  | n :: m :: ns, _ =>
    rw [grepN, hg]
    rfl

end Lines

end Unix
