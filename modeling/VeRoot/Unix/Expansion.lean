import VeRoot.Unix.Path
import Mathlib.Algebra.GroupWithZero.Nat

/-!
# Unquoted expansions

A shell splits an expansion that is not quoted at spaces, tabs and newlines, and takes every
part for a pattern that stands for the files it matches.  `xargs` splits its input in the same
way, and calls `echo` once for as many words as fit on one command line.

## Main definitions

* `tokens` — the parts of a text between white space.
* `Torn` — a text that stays in several parts, wherever it is put.
* `Globbing`, `Globbing.expand` — the words an expansion gives.
* `lineSize`, `xargs` — the command lines of `xargs`.
* `xargs_cases` — what becomes of words that do not fit on one.
-/

namespace Unix

/-- White space. -/
def isSpace (c : Char) : Bool := c == ' ' || c == '\t' || c == '\n'

/-- The parts of a text between white space. -/
def tokens (t : Text) : List Text := (t.splitOnP isSpace).filter (· ≠ [])

/-- A text without white space in it. -/
def Solid (w : Text) : Prop := w ≠ [] ∧ ∀ c ∈ w, isSpace c = false

instance (w : Text) : Decidable (Solid w) := inferInstanceAs (Decidable (_ ∧ _))

/-- A text with white space in the middle of it. -/
def Torn (t : Text) : Prop :=
  ∃ a s c b, t = a ++ s :: c :: b ∧ isSpace s = true ∧ isSpace c = false

/-! ## Patterns -/

/-- A character that may stand for others. -/
def isGlob (c : Char) : Bool := c == '*' || c == '?' || c == '[' || c == '\\'

/-- What the shell makes of a pattern, with the files that are there.  A pattern that matches no
file stands for itself. -/
structure Globbing where
  files : Text → List Text
  ne_nil : ∀ w, files w ≠ []
  literal : ∀ w, (∀ c ∈ w, isGlob c = false) → files w = [w]
  prefix_of_mem : ∀ p w v, (∀ c ∈ p, isGlob c = false) → v ∈ files (p ++ w) → p <+: v

namespace Globbing

/-- There are no files. -/
def none : Globbing where
  files w := [w]
  ne_nil w := List.cons_ne_nil w []
  literal _ _ := rfl
  prefix_of_mem p w v _ h := by
    obtain rfl := List.mem_singleton.mp h
    exact List.prefix_append p w

/-- The words of an unquoted expansion. -/
def expand (g : Globbing) (t : Text) : List Text := (tokens t).flatMap g.files

end Globbing

/-! ## Command lines -/

/-- The length of the command line that prints `ws`, with the end of each word. -/
def lineSize (ws : List Text) : ℕ := "echo".length + 1 + (ws.map (·.length + 1)).sum

/-- `line` is the command line so far.  A word that does not even fit on a line of its own ends
`xargs`. -/
def fill (limit : ℕ) : List Text → List Text → List (List Text)
  | line, [] => [line]
  | line, w :: ws =>
    if lineSize (line ++ [w]) ≤ limit then fill limit (line ++ [w]) ws
    else if lineSize [w] ≤ limit then line :: fill limit [w] ws
    else []

/-- The words that each call of `echo` prints. -/
def xargs (limit : ℕ) (ws : List Text) : List (List Text) := fill limit [] ws

section Tokens

variable {a b t w : Text} {c x : Char} {ws : List Text} {g : Globbing}

@[simp] theorem tokens_nil : tokens [] = [] := rfl

/-- **White space separates.** -/
theorem tokens_append_cons (hc : isSpace c = true) (a b : Text) :
    tokens (a ++ c :: b) = tokens a ++ tokens b := by
  rw [tokens, List.splitOnP_append_cons _ _ hc, List.filter_append]
  rfl

theorem tokens_cons (hc : isSpace c = true) (b : Text) : tokens (c :: b) = tokens b :=
  tokens_append_cons hc [] b

theorem Solid.tokens (h : Solid w) : tokens w = [w] := by
  rw [Unix.tokens, List.splitOnP_eq_singleton h.2]
  simp [h.1]

/-- Words with white space between them are split into themselves. -/
theorem tokens_intercalate (hc : isSpace c = true) (h : ∀ w ∈ ws, Solid w) :
    tokens ([c].intercalate ws) = ws := by
  induction ws with
  | nil => rfl
  | cons w ws ih =>
    have hw : Solid w := h w (by simp)
    have hws : ∀ v ∈ ws, Solid v := fun v hv => h v (by simp [hv])
    cases ws with
    | nil => simpa using hw.tokens
    | cons v ws =>
      rw [List.intercalate_cons_cons, List.append_assoc, List.singleton_append,
        tokens_append_cons hc, hw.tokens, ih hws]
      rfl

/-- A joined text has the characters of its words, and of the separator. -/
theorem mem_intercalate {sep : Text} (h : c ∈ sep.intercalate ws) : c ∈ sep ∨ ∃ w ∈ ws, c ∈ w := by
  induction ws with
  | nil => simp at h
  | cons w ws ih =>
    cases ws with
    | nil => exact .inr ⟨w, by simp, by simpa using h⟩
    | cons v ws =>
      rw [List.intercalate_cons_cons, List.mem_append, List.mem_append] at h
      rcases h with (h | h) | h
      · exact .inr ⟨w, by simp, h⟩
      · exact .inl h
      · exact (ih h).imp_right fun ⟨u, hu, hc⟩ => ⟨u, List.mem_cons_of_mem w hu, hc⟩

/-- A part between separators has none in it. -/
theorem notMem_of_mem_splitOnP {p : Char → Bool} (h : w ∈ t.splitOnP p) : ∀ c ∈ w, p c = false := by
  induction t generalizing w with
  | nil =>
    obtain rfl := List.mem_singleton.mp h
    simp
  | cons x t ih =>
    rw [List.splitOnP_cons_eq_if_modifyHead] at h
    split_ifs at h with hx
    · rcases List.mem_cons.mp h with rfl | h
      · simp
      · exact ih h
    · obtain ⟨d, ds, hd⟩ := List.exists_cons_of_ne_nil (List.splitOnP_ne_nil p t)
      rw [hd] at ih h
      rcases List.mem_cons.mp h with rfl | h
      · simpa [hx] using ih (List.mem_cons_self ..)
      · exact ih (List.mem_cons_of_mem _ h)

theorem solid_of_mem_tokens (h : w ∈ tokens t) : Solid w := by
  obtain ⟨hw, ne⟩ := List.mem_filter.mp h
  exact ⟨by simpa using ne, notMem_of_mem_splitOnP hw⟩

/-- A text with something in it has a part. -/
theorem tokens_ne_nil (hc : c ∈ t) (h : isSpace c = false) : tokens t ≠ [] := by
  intro hnil
  induction t with
  | nil => simp at hc
  | cons x t ih =>
    by_cases hx : isSpace x = true
    · rw [tokens_cons hx] at hnil
      refine ih ((List.mem_cons.mp hc).resolve_left ?_) hnil
      rintro rfl
      exact Bool.noConfusion (h.symm.trans hx)
    · obtain ⟨d, ds, hd⟩ := List.exists_cons_of_ne_nil (List.splitOnP_ne_nil isSpace t)
      rw [tokens, List.splitOnP_cons_eq_if_modifyHead, if_neg hx, hd] at hnil
      simp at hnil

/-- **A torn text gives more than one word**, if something stands in front of it. -/
theorem Torn.two_le (h : Torn t) (hc : c ∈ a) (hs : isSpace c = false) (b : Text) :
    2 ≤ (tokens (a ++ t ++ b)).length := by
  obtain ⟨l, s, d, r, rfl, space, solid⟩ := h
  have e : a ++ (l ++ s :: d :: r) ++ b = (a ++ l) ++ s :: (d :: (r ++ b)) := by simp
  rw [e, tokens_append_cons space, List.length_append]
  have left := List.length_pos_iff.mpr
    (tokens_ne_nil (t := a ++ l) (List.mem_append_left l hc) hs)
  have right := List.length_pos_iff.mpr
    (tokens_ne_nil (t := d :: (r ++ b)) List.mem_cons_self solid)
  omega

theorem Torn.ne_nil (h : Torn t) : t ≠ [] := by
  rintro rfl
  obtain ⟨l, s, d, r, h, -⟩ := h
  simp at h

theorem Torn.append (h : Torn t) (b : Text) : Torn (t ++ b) := by
  obtain ⟨l, s, d, r, rfl, space, solid⟩ := h
  exact ⟨l, s, d, r ++ b, by simp, space, solid⟩

theorem Torn.prepend (h : Torn t) (a : Text) : Torn (a ++ t) := by
  obtain ⟨l, s, d, r, rfl, space, solid⟩ := h
  exact ⟨a ++ l, s, d, r, by simp, space, solid⟩

/-- Words without patterns are left alone. -/
theorem Globbing.expand_of_literal (h : ∀ w ∈ tokens t, ∀ c ∈ w, isGlob c = false) :
    g.expand t = tokens t := by
  rw [expand, List.flatMap_congr fun w hw => g.literal w (h w hw), List.flatMap_singleton']

@[simp] theorem Globbing.none_expand : none.expand t = tokens t := List.flatMap_singleton' _

theorem Globbing.expand_of_solid (h : Solid w) : g.expand w = g.files w := by
  simp [expand, h.tokens]

/-! ## Command lines -/

/-- Words that fit are on one line. -/
theorem fill_of_fits {limit : ℕ} {line : List Text} (h : lineSize (line ++ ws) ≤ limit) :
    fill limit line ws = [line ++ ws] := by
  induction ws generalizing line with
  | nil => simp [fill]
  | cons w ws ih =>
    have e : line ++ w :: ws = line ++ [w] ++ ws := by simp
    rw [e] at h ⊢
    have first : lineSize (line ++ [w]) ≤ limit := by
      simp only [lineSize, List.map_append, List.sum_append] at h ⊢
      omega
    rw [fill, if_pos first, ih h]

/-- If each word fits on a line of its own, all of them are printed. -/
theorem flatten_fill {limit : ℕ} {line : List Text} (h : ∀ w ∈ ws, lineSize [w] ≤ limit) :
    (fill limit line ws).flatten = line ++ ws := by
  fun_induction fill limit line ws with
  | case1 line => simp
  | case2 line w ws _ ih => simpa using ih fun v hv => h v (by simp [hv])
  | case3 line w ws _ _ ih => simpa using ih fun v hv => h v (by simp [hv])
  | case4 line w ws _ alone => exact absurd (h w (by simp)) alone

/-- No line but the first is empty. -/
theorem ne_nil_of_mem_fill {limit : ℕ} {line l : List Text} (hline : line ≠ [])
    (h : l ∈ fill limit line ws) : l ≠ [] := by
  fun_induction fill limit line ws with
  | case1 line =>
    obtain rfl := List.mem_singleton.mp h
    exact hline
  | case2 line w ws _ ih => exact ih (by simp) h
  | case3 line w ws _ _ ih =>
    rcases List.mem_cons.mp h with rfl | h
    · exact hline
    · exact ih (by simp) h
  | case4 line w ws => simp at h

/-- Words that are all on one line fit. -/
theorem fits_of_fill {limit : ℕ} {line : List Text} (h : fill limit line ws = [line ++ ws]) :
    ws = [] ∨ lineSize (line ++ ws) ≤ limit := by
  fun_induction fill limit line ws with
  | case1 line => exact .inl rfl
  | case2 line w ws fits ih =>
    have e : line ++ [w] ++ ws = line ++ w :: ws := by simp
    rw [e] at ih
    rcases ih h with rfl | h
    · exact .inr fits
    · exact .inr h
  | case3 line w ws => simp at h
  | case4 line w ws => simp at h

theorem mem_of_mem_xargs {limit : ℕ} {l : List Text} (h : ∀ w ∈ ws, lineSize [w] ≤ limit)
    (hl : l ∈ xargs limit ws) (hw : w ∈ l) : w ∈ ws := by
  have all : (xargs limit ws).flatten = ws := flatten_fill h
  exact all ▸ List.mem_flatten.mpr ⟨l, hl, hw⟩

/-- **Words that do not fit on one line** are printed on several. -/
theorem xargs_cases {limit : ℕ} (h : ∀ w ∈ ws, lineSize [w] ≤ limit) :
    xargs limit ws = [ws] ∧ (ws = [] ∨ lineSize ws ≤ limit) ∨
      ∃ l m ls, xargs limit ws = l :: m :: ls ∧ l ≠ [] ∧ m ≠ [] := by
  have all : (xargs limit ws).flatten = ws := flatten_fill h
  cases ws with
  | nil => exact .inl ⟨rfl, .inl rfl⟩
  | cons w ws =>
    have first : lineSize ([] ++ [w]) ≤ limit := h w (by simp)
    have filled : xargs limit (w :: ws) = fill limit [w] ws := if_pos first
    have ne : ∀ l ∈ xargs limit (w :: ws), l ≠ [] := fun l hl =>
      ne_nil_of_mem_fill (by simp) (filled ▸ hl)
    match hx : xargs limit (w :: ws) with
    | [] =>
      rw [hx] at all
      simp at all
    | [l] =>
      rw [hx, List.flatten_singleton] at all
      subst all
      refine .inl ⟨rfl, .inr ?_⟩
      rcases fits_of_fill (filled.symm.trans hx) with rfl | fits
      · exact first
      · exact fits
    | l :: m :: ls =>
      rw [hx] at ne
      exact .inr ⟨l, m, ls, rfl, ne l (by simp), ne m (by simp)⟩

end Tokens

end Unix
