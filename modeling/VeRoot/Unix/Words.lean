import VeRoot.Unix.Lines
import Mathlib.Data.List.DropRight

/-!
# Words

An unquoted expansion is split into words at its blanks, and `echo` prints words with single
spaces between them.  Printed like this, a line that is divided by some other character falls
into the same fields as before, apart from their blanks.

## Main definitions

* `words` — the words of a text.
* `tidy` — the words, with single spaces between them.
* `trim` — a text without the blanks at its ends.
* `before`, `within`, `inner` — what becomes of the fields of a line.
* `tidy_append`, `inner_append` — a line that is divided into fields.
-/

namespace Unix

/-- No word goes on here. -/
def gap : Text → Bool
  | [] => true
  | c :: _ => isBlank c

/-- The words of a text. -/
def words : Text → List Text
  | [] => []
  | c :: t =>
    if isBlank c then words t
    else if gap t then [c] :: words t
    else
      match words t with
      | [] => [[c]]
      | w :: ws => (c :: w) :: ws

/-- The words, with single spaces between them. -/
def tidy (t : Text) : Text := [' '].intercalate (words t)

/-- A text without the blanks at its ends. -/
def trim (t : Text) : Text := (t.dropWhile isBlank).rdropWhile isBlank

/-- What `tidy` makes of the end of a line, behind some other character. -/
def inner (t : Text) : Text := if gap t ∧ words t ≠ [] then ' ' :: tidy t else tidy t

/-- What it makes of the beginning of a line, in front of some other character. -/
def before : Text → Text
  | [] => []
  | c :: t =>
    if isBlank c then before t
    else c :: if t ≠ [] ∧ gap t then ' ' :: before t else before t

/-- What it makes of a part in the middle. -/
def within (t : Text) : Text := if t ≠ [] ∧ gap t then ' ' :: before t else before t

section Words

variable {a b t : Text} {c x : Char}

/-! ## Words -/

@[simp] theorem words_nil : words [] = [] := rfl

theorem words_blank (h : isBlank c = true) : words (c :: t) = words t := by
  rw [words, if_pos h]

theorem words_gap (h : isBlank c = false) (hg : gap t = true) :
    words (c :: t) = [c] :: words t := by
  rw [words, if_neg (by simp [h]), if_pos hg]

theorem words_ne_nil (hg : gap t = false) : words t ≠ [] := by
  cases t with
  | nil => cases hg
  | cons c t =>
    have h : isBlank c = false := hg
    rw [words, if_neg (by simp [h])]
    split_ifs
    · simp
    · split <;> simp

/-- A word goes on. -/
theorem words_cons {w : Text} {ws : List Text} (h : isBlank c = false) (hg : gap t = false)
    (hw : words t = w :: ws) : words (c :: t) = (c :: w) :: ws := by
  rw [words, if_neg (by simp [h]), if_neg (by simp [hg]), hw]

theorem words_append_blank (hx : isBlank x = true) : words (t ++ [x]) = words t := by
  induction t with
  | nil => simp [words, hx]
  | cons c t ih =>
    have hgap : gap (t ++ [x]) = gap t := by
      cases t with
      | nil => exact hx
      | cons d t => rfl
    rw [List.cons_append, words, words, hgap, ih]

/-- The words are what is left without the blanks. -/
theorem flatten_words (t : Text) : (words t).flatten = t.filter fun c => !isBlank c := by
  induction t with
  | nil => rfl
  | cons c t ih =>
    by_cases hc : isBlank c = true
    · rw [words_blank hc, ih]
      simp [hc]
    · have hc : isBlank c = false := by simpa using hc
      rw [List.filter_cons_of_pos (by simp [hc]), ← ih]
      by_cases hg : gap t = true
      · rw [words_gap hc hg]
        rfl
      · have hg : gap t = false := by simpa using hg
        obtain ⟨w, ws, hw⟩ := List.exists_cons_of_ne_nil (words_ne_nil hg)
        rw [words_cons hc hg hw, hw]
        rfl

theorem ne_nil_of_mem_words {w : Text} (h : w ∈ words t) : w ≠ [] := by
  induction t generalizing w with
  | nil => simp at h
  | cons c t ih =>
    by_cases hc : isBlank c = true
    · rw [words_blank hc] at h
      exact ih h
    · have hc : isBlank c = false := by simpa using hc
      by_cases hg : gap t = true
      · rw [words_gap hc hg] at h
        rcases List.mem_cons.mp h with rfl | h
        · simp
        · exact ih h
      · have hg : gap t = false := by simpa using hg
        obtain ⟨v, vs, hv⟩ := List.exists_cons_of_ne_nil (words_ne_nil hg)
        rw [words_cons hc hg hv] at h
        rcases List.mem_cons.mp h with rfl | h
        · simp
        · exact ih (by simp [hv, h])

/-- Blanks at the ends are in no word. -/
theorem words_trim (t : Text) : words (trim t) = words t := by
  have right : ∀ t : Text, words (t.rdropWhile isBlank) = words t := by
    intro t
    induction t using List.reverseRecOn with
    | nil => rfl
    | append_singleton t c ih =>
      by_cases hc : isBlank c = true
      · rw [List.rdropWhile_concat_pos _ _ _ hc, ih, words_append_blank hc]
      · rw [List.rdropWhile_concat_neg _ _ _ hc]
  have left : ∀ t : Text, words (t.dropWhile isBlank) = words t := by
    intro t
    induction t with
    | nil => rfl
    | cons c t ih =>
      by_cases hc : isBlank c = true
      · rw [List.dropWhile_cons_of_pos hc, ih, words_blank hc]
      · rw [List.dropWhile_cons_of_neg hc]
  rw [trim, right, left]

/-! ## Single spaces -/

@[simp] theorem tidy_nil : tidy [] = [] := rfl

theorem tidy_blank (h : isBlank c = true) : tidy (c :: t) = tidy t := by
  rw [tidy, words_blank h, tidy]

theorem tidy_eq_nil_iff : tidy t = [] ↔ words t = [] := by
  constructor
  · intro h
    cases hw : words t with
    | nil => rfl
    | cons w ws =>
      have ne : w ≠ [] := ne_nil_of_mem_words (t := t) (by simp [hw])
      rw [tidy, hw] at h
      cases ws <;> simp [List.intercalate, List.intersperse, ne] at h
  · intro h
    rw [tidy, h]
    rfl

/-- Behind a character that is no blank. -/
theorem tidy_cons (h : isBlank c = false) : tidy (c :: t) = c :: inner t := by
  by_cases hg : gap t = true
  · rw [tidy, words_gap h hg, inner]
    cases hw : words t with
    | nil => simp [tidy, hw, hg, List.intercalate]
    | cons w ws => simp [tidy, hw, hg, List.intercalate, List.intersperse]
  · have hg : gap t = false := by simpa using hg
    obtain ⟨w, ws, hw⟩ := List.exists_cons_of_ne_nil (words_ne_nil hg)
    rw [tidy, words_cons h hg hw, inner, if_neg (by simp [hg]), tidy, hw]
    cases ws <;> simp [List.intercalate, List.intersperse]

/-- **The beginning of a line.** -/
theorem tidy_append (hx : isBlank x = false) : tidy (a ++ x :: b) = before a ++ x :: inner b := by
  induction a with
  | nil => exact tidy_cons hx
  | cons c a ih =>
    by_cases hc : isBlank c = true
    · rw [List.cons_append, tidy_blank hc, ih, before, if_pos hc]
    · have hc : isBlank c = false := by simpa using hc
      have some : words (a ++ x :: b) ≠ [] := by
        intro h
        have := tidy_eq_nil_iff.mpr h
        simp [ih] at this
      have hgap : gap (a ++ x :: b) = true ↔ a ≠ [] ∧ gap a = true := by
        cases a with
        | nil => simp [gap, hx]
        | cons d a => simp [gap]
      rw [List.cons_append, tidy_cons hc, before, if_neg (by simp [hc]), inner, ih]
      simp only [hgap, some, ne_eq, not_false_eq_true, and_true]
      split_ifs <;> rfl

/-- **The middle of a line.** -/
theorem inner_append (hx : isBlank x = false) : inner (a ++ x :: b) = within a ++ x :: inner b := by
  have some : words (a ++ x :: b) ≠ [] := by
    intro h
    have := tidy_eq_nil_iff.mpr h
    simp [tidy_append hx] at this
  have hgap : gap (a ++ x :: b) = true ↔ a ≠ [] ∧ gap a = true := by
    cases a with
    | nil => simp [gap, hx]
    | cons d a => simp [gap]
  rw [inner, within, tidy_append hx]
  simp only [hgap, some, ne_eq, not_false_eq_true, and_true]
  split_ifs <;> rfl

/-! ## The words of a field -/

/-- The text goes on with a word. -/
theorem gap_before (h : gap t = false) : gap (before t) = false := by
  cases t with
  | nil => cases h
  | cons c t =>
    have hc : isBlank c = false := h
    rw [before, if_neg (by simp [hc])]
    exact hc

theorem gap_tidy (h : gap t = false) : gap (tidy t) = false := by
  cases t with
  | nil => cases h
  | cons c t =>
    have hc : isBlank c = false := h
    rw [tidy_cons hc]
    exact hc

@[simp] theorem words_before (t : Text) : words (before t) = words t := by
  induction t with
  | nil => rfl
  | cons c t ih =>
    by_cases hc : isBlank c = true
    · rw [before, if_pos hc, ih, words_blank hc]
    · have hc : isBlank c = false := by simpa using hc
      rw [before, if_neg (by simp [hc])]
      by_cases hg : gap t = true
      · cases t with
        | nil => rfl
        | cons d u =>
          rw [if_pos ⟨List.cons_ne_nil d u, hg⟩, words_gap hc rfl, words_blank rfl, ih,
            words_gap hc hg]
      · have hg : gap t = false := by simpa using hg
        obtain ⟨w, ws, hw⟩ := List.exists_cons_of_ne_nil (words_ne_nil hg)
        rw [if_neg (by simp [hg]), words_cons hc (gap_before hg) (ih.trans hw),
          words_cons hc hg hw]

@[simp] theorem words_within (t : Text) : words (within t) = words t := by
  rw [within]
  split_ifs
  · rw [words_blank rfl, words_before]
  · exact words_before t

@[simp] theorem words_tidy (t : Text) : words (tidy t) = words t := by
  induction t with
  | nil => rfl
  | cons c t ih =>
    by_cases hc : isBlank c = true
    · rw [tidy_blank hc, ih, words_blank hc]
    · have hc : isBlank c = false := by simpa using hc
      rw [tidy_cons hc, inner]
      by_cases hg : gap t = true
      · rw [words_gap hc hg]
        split_ifs with h
        · rw [words_gap hc rfl, words_blank rfl, ih]
        · have none : words t = [] := by
            by_contra ne
            exact h ⟨hg, ne⟩
          rw [tidy_eq_nil_iff.mpr none, none, words_gap hc rfl, words_nil]
      · have hg : gap t = false := by simpa using hg
        obtain ⟨w, ws, hw⟩ := List.exists_cons_of_ne_nil (words_ne_nil hg)
        rw [if_neg (by simp [hg]), words_cons hc (gap_tidy hg) (ih.trans hw), words_cons hc hg hw]

@[simp] theorem words_inner (t : Text) : words (inner t) = words t := by
  rw [inner]
  split_ifs
  · rw [words_blank rfl, words_tidy]
  · exact words_tidy t

theorem before_eq_nil_iff : before t = [] ↔ words t = [] := by
  constructor
  · intro h
    rw [← words_before, h, words_nil]
  · intro h
    induction t with
    | nil => rfl
    | cons c t ih =>
      have hc : isBlank c = true := by
        have := flatten_words (c :: t)
        rw [h] at this
        by_contra hc
        simp [hc] at this
      rw [before, if_pos hc]
      exact ih (by rwa [words_blank hc] at h)

theorem within_eq_nil_iff : within t = [] ↔ t = [] := by
  constructor
  · intro h
    cases t with
    | nil => rfl
    | cons c t =>
      rw [within] at h
      split_ifs at h with hg
      have hc : gap (c :: t) = false := by simpa using hg
      have := gap_before hc
      rw [h] at this
      cases this
  · rintro rfl
    rfl

theorem inner_eq_nil_iff : inner t = [] ↔ words t = [] := by
  constructor
  · intro h
    rw [← words_inner, h, words_nil]
  · intro h
    rw [inner, if_neg (by simp [h]), tidy_eq_nil_iff.mpr h]

/-- No other character is new. -/
theorem notMem_before (hx : isBlank x = false) (h : x ∉ t) : x ∉ before t := by
  have space : x ≠ ' ' := by
    rintro rfl
    cases hx
  induction t with
  | nil => simp [before]
  | cons c t ih =>
    have ht := ih fun hm => h (List.mem_cons_of_mem c hm)
    have hc : x ≠ c := fun e => h (e ▸ List.mem_cons_self)
    rw [before]
    split_ifs <;> simp [ht, hc, space]

theorem notMem_within (hx : isBlank x = false) (h : x ∉ t) : x ∉ within t := by
  have space : x ≠ ' ' := by
    rintro rfl
    cases hx
  rw [within]
  split_ifs <;> simp [notMem_before hx h, space]

end Words

end Unix
