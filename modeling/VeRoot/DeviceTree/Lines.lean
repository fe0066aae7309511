import VeRoot.DeviceTree.Source

/-!
# Written sources

What the scanner and the parser make of a line whose parts are not known: names, strings, numbers
and files.

## Main definitions

* `Quotable`, `IsName` — what may stand for a string and for a name.
* `Says` — what a part of a source says.
* `says_enter`, `says_string`, `says_incbin`, `emit_cells` — the lines of a source.
-/

namespace DeviceTree

open Unix

section Written

variable {s s' : Lexing} {naming : Bool} {c : Char} {k : Token} {ks : List Token}
  {t t' u w v ds : Text} {es es' : List Phrase} {x x' x'' : Parsing} {d m : ℕ} {props : Bool}

/-! ## Tokens -/

/-- A text that may stand between quotes. -/
def Quotable (t : Text) : Prop := ∀ c ∈ t, c ≠ '"' ∧ c ≠ '\\'

instance (t : Text) : Decidable (Quotable t) :=
  decidable_of_iff (t.all fun c => c != '"' && c != '\\') (by simp [Quotable])

/-- A name. -/
def IsName (w : Text) : Prop := w ≠ [] ∧ ∀ c ∈ w, isNameChar c = true

instance (w : Text) : Decidable (IsName w) :=
  decidable_of_iff (w ≠ [] ∧ w.all isNameChar = true) (by rw [IsName, List.all_eq_true])

theorem quotable_of_name (h : ∀ c ∈ t, isNameChar c = true) : Quotable t := by
  intro c hc
  exact ⟨ne_of_apply_ne isNameChar (by rw [h c hc]; decide),
    ne_of_apply_ne isNameChar (by rw [h c hc]; decide)⟩

theorem emit_string (h : Quotable t) (w : Text) :
    emit lexStep (.string naming w false) t = some ([], .string naming (w ++ t) false) := by
  induction t generalizing w with
  | nil => simp [emit]
  | cons c t ih =>
    obtain ⟨hq, hb⟩ := h c (by simp)
    have hb : (c == '\\') = false := beq_eq_false_iff_ne.mpr hb
    have rest := ih (fun c hc => h c (by simp [hc])) (w ++ [c])
    rw [emit, lexStep, if_neg hq, hb, Option.bind_some, rest]
    simp

theorem emit_name (h : ∀ c ∈ t, isNameChar c = true) (w : Text) :
    emit lexStep (.name w) t = some ([], .name (w ++ t)) := by
  induction t generalizing w with
  | nil => simp [emit]
  | cons c t ih =>
    have rest := ih (fun c hc => h c (by simp [hc])) (w ++ [c])
    rw [emit, lexStep, if_pos (h c (by simp)), Option.bind_some, rest]
    simp

theorem emit_literal (h : ∀ c ∈ t, c.isAlphanum = true) (w : Text) :
    emit lexStep (.literal w) t = some ([], .literal (w ++ t)) := by
  induction t generalizing w with
  | nil => simp [emit]
  | cons c t ih =>
    have rest := ih (fun c hc => h c (by simp [hc])) (w ++ [c])
    rw [emit, lexStep, if_pos (h c (by simp)), Option.bind_some, rest]
    simp

theorem beginToken_name_char (h : isNameChar c = true) :
    beginToken true c = some ([], .name [c]) := by
  have blank : ¬ c.isWhitespace = true := by
    intro hc
    simp only [Char.isWhitespace, Bool.or_eq_true, decide_eq_true_eq] at hc
    obtain ((rfl | rfl) | rfl) | rfl := hc
    all_goals exact absurd h (by decide)
  have quote : c ≠ '"' := ne_of_apply_ne isNameChar (by rw [h]; decide)
  have slash : c ≠ '/' := ne_of_apply_ne isNameChar (by rw [h]; decide)
  rw [beginToken, if_neg blank, if_neg quote, if_neg slash, if_pos (by simp [h])]

/-- A name at the beginning of a line. -/
theorem emit_word (h : IsName w) : emit lexStep (.between true) w = some ([], .name w) := by
  obtain ⟨hne, h⟩ := h
  obtain ⟨c, w, rfl⟩ := List.exists_cons_of_ne_nil hne
  have first : emit lexStep (.between true) [c] = some ([], .name [c]) := by
    rw [emit, lexStep, beginToken_name_char (h c (by simp))]
    rfl
  exact emit_trans first (emit_name (fun c hc => h c (by simp [hc])) [c])

theorem emit_blank (h : ∀ c ∈ t, c.isWhitespace = true) :
    emit lexStep (.between naming) t = some ([], .between naming) := by
  induction t with
  | nil => rfl
  | cons c t ih =>
    rw [emit, lexStep, beginToken, if_pos (h c (by simp)), Option.bind_some,
      ih fun c hc => h c (by simp [hc])]
    rfl

/-! ## Numbers -/

/-- The number that the scanner reads is the one that was written. -/
theorem hexFrom_append {n m : ℕ} (h : hexFrom n w = some m) (ds : Text) :
    hexFrom n (w ++ ds) = hexFrom m ds := by
  induction w generalizing n with
  | nil =>
    obtain rfl := Option.some.inj h
    rfl
  | cons c w ih =>
    obtain ⟨d, hd, h⟩ := Option.bind_eq_some_iff.mp h
    rw [List.cons_append, hexFrom, hd, Option.bind_some, ih h]

theorem hexDigit_digitChar : ∀ n < 16, hexDigit n.digitChar = some n := by decide

theorem hexFrom_toDigits (n : ℕ) : hexFrom 0 (Nat.toDigits 16 n) = some n := by
  induction n using Nat.strong_induction_on with
  | _ n ih =>
    rw [Nat.toDigits_eq_if (by decide)]
    split_ifs with hn
    · rw [hexFrom, hexDigit_digitChar n hn]
      simp [hexFrom]
    · have smaller : n / 16 < n := Nat.div_lt_self (by omega) (by decide)
      rw [hexFrom_append (ih _ smaller), hexFrom, hexDigit_digitChar _ (Nat.mod_lt n (by decide)),
        Option.bind_some, hexFrom, Nat.div_add_mod]

theorem isAlphanum_of_hexDigit (h : hexDigit c = some d) : c.isAlphanum = true := by
  have parts : c.isAlphanum = (c.isUpper || c.isLower || c.isDigit) := rfl
  have lower : c.isLower = (decide ('a' ≤ c) && decide (c ≤ 'z')) := rfl
  have upper : c.isUpper = decide ('A' ≤ c ∧ c ≤ 'Z') := rfl
  simp only [hexDigit] at h
  split_ifs at h with digit low up
  · rw [parts, digit, Bool.or_true]
  · have : c ≤ 'z' := UInt32.le_trans low.2 (by decide)
    rw [parts, lower, decide_eq_true low.1, decide_eq_true this]
    simp
  · have : c ≤ 'Z' := UInt32.le_trans up.2 (by decide)
    rw [parts, upper, decide_eq_true ⟨up.1, this⟩]
    simp

theorem isAlphanum_of_hexFrom {n m : ℕ} (h : hexFrom n ds = some m) :
    ∀ c ∈ ds, c.isAlphanum = true := by
  induction ds generalizing n with
  | nil => simp
  | cons c ds ih =>
    obtain ⟨d, hd, h⟩ := Option.bind_eq_some_iff.mp h
    intro c' hc'
    rcases List.mem_cons.mp hc' with rfl | hc'
    · exact isAlphanum_of_hexDigit hd
    · exact ih h c' hc'

/-- A number is complete when a character follows that cannot belong to it. -/
theorem emit_hex {m : ℕ} (h : hexFrom 0 ds = some m) (hds : ds ≠ []) (hc : c.isAlphanum = false)
    (ht : emit lexStep (.between false) (c :: t) = some (ks, s)) :
    emit lexStep (.between false) ('0' :: 'x' :: ds ++ c :: t) = some (.literal m :: ks, s) := by
  have value : literalValue ('0' :: 'x' :: ds) = some m := by
    obtain ⟨d, ds, rfl⟩ := List.exists_cons_of_ne_nil hds
    exact h
  have digits : ∀ c ∈ 'x' :: ds, c.isAlphanum = true :=
    List.forall_mem_cons.mpr ⟨by decide, isAlphanum_of_hexFrom h⟩
  have first : emit lexStep (.between false) ['0'] = some ([], .literal ['0']) := rfl
  have number := emit_trans first (emit_literal digits ['0'])
  refine emit_trans number ?_
  obtain ⟨r, hr, ht⟩ := Option.bind_eq_some_iff.mp ht
  obtain ⟨q, hq, e⟩ := Option.map_eq_some_iff.mp ht
  obtain ⟨rfl, rfl⟩ := Prod.mk.inj e
  have behind : lexStep (.literal ('0' :: 'x' :: ds)) c = some (.literal m :: r.1, r.2) := by
    have begun : beginToken false c = some r := hr
    rw [lexStep, if_neg (by simp [hc]), value, Option.bind_some, endToken, begun]
    rfl
  rw [List.singleton_append, emit, behind, Option.bind_some, hq]
  rfl

/-! ## Lines -/

/-- Read from the beginning of a line, the part `t` says `es`, and another line may follow. -/
def Says (x : Parsing) (t : Text) (es : List Phrase) (x' : Parsing) : Prop :=
  ∃ ks, emit lexStep (.between true) t = some (ks, .between true) ∧
    emit parseStep x ks = some (es, x')

/-- One part after the other. -/
theorem Says.append (h : Says x t es x') (h' : Says x' t' es' x'') :
    Says x (t ++ t') (es ++ es') x'' := by
  obtain ⟨ks, hks, hes⟩ := h
  obtain ⟨ks', hks', hes'⟩ := h'
  exact ⟨ks ++ ks', emit_trans hks hks', emit_trans hes hes'⟩

theorem says_blank (h : ∀ c ∈ t, c.isWhitespace = true) : Says x t [] x :=
  ⟨[], emit_blank h, rfl⟩

/-- A line that begins with a name. -/
theorem says_name (hw : IsName w) (ht : emit lexStep (.name w) t = some (ks, .between true))
    (hks : emit parseStep x ks = some (es, x')) : Says x (w ++ t) es x' :=
  ⟨ks, emit_trans (emit_word hw) ht, hks⟩

theorem says_enter (hw : IsName w) :
    Says (.body d props) (w ++ "\x7b".toList) [.enter w] (.body (d + 1) true) := by
  have behind : emit lexStep (.name w) "\x7b".toList =
      some ([.name w, .mark '\x7b'], .between true) := rfl
  exact says_name hw behind rfl

theorem says_enter_blank (hw : IsName w) :
    Says (.body d props) (w ++ " \x7b".toList) [.enter w] (.body (d + 1) true) := by
  have behind : emit lexStep (.name w) " \x7b".toList =
      some ([.name w, .mark '\x7b'], .between true) := rfl
  exact says_name hw behind rfl

theorem says_leave : Says (.body (d + 1) props) "\x7d;".toList [.leave] (.body d false) :=
  ⟨[.mark '\x7d', .mark ';'], rfl, rfl⟩

theorem says_string (hw : IsName w) (hv : Quotable v) :
    Says (.body d true) (w ++ (" = \"".toList ++ v ++ "\";".toList)) [.prop w [.string v]]
      (.body d true) := by
  have before : emit lexStep (.name w) " = \"".toList =
      some ([.name w, .mark '='], .string false [] false) := rfl
  have behind : emit lexStep (.string false v false) "\";".toList =
      some ([.string v, .mark ';'], .between true) := rfl
  exact says_name hw (emit_trans (emit_trans before (emit_string hv [])) behind) rfl

theorem says_incbin (hw : IsName w) (hv : Quotable v) :
    Says (.body d true) (w ++ (" = /incbin/(\"".toList ++ v ++ "\");".toList)) [.prop w [.incbin v]]
      (.body d true) := by
  have before : emit lexStep (.name w) " = /incbin/(\"".toList =
      some ([.name w, .mark '=', .incbin, .mark '('], .string false [] false) := rfl
  have behind : emit lexStep (.string false v false) "\");".toList =
      some ([.string v, .mark ')', .mark ';'], .between true) := rfl
  exact says_name hw (emit_trans (emit_trans before (emit_string hv [])) behind) rfl

/-- A property with one number. -/
theorem emit_cells (hw : IsName w)
    (hu : emit lexStep (.name w) u = some ([.name w, .mark '=', .mark '<'], .between false))
    (hm : hexFrom 0 ds = some m) (hds : ds ≠ []) (hc : c.isAlphanum = false)
    (ht : emit lexStep (.between false) (c :: t) = some ([.mark '>', .mark ';'], .between true)) :
    emit lexStep (.between true) (w ++ (u ++ ('0' :: 'x' :: ds ++ c :: t))) =
      some ([.name w, .mark '=', .mark '<', .literal m, .mark '>', .mark ';'], .between true) :=
  emit_trans (emit_word hw) (emit_trans hu (emit_hex hm hds hc ht))

/-- The number fits in a cell. -/
theorem emit_parse_cells (w : Text) (hm : m < 2 ^ 32) :
    emit parseStep (.body d true)
        [.name w, .mark '=', .mark '<', .literal m, .mark '>', .mark ';'] =
      some ([.prop w [.cells [m]]], .body d true) := by
  have before : emit parseStep (.body d true) [.name w, .mark '=', .mark '<'] =
      some ([], .cells d w [] []) := rfl
  have number : emit parseStep (.cells d w [] []) [.literal m] =
      some ([], .cells d w [] [m]) := by
    rw [emit, parseStep, if_pos hm]
    rfl
  exact emit_trans before (emit_trans number rfl)

/-! ## Whole sources -/

/-- A source that is read to its end. -/
theorem parse_of_emit (hks : emit lexStep (.between false) t = some (ks, .between naming))
    (hes : emit parseStep .header ks = some (es, .done)) : parse t = some es ∧ Balanced t := by
  have tokens : lex t = some ks := by
    rw [lex, hks]
    rfl
  refine ⟨?_, balanced_of_lex tokens⟩
  rw [parse, tokens, Option.bind_some, hes]
  rfl

/-- A source that the scanner refuses behind a part that it reads. -/
theorem parse_of_refused (h : emit lexStep (.between false) t = some (ks, s))
    (h' : emit lexStep s t' = none) : parse (t ++ t') = none := by
  rw [parse, lex, emit_refused h h']
  rfl

end Written

end DeviceTree
