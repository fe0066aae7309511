import VeRoot.Kconfig.Expr
import VeRoot.Kconfig.Number
import Mathlib.Data.List.DropRight

/-!
# Tokens

A line of a Kconfig file is cut into tokens.  The first one is a keyword; behind it stand names,
quoted strings, keywords and operators.  A quoted string is a constant symbol unless the token in
front of it calls for a text.

Macros and variables are not modelled: a line with a `$`, and a line that does not start with a
keyword, is left to the preprocessor.

## Main definitions

* `Keyword`, `Token` — the tokens.
* `expandStr`, `escape` — reading and writing a quoted string.
* `nextToken`, `tokenize` — `_tokenize`.
* `Lexes` — what a text is cut into, in front of which no text is called for.
* `plain_of_tokenize` — the symbols that are found.
-/

namespace Kconfig

open Unix

/-- The tokens that stand for keywords. -/
inductive Keyword
  | allnoconfigY | bool | choice | comment | config | configdefault | default | defconfigList
  | defBool | defHex | defInt | defString | defTristate | depends | endchoice | endif | endmenu
  | env | help | hex | «if» | imply | int | mainmenu | menu | menuconfig | modules | on | option
  | optional | orsource | osource | prompt | range | rsource | select | source | string | tristate
  | visible
  deriving DecidableEq

/-- `_get_keyword` -/
def keywords : List (Text × Keyword) :=
  [("---help---".toList, .help), ("allnoconfig_y".toList, .allnoconfigY), ("bool".toList, .bool),
    ("boolean".toList, .bool), ("choice".toList, .choice), ("comment".toList, .comment),
    ("config".toList, .config), ("configdefault".toList, .configdefault),
    ("def_bool".toList, .defBool), ("def_hex".toList, .defHex), ("def_int".toList, .defInt),
    ("def_string".toList, .defString), ("def_tristate".toList, .defTristate),
    ("default".toList, .default), ("defconfig_list".toList, .defconfigList),
    ("depends".toList, .depends), ("endchoice".toList, .endchoice), ("endif".toList, .endif),
    ("endmenu".toList, .endmenu), ("env".toList, .env), ("grsource".toList, .orsource),
    ("gsource".toList, .osource), ("help".toList, .help), ("hex".toList, .hex),
    ("if".toList, .if), ("imply".toList, .imply), ("int".toList, .int),
    ("mainmenu".toList, .mainmenu), ("menu".toList, .menu), ("menuconfig".toList, .menuconfig),
    ("modules".toList, .modules), ("on".toList, .on), ("option".toList, .option),
    ("optional".toList, .optional), ("orsource".toList, .orsource), ("osource".toList, .osource),
    ("prompt".toList, .prompt), ("range".toList, .range), ("rsource".toList, .rsource),
    ("select".toList, .select), ("source".toList, .source), ("string".toList, .string),
    ("tristate".toList, .tristate), ("visible".toList, .visible)]

/-- A token.  A name or a quoted string is a symbol, or a text where a text is called for. -/
inductive Token
  | keyword (k : Keyword)
  | sym (a : Atom)
  | text (t : Text)
  | and | or | not | openParen | closeParen
  | rel (r : Relation)
  deriving DecidableEq

/-- `_STRING_LEX`: behind these tokens a text is expected. -/
def Token.stringLex : Token → Bool
  | keyword k => k ∈ [Keyword.bool, .choice, .comment, .hex, .int, .mainmenu, .menu, .orsource,
      .osource, .prompt, .rsource, .source, .string, .tristate]
  | _ => false

/-- `str.isspace` of one character. -/
def isSpaceChar (c : Char) : Bool :=
  isSpace c || ('\x1c' ≤ c && c ≤ '\x1f') || c == '\u0085' || c == '\u00a0' || c == '\u1680' ||
    ('\u2000' ≤ c && c ≤ '\u200a') || c == '\u2028' || c == '\u2029' || c == '\u202f' ||
    c == '\u205f' || c == '\u3000'

/-- `strip` -/
def strip (t : Text) : Text := (t.dropWhile isSpaceChar).rdropWhile isSpaceChar

/-- `A-Za-z0-9_` -/
def isWordChar (c : Char) : Bool := c.isAlphanum || c == '_'

/-- The characters of the initial token on a line. -/
def isCommandChar (c : Char) : Bool := isWordChar c || c == '$' || c == '-'

/-- The characters of an identifier or a keyword. -/
def isNameChar (c : Char) : Bool := isWordChar c || c == '$' || c == '/' || c == '.' || c == '-'

/-! ### Quoted strings -/

/-- `escape`: a backslash goes in front of backslashes and double quotes. -/
def escape (t : Text) : Text :=
  (t.flatMap fun c => if c = '\\' then ['\\', '\\'] else [c]).flatMap fun c =>
    if c = '"' then ['\\', '"'] else [c]

/-- `_expand_str`, from behind the opening quote: the string, and what follows the closing quote.  A
backslash is dropped and the character behind it kept; `after` tells that one stands in front. -/
def expandStr (quote : Char) : Bool → Text → Option (Text × Text)
  | _, [] => none
  | true, c :: t => (expandStr quote false t).map fun r => (c :: r.1, r.2)
  | false, c :: t =>
    if c = quote then some ([], t)
    else if c = '\\' then expandStr quote true t
    else (expandStr quote false t).map fun r => (c :: r.1, r.2)

/-- `find`: what stands before the first quote, and what follows it. -/
def findQuote (quote : Char) : Text → Option (Text × Text)
  | [] => none
  | c :: t => if c = quote then some ([], t) else (findQuote quote t).map fun r => (c :: r.1, r.2)

/-- A quoted string.  There is a fast path for lines without backslashes; what stands in front of the
string makes no difference. -/
def quoted (quote : Char) (t : Text) : Option (Text × Text) :=
  if '\\' ∈ t then expandStr quote false t else findQuote quote t

/-! ### The tokenizer -/

/-- The token of a quoted string. -/
def stringToken (first prev : Token) (t : Text) : Token :=
  if prev.stringLex ∨ first = .keyword .option then .text t else .sym (.const t)

/-- The token of an identifier or a keyword. -/
def nameToken (prev : Token) (name : Text) : Token :=
  match keywords.lookup name with
  | some k => .keyword k
  | none =>
    if prev.stringLex then .text name
    else if (strToTri name).isSome then .sym (.const name)
    else .sym (.sym name)

/-- What is neither a name nor a string.  A `#` starts a comment. -/
def operator : Text → Except Text (Option (Token × Text))
  | '&' :: '&' :: t => .ok (some (.and, t))
  | '|' :: '|' :: t => .ok (some (.or, t))
  | '=' :: t => .ok (some (.rel .equal, t))
  | '!' :: '=' :: t => .ok (some (.rel .unequal, t))
  | '!' :: t => .ok (some (.not, t))
  | '(' :: t => .ok (some (.openParen, t))
  | ')' :: t => .ok (some (.closeParen, t))
  | '#' :: _ => .ok none
  | '<' :: '=' :: t => .ok (some (.rel .lessEqual, t))
  | '<' :: t => .ok (some (.rel .less, t))
  | '>' :: '=' :: t => .ok (some (.rel .greaterEqual, t))
  | '>' :: t => .ok (some (.rel .greater, t))
  | _ => .error "unknown tokens in line".toList

/-- One round of the main loop: a token and what is left, without leading white space.  `prev` is the
token in front and `first` the first one on the line. -/
def nextToken (first prev : Token) (t : Text) : Except Text (Option (Token × Text)) :=
  match t with
  | [] => .ok none
  | c :: t =>
    if isNameChar c then
      .ok (some (nameToken prev ((c :: t).takeWhile isNameChar),
        ((c :: t).dropWhile isNameChar).dropWhile isSpace))
    else if c = '"' ∨ c = '\'' then
      match quoted c t with
      | none => .error "unterminated string".toList
      | some (s, t) => .ok (some (stringToken first prev s, t.dropWhile isSpaceChar))
    else (operator (c :: t)).map fun r => r.map fun p => (p.1, p.2.dropWhile isSpaceChar)

/-- The main loop.  Each round takes at least one of the `n` characters. -/
def lexFrom (first : Token) : ℕ → Token → Text → Except Text (List Token)
  | 0, _, _ => .ok []
  | n + 1, prev, t => do
    match ← nextToken first prev t with
    | none => return []
    | some (tok, t) => return tok :: (← lexFrom first n tok t)

/-- What becomes of a line. -/
inductive Line
  | blank
  | tokens (ts : List Token)
  | preprocessor
  deriving DecidableEq

/-- `_tokenize` -/
def tokenize (s : Text) : Except Text Line :=
  let t := s.dropWhile isSpace
  let command := t.takeWhile isCommandChar
  if '$' ∈ s then .ok .preprocessor
  else if command = [] then
    if (s ≠ [] ∧ ∀ c ∈ s, isSpaceChar c) ∨ (s.dropWhile isSpaceChar).head? = some '#' then .ok .blank
    else .error "unknown token at start of line".toList
  else
    match keywords.lookup command with
    | none =>
      if (s.dropWhile fun c => c ∈ [' ', '\t', '\n', '-']).rdropWhile
          (fun c => c ∈ [' ', '\t', '\n', '-']) = "help".toList then
        .ok (.tokens [.keyword .help])
      else .ok .preprocessor
    | some k =>
      let rest := (t.dropWhile isCommandChar).dropWhile isSpace
      (lexFrom (.keyword k) rest.length (.keyword k) rest).map fun ts => .tokens (.keyword k :: ts)

variable {first prev tok : Token} {t t' x q F F' : Text} {c : Char} {n : ℕ} {ts : List Token}

theorem isSpaceChar_of_isNameChar (h : isNameChar c = true) : isSpaceChar c = false := by
  have parts : c.isAlphanum = (c.isUpper || c.isLower || c.isDigit) := rfl
  have upper : c.isUpper = decide ('A' ≤ c ∧ c ≤ 'Z') := rfl
  have lower : c.isLower = (decide ('a' ≤ c) && decide (c ≤ 'z')) := rfl
  have digit : c.isDigit = (decide ('0' ≤ c) && decide (c ≤ '9')) := rfl
  simp only [isNameChar, isWordChar, parts, upper, lower, digit, Bool.or_eq_true, Bool.and_eq_true,
    decide_eq_true_eq, beq_iff_eq, Char.le_def, UInt32.le_iff_toNat_le, Char.ext_iff,
    ← UInt32.toNat_inj] at h
  simp only [isSpaceChar, isSpace, Bool.or_eq_false_iff, Bool.and_eq_false_iff,
    decide_eq_false_iff_not, beq_eq_false_iff_ne, ne_eq, Char.le_def, UInt32.le_iff_toNat_le,
    Char.ext_iff, ← UInt32.toNat_inj]
  simp only [Char.reduceVal, UInt32.reduceToNat] at h ⊢
  omega

/-! ## Quoted strings -/

theorem expandStr_of_notMem (h : '\\' ∉ t) : expandStr c false t = findQuote c t := by
  induction t with
  | nil => rfl
  | cons d t ih =>
    obtain ⟨hd, ht⟩ := List.ne_and_not_mem_of_not_mem_cons h
    rw [expandStr, findQuote, if_neg hd.symm, ih ht]

/-- The fast path finds the same string. -/
theorem quoted_eq : quoted c t = expandStr c false t := by
  unfold quoted
  split
  · rfl
  · next h => exact (expandStr_of_notMem h).symm

theorem escape_cons (c : Char) (t : Text) : escape (c :: t) =
    if c = '\\' ∨ c = '"' then '\\' :: c :: escape t else c :: escape t := by
  have h : escape (c :: t) = ((if c = '\\' then ['\\', '\\'] else [c]).flatMap fun c =>
      if c = '"' then ['\\', '"'] else [c]) ++ escape t := by
    unfold escape
    rw [List.flatMap_cons, List.flatMap_append]
  rw [h]
  by_cases hb : c = '\\'
  · rw [hb]
    rfl
  · by_cases hq : c = '"'
    · rw [hq]
      rfl
    · simp [hb, hq]

/-- **What is escaped and quoted is read back.** -/
theorem expandStr_escape (t F : Text) :
    expandStr '"' false (escape t ++ '"' :: F) = some (t, F) := by
  induction t with
  | nil => exact if_pos rfl
  | cons c t ih =>
    rw [escape_cons]
    split
    · simp only [List.cons_append, expandStr, ih]
      rfl
    · next h =>
      obtain ⟨hb, hq⟩ := not_or.mp h
      simp only [List.cons_append, expandStr, if_neg hq, if_neg hb, ih]
      rfl

theorem expandStr_spec {b : Bool} (h : expandStr c b t = some (x, t')) :
    t'.length < t.length ∧ (∀ d ∈ x, d ∈ t) ∧ ∀ d ∈ t', d ∈ t := by
  induction t generalizing b x with
  | nil => cases b <;> cases h
  | cons d t ih =>
    have kept : (expandStr c false t).map (fun r => (d :: r.1, r.2)) = some (x, t') →
        t'.length < (d :: t).length ∧ (∀ e ∈ x, e ∈ d :: t) ∧ ∀ e ∈ t', e ∈ d :: t := by
      intro h
      obtain ⟨⟨x', u⟩, hu, e⟩ := Option.map_eq_some_iff.mp h
      obtain ⟨rfl, rfl⟩ := Prod.mk.inj e
      obtain ⟨hlen, hx, ht⟩ := ih hu
      exact ⟨Nat.lt_succ_of_lt hlen, List.forall_mem_cons.mpr
        ⟨List.mem_cons_self, fun e he => List.mem_cons_of_mem d (hx e he)⟩,
        fun e he => List.mem_cons_of_mem d (ht e he)⟩
    cases b with
    | true => exact kept h
    | false =>
      rw [expandStr] at h
      split at h
      · obtain ⟨rfl, rfl⟩ := Prod.mk.inj (Option.some.inj h)
        exact ⟨Nat.lt_succ_self _, fun e he => absurd he List.not_mem_nil,
          fun e he => List.mem_cons_of_mem d he⟩
      · split at h
        · obtain ⟨hlen, hx, ht⟩ := ih h
          exact ⟨Nat.lt_succ_of_lt hlen, fun e he => List.mem_cons_of_mem d (hx e he),
            fun e he => List.mem_cons_of_mem d (ht e he)⟩
        · exact kept h

/-! ## One token -/

theorem length_dropWhile_le {p : Char → Bool} : (t.dropWhile p).length ≤ t.length :=
  (List.dropWhile_suffix p).length_le

theorem mem_of_mem_dropWhile {p : Char → Bool} {d : Char} (h : d ∈ t.dropWhile p) : d ∈ t :=
  (List.dropWhile_suffix p).subset h

theorem operator_spec (h : operator t = .ok (some (tok, t'))) :
    t'.length < t.length ∧ (∀ d ∈ t', d ∈ t) ∧ ∀ a, tok ≠ .sym a := by
  unfold operator at h
  split at h
  all_goals
    first
    | cases h
      exact ⟨by simp only [List.length_cons]; omega, fun d hd => by simp [hd], fun a => nofun⟩
    | cases h

/-- A symbol that is printed as it was read: a constant, or a name that is neither a keyword nor one
of `n`, `m` and `y`. -/
def Atom.Plain : Atom → Prop
  | const c => '$' ∉ c
  | sym x => x ≠ [] ∧ (∀ c ∈ x, isNameChar c) ∧ '$' ∉ x ∧ keywords.lookup x = none ∧ strToTri x = none

theorem nameToken_plain {a : Atom} (hne : x ≠ []) (hx : ∀ c ∈ x, isNameChar c) (hd : '$' ∉ x)
    (h : nameToken prev x = .sym a) : a.Plain := by
  unfold nameToken at h
  split at h
  · cases h
  · next hk =>
    split at h
    · cases h
    · split at h
      · cases h
        exact hd
      · next ht =>
        cases h
        exact ⟨hne, hx, hd, hk, Option.not_isSome_iff_eq_none.mp ht⟩

/-- A token takes some of the text, and a symbol is plain. -/
theorem nextToken_spec (h : nextToken first prev t = .ok (some (tok, t'))) :
    t'.length < t.length ∧ (∀ d ∈ t', d ∈ t) ∧ ('$' ∉ t → ∀ a, tok = .sym a → a.Plain) := by
  cases t with
  | nil => cases h
  | cons c t =>
    rw [nextToken] at h
    split at h
    · next hc =>
      obtain ⟨rfl, rfl⟩ := Prod.mk.inj (Option.some.inj (Except.ok.inj h))
      rw [List.takeWhile_cons_of_pos hc, List.dropWhile_cons_of_pos hc]
      refine ⟨?_, fun d hd => ?_, fun hd a ha => nameToken_plain (List.cons_ne_nil _ _) ?_ ?_ ha⟩
      · exact Nat.lt_succ_of_le (length_dropWhile_le.trans length_dropWhile_le)
      · exact List.mem_cons_of_mem c (mem_of_mem_dropWhile (mem_of_mem_dropWhile hd))
      · exact List.forall_mem_cons.mpr ⟨hc, fun e he => List.mem_takeWhile_imp he⟩
      · rintro (_ | ⟨_, hm⟩)
        · exact hd List.mem_cons_self
        · exact hd (List.mem_cons_of_mem c ((List.takeWhile_prefix _).subset hm))
    · split at h
      · split at h
        · cases h
        · next s u hs =>
          obtain ⟨rfl, rfl⟩ := Prod.mk.inj (Option.some.inj (Except.ok.inj h))
          obtain ⟨hlen, hsub, hu⟩ := expandStr_spec (quoted_eq ▸ hs)
          refine ⟨?_, fun d hd => ?_, fun hd a ha => ?_⟩
          · exact Nat.lt_succ_of_le (length_dropWhile_le.trans hlen.le)
          · exact List.mem_cons_of_mem c (hu d (mem_of_mem_dropWhile hd))
          · unfold stringToken at ha
            split at ha
            · cases ha
            · cases ha
              exact fun hm => hd (List.mem_cons_of_mem c (hsub _ hm))
      · cases ho : operator (c :: t) with
        | error e =>
          rw [ho] at h
          cases h
        | ok r =>
          rw [ho] at h
          obtain ⟨⟨tok', u⟩, rfl, e⟩ := Option.map_eq_some_iff.mp (Except.ok.inj h)
          obtain ⟨rfl, rfl⟩ := Prod.mk.inj e
          obtain ⟨hlen, hu, hsym⟩ := operator_spec ho
          exact ⟨lt_of_le_of_lt length_dropWhile_le hlen, fun d hd => hu d (mem_of_mem_dropWhile hd),
            fun _ a ha => absurd ha (hsym a)⟩

/-! ## A line -/

theorem lexFrom_nil (first prev : Token) (n : ℕ) : lexFrom first n prev [] = .ok [] := by
  cases n <;> rfl

theorem lexFrom_cons (h : nextToken first prev t = .ok (some (tok, t'))) :
    lexFrom first (n + 1) prev t = (lexFrom first n tok t').map (tok :: ·) := by
  change (nextToken first prev t).bind _ = _
  rw [h]
  rfl

/-- **The symbols on a line without `$` are plain.** -/
theorem plain_of_lexFrom (hd : '$' ∉ t) (h : lexFrom first n prev t = .ok ts) :
    ∀ a, .sym a ∈ ts → a.Plain := by
  induction n generalizing t prev ts with
  | zero =>
    cases h
    exact fun a ha => absurd ha List.not_mem_nil
  | succ n ih =>
    cases hr : nextToken first prev t with
    | error e =>
      simp only [lexFrom, hr] at h
      cases h
    | ok r =>
      cases r with
      | none =>
        simp only [lexFrom, hr] at h
        cases h
        exact fun a ha => absurd ha List.not_mem_nil
      | some p =>
        obtain ⟨tok, t'⟩ := p
        obtain ⟨-, hsub, hplain⟩ := nextToken_spec hr
        rw [lexFrom_cons hr] at h
        cases hl : lexFrom first n tok t' with
        | error e =>
          rw [hl] at h
          cases h
        | ok ts' =>
          rw [hl] at h
          cases h
          rintro a (_ | ⟨_, ha⟩)
          · exact hplain hd a rfl
          · exact ih (fun hm => hd (hsub _ hm)) hl a ha

theorem map_eq_ok {α β : Type} {p : Except Text α} {f : α → β} {v : β} :
    p.map f = .ok v ↔ ∃ w, p = .ok w ∧ f w = v := by
  cases p with
  | error e => exact ⟨nofun, fun ⟨_, h, _⟩ => nomatch h⟩
  | ok w => exact ⟨fun h => ⟨w, rfl, Except.ok.inj h⟩, fun ⟨_, h, e⟩ => by cases h; exact e ▸ rfl⟩

theorem plain_of_tokenize (h : tokenize t = .ok (.tokens ts)) : ∀ a, .sym a ∈ ts → a.Plain := by
  unfold tokenize at h
  dsimp only at h
  split at h
  · cases h
  · next hd =>
    split at h
    · split at h <;> cases h
    · split at h
      · split at h
        · cases h
          exact fun a ha => by simp at ha
        · cases h
      · next k _ =>
        obtain ⟨us, hus, e⟩ := map_eq_ok.mp h
        cases e
        have hd' : '$' ∉ ((t.dropWhile isSpace).dropWhile isCommandChar).dropWhile isSpace :=
          fun hm => hd (mem_of_mem_dropWhile (mem_of_mem_dropWhile (mem_of_mem_dropWhile hm)))
        rintro a (_ | ⟨_, ha⟩)
        exact plain_of_lexFrom hd' hus a ha

/-- What a text is cut into, in front of which no text is called for. -/
def Lexes (first : Token) (t : Text) (ts : List Token) : Prop :=
  ∀ n prev, t.length ≤ n → prev.stringLex = false → lexFrom first n prev t = .ok ts

theorem lexes_nil : Lexes first [] [] := fun n prev _ _ => lexFrom_nil first prev n

theorem Lexes.cons (h : Lexes first t' ts) (htok : tok.stringLex = false)
    (hn : ∀ prev, prev.stringLex = false → nextToken first prev t = .ok (some (tok, t'))) :
    Lexes first t (tok :: ts) := by
  intro n prev hlen hprev
  have hr := hn prev hprev
  have ht := (nextToken_spec hr).1
  obtain ⟨n, rfl⟩ : ∃ m, n = m + 1 := ⟨n - 1, by omega⟩
  rw [lexFrom_cons hr, h n tok (by omega) htok]
  rfl

/-- Behind a token: a name ends here, and `F'` is what is left without leading white space. -/
structure Follows (F F' : Text) : Prop where
  ends : ∀ c ∈ F.head?, isNameChar c = false
  blanks : F.dropWhile isSpace = F'
  spaces : F.dropWhile isSpaceChar = F'

/-- A symbol as it is printed. -/
def atomStr : Atom → Text
  | .const c => if (strToTri c).isSome then c else '"' :: (escape c ++ ['"'])
  | .sym x => x

theorem nextToken_name (hne : x ≠ []) (hx : ∀ c ∈ x, isNameChar c) (hF : Follows F F') :
    nextToken first prev (x ++ F) = .ok (some (nameToken prev x, F')) := by
  obtain ⟨c, x', rfl⟩ := List.exists_cons_of_ne_nil hne
  have htake : F.takeWhile isNameChar = [] := by
    cases F with
    | nil => rfl
    | cons d F => exact List.takeWhile_cons_of_neg (by rw [hF.ends d rfl]; decide)
  have hdrop : F.dropWhile isNameChar = F := by
    cases F with
    | nil => rfl
    | cons d F => exact List.dropWhile_cons_of_neg (by rw [hF.ends d rfl]; decide)
  rw [List.cons_append, nextToken, if_pos (hx c List.mem_cons_self), ← List.cons_append,
    List.takeWhile_append_of_pos hx, List.dropWhile_append_of_pos hx, htake, hdrop, hF.blanks,
    List.append_nil]

theorem isNameChar_of_strToTri (h : (strToTri x).isSome) : x ≠ [] ∧ ∀ c ∈ x, isNameChar c := by
  unfold strToTri at h
  split at h
  · next e => exact ⟨by simp [e], by rw [e]; decide⟩
  · split at h
    · next e => exact ⟨by simp [e], by rw [e]; decide⟩
    · split at h
      · next e => exact ⟨by simp [e], by rw [e]; decide⟩
      · cases h

theorem lookup_of_strToTri (h : (strToTri x).isSome) : keywords.lookup x = none := by
  unfold strToTri at h
  split at h
  · next e => rw [e]; decide
  · split at h
    · next e => rw [e]; decide
    · split at h
      · next e => rw [e]; decide
      · cases h

/-- **A printed symbol is read back.** -/
theorem Lexes.atom {a : Atom} (ha : a.Plain) (hfirst : first ≠ .keyword .option)
    (hF : Follows F F') (h : Lexes first F' ts) : Lexes first (atomStr a ++ F) (.sym a :: ts) := by
  refine h.cons rfl fun prev hprev => ?_
  cases a with
  | sym x =>
    obtain ⟨hne, hx, -, hk, ht⟩ := ha
    rw [atomStr, nextToken_name hne hx hF, nameToken, hk]
    simp only [hprev, ht, Option.isSome_none, Bool.false_eq_true, if_false]
  | const c =>
    rw [atomStr]
    split
    · next hc =>
      obtain ⟨hne, hx⟩ := isNameChar_of_strToTri hc
      rw [nextToken_name hne hx hF, nameToken, lookup_of_strToTri hc]
      simp only [hprev, hc, Bool.false_eq_true, if_false, if_true]
    · rw [List.cons_append, List.append_assoc, List.singleton_append, nextToken,
        if_neg (by decide), if_pos (.inl rfl), quoted_eq, expandStr_escape]
      simp only [stringToken, hprev, hfirst, hF.spaces, Bool.false_eq_true, or_self, if_false]

end Kconfig
