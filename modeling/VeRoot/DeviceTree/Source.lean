import VeRoot.Unix.Machine
import VeRoot.Unix.Path
import Mathlib.Algebra.GroupWithZero.Nat

/-!
# Device tree sources

The part of the device tree language that consists of nodes and of properties with strings, cells
and included files.  The scanner reads names only where one may stand, behind `{` and `;`, as `dtc`
does.  Labels, references, comments, expressions, bytes, octal numbers and directives other than
`/dts-v1/` and `/incbin/` are not read: a text with one of them is refused.

## Main definitions

* `Token`, `lexStep`, `lex` — the scanner.
* `Phrase`, `parseStep`, `parse` — the grammar.
* `Declaration`, `nodes`, `values` — what a source declares.
* `Balanced` — every string is closed.
* `balanced_of_lex`, `isNameChar_of_parse` — what a source that is read has.
-/

namespace DeviceTree

open Unix

/-! ## The scanner -/

/-- A token. -/
inductive Token
  | version | incbin
  | name (w : Text) | string (w : Text) | literal (n : ℕ) | mark (c : Char)
  deriving DecidableEq

/-- What the scanner is in the middle of.  `naming` says that a name may follow. -/
inductive Lexing
  | between (naming : Bool)
  | name (w : Text) | literal (w : Text)
  | string (naming : Bool) (w : Text) (escaped : Bool)
  | directive (naming : Bool) (w : Text)
  deriving DecidableEq

/-- A character of a name. -/
def isNameChar (c : Char) : Bool := c.isAlphanum || ",._+*#?@-".toList.contains c

/-- The value of a hexadecimal digit. -/
def hexDigit (c : Char) : Option ℕ :=
  if c.isDigit then some (c.toNat - '0'.toNat)
  else if 'a' ≤ c ∧ c ≤ 'f' then some (c.toNat - 'a'.toNat + 10)
  else if 'A' ≤ c ∧ c ≤ 'F' then some (c.toNat - 'A'.toNat + 10)
  else none

/-- A number with the digits `ds` behind `n`. -/
def hexFrom (n : ℕ) : Text → Option ℕ
  | [] => some n
  | c :: ds => (hexDigit c).bind fun d => hexFrom (16 * n + d) ds

/-- The value of a number. -/
def literalValue : Text → Option ℕ
  | '0' :: x :: d :: ds => if x = 'x' ∨ x = 'X' then hexFrom 0 (d :: ds) else none
  | ds =>
    if ds.all Char.isDigit && (ds.head? != some '0' || ds.length == 1) then
      some (Nat.ofDigitChars 10 ds 0)
    else none

/-- The first character of a token. -/
def beginToken (naming : Bool) (c : Char) : Option (List Token × Lexing) :=
  if c.isWhitespace then some ([], .between naming)
  else if c = '"' then some ([], .string naming [] false)
  else if c = '/' then some ([], .directive naming ['/'])
  else if naming && isNameChar c then some ([], .name [c])
  else if !naming && c.isDigit then some ([], .literal [c])
  else if c = '{' ∨ c = ';' then some ([.mark c], .between true)
  else if "\x7d=<>(),".toList.contains c then some ([.mark c], .between naming)
  else none

/-- The first character behind the token `k`. -/
def endToken (k : Token) (naming : Bool) (c : Char) : Option (List Token × Lexing) :=
  (beginToken naming c).map fun r => (k :: r.1, r.2)

/-- One character. -/
def lexStep : Lexing → Char → Option (List Token × Lexing)
  | .between naming, c => beginToken naming c
  | .name w, c => if isNameChar c then some ([], .name (w ++ [c])) else endToken (.name w) false c
  | .literal w, c =>
    if c.isAlphanum then some ([], .literal (w ++ [c]))
    else (literalValue w).bind fun n => endToken (.literal n) false c
  | .string naming w true, c => some ([], .string naming (w ++ [c]) false)
  | .string naming w false, c =>
    if c = '"' then some ([.string w], .between naming)
    else some ([], .string naming (w ++ [c]) (c == '\\'))
  | .directive naming w, c =>
    if w ++ [c] = "/dts-v1/".toList then some ([.version], .between false)
    else if w ++ [c] = "/incbin/".toList ∧ naming = false then some ([.incbin], .between false)
    else if w ++ [c] <+: "/dts-v1/".toList ∨ w ++ [c] <+: "/incbin/".toList then
      some ([], .directive naming (w ++ [c]))
    else if w = ['/'] ∧ c ≠ '/' ∧ c ≠ '*' then endToken (.mark '/') naming c
    else none

/-- The tokens of a text; `none` if the text ends in the middle of one. -/
def lex (t : Text) : Option (List Token) :=
  (emit lexStep (.between false) t).bind fun r =>
    match r.2 with
    | .between _ => some r.1
    | _ => none

/-! ## The grammar -/

/-- A value of a property. -/
inductive Value
  | string (w : Text) | cells (ns : List ℕ) | incbin (w : Text)
  deriving DecidableEq

/-- What a source says, bit by bit. -/
inductive Phrase
  | enter (w : Text) | leave
  | prop (w : Text) (vs : List Value)
  deriving DecidableEq

/-- What the parser expects, in a node at the depth `d`.  Properties are only allowed in front of
the nodes below. -/
inductive Parsing
  | header | headerEnd | root | rootBrace
  | body (d : ℕ) (props : Bool)
  | named (d : ℕ) (props : Bool) (w : Text)
  | value (d : ℕ) (w : Text) (vs : List Value)
  | cells (d : ℕ) (w : Text) (vs : List Value) (ns : List ℕ)
  | incbin (d : ℕ) (w : Text) (vs : List Value)
  | incbinFile (d : ℕ) (w : Text) (vs : List Value)
  | incbinEnd (d : ℕ) (w : Text) (vs : List Value)
  | valued (d : ℕ) (w : Text) (vs : List Value)
  | closing (d : ℕ)
  | done
  deriving DecidableEq

/-- One token. -/
def parseStep : Parsing → Token → Option (List Phrase × Parsing)
  | .header, .version => some ([], .headerEnd)
  | .headerEnd, .mark ';' => some ([], .root)
  | .root, .mark '/' => some ([], .rootBrace)
  | .rootBrace, .mark '{' => some ([], .body 0 true)
  | .body d props, .name w => some ([], .named d props w)
  | .body d _, .mark '}' => some ([.leave], .closing d)
  | .named d _ w, .mark '{' => some ([.enter w], .body (d + 1) true)
  | .named d true w, .mark '=' => some ([], .value d w [])
  | .named d true w, .mark ';' => some ([.prop w []], .body d true)
  | .value d w vs, .string v => some ([], .valued d w (vs ++ [.string v]))
  | .value d w vs, .mark '<' => some ([], .cells d w vs [])
  | .value d w vs, .incbin => some ([], .incbin d w vs)
  | .cells d w vs ns, .literal n =>
    if n < 2 ^ 32 then some ([], .cells d w vs (ns ++ [n])) else none
  | .cells d w vs ns, .mark '>' => some ([], .valued d w (vs ++ [.cells ns]))
  | .incbin d w vs, .mark '(' => some ([], .incbinFile d w vs)
  | .incbinFile d w vs, .string v => some ([], .incbinEnd d w (vs ++ [.incbin v]))
  | .incbinEnd d w vs, .mark ')' => some ([], .valued d w vs)
  | .valued d w vs, .mark ',' => some ([], .value d w vs)
  | .valued d w vs, .mark ';' => some ([.prop w vs], .body d true)
  | .closing 0, .mark ';' => some ([], .done)
  | .closing (d + 1), .mark ';' => some ([], .body d false)
  | _, _ => none

/-- What a source says. -/
def parse (t : Text) : Option (List Phrase) :=
  (lex t).bind fun ks => (emit parseStep .header ks).bind fun r =>
    if r.2 = .done then some r.1 else none

/-! ## What is declared -/

/-- A declaration. -/
inductive Declaration
  | node (path : Path)
  | prop (path : Path) (w : Text) (vs : List Value)
  deriving DecidableEq

/-- The declarations of a source, in the node `p`. -/
def decls : Path → List Phrase → List Declaration
  | _, [] => []
  | p, .enter w :: es => .node (p ++ [w]) :: decls (p ++ [w]) es
  | p, .leave :: es => decls p.dropLast es
  | p, .prop w vs :: es => .prop p w vs :: decls p es

/-- The nodes. -/
def nodes (ds : List Declaration) : List Path :=
  ds.filterMap fun d =>
    match d with
    | .node p => some p
    | .prop .. => none

/-- What a property of a node is said to be. -/
def values (ds : List Declaration) (p : Path) (w : Text) : List (List Value) :=
  ds.filterMap fun d =>
    match d with
    | .node _ => none
    | .prop q v vs => if q = p ∧ v = w then some vs else none

section Declarations

variable {ds : List Declaration} {p q : Path} {v w : Text} {vs : List Value}

@[simp] theorem values_node : values (.node q :: ds) p w = values ds p w := rfl

@[simp] theorem values_self : values (.prop p w vs :: ds) p w = vs :: values ds p w :=
  List.filterMap_cons_some (if_pos ⟨rfl, rfl⟩)

theorem values_of_ne (h : v ≠ w) : values (.prop q v vs :: ds) p w = values ds p w :=
  List.filterMap_cons_none (if_neg fun e => h e.2)

theorem values_append (ds' : List Declaration) :
    values (ds ++ ds') p w = values ds p w ++ values ds' p w :=
  List.filterMap_append

end Declarations

/-- In or behind a string. -/
def quoteStep : Option Bool → Char → Option Bool
  | none, c => if c = '"' then some false else none
  | some true, _ => some false
  | some false, c => if c = '"' then none else some (c == '\\')

/-- Every string is closed. -/
def Balanced (t : Text) : Prop := t.foldl quoteStep none = none

section Source

variable {s s' : Lexing} {naming : Bool} {c : Char} {k : Token} {ks : List Token} {t w ds : Text}
  {es : List Phrase} {r : List Token × Lexing}

/-! ## What is read -/

theorem beginToken_name (h : beginToken naming c = some r) :
    (∀ w, .name w ∉ r.1) ∧ ∀ w, r.2 = .name w → w = [c] ∧ isNameChar c = true := by
  simp only [beginToken] at h
  split_ifs at h with _ _ _ hn
  all_goals
    obtain rfl := Option.some.inj h
    simp_all

/-- The name that is being read. -/
def Lexing.Named (s : Lexing) : Prop := ∀ w, s = .name w → ∀ c ∈ w, isNameChar c = true

/-- A name has the characters of a name. -/
def Token.Named (k : Token) : Prop := ∀ w, k = .name w → ∀ c ∈ w, isNameChar c = true

theorem Lexing.named_of_ne (h : ∀ w, s ≠ .name w) : s.Named := fun w hw => absurd hw (h w)

theorem Token.named_of_ne (h : ∀ w, k ≠ .name w) : k.Named := fun w hw => absurd hw (h w)

theorem named_begin (h : beginToken naming c = some r) : r.2.Named ∧ ∀ k ∈ r.1, k.Named := by
  obtain ⟨none, first⟩ := beginToken_name h
  refine ⟨fun w hw => ?_, fun k hk w hw => absurd (hw ▸ hk) (none w)⟩
  obtain ⟨rfl, hc⟩ := first w hw
  simpa using hc

theorem named_end (hk : k.Named) (h : endToken k naming c = some r) :
    r.2.Named ∧ ∀ k ∈ r.1, k.Named := by
  obtain ⟨q, hq, rfl⟩ := Option.map_eq_some_iff.mp h
  obtain ⟨last, rest⟩ := named_begin hq
  refine ⟨last, fun k' hk' => ?_⟩
  rcases List.mem_cons.mp hk' with rfl | hk'
  · exact hk
  · exact rest k' hk'

theorem named_step (s : Lexing) (c : Char) (r : List Token × Lexing) (hs : s.Named)
    (h : lexStep s c = some r) : r.2.Named ∧ ∀ k ∈ r.1, k.Named := by
  cases s with
  | between naming => exact named_begin h
  | name w =>
    rw [lexStep] at h
    split_ifs at h with hc
    · obtain rfl := Option.some.inj h
      refine ⟨fun v hv c' hc' => ?_, by simp⟩
      obtain rfl := Lexing.name.inj hv
      rcases List.mem_append.mp hc' with hc' | hc'
      · exact hs w rfl c' hc'
      · exact List.mem_singleton.mp hc' ▸ hc
    · exact named_end (fun v hv => hs v (by rw [Token.name.inj hv])) h
  | literal w =>
    rw [lexStep] at h
    split_ifs at h
    · obtain rfl := Option.some.inj h
      exact ⟨Lexing.named_of_ne (by simp), by simp⟩
    · obtain ⟨n, -, h⟩ := Option.bind_eq_some_iff.mp h
      exact named_end (Token.named_of_ne (by simp)) h
  | string naming w escaped =>
    cases escaped with
    | true =>
      obtain rfl := Option.some.inj h
      exact ⟨Lexing.named_of_ne (by simp), by simp⟩
    | false =>
      rw [lexStep] at h
      split_ifs at h
      · obtain rfl := Option.some.inj h
        exact ⟨Lexing.named_of_ne (by simp), by simp [Token.Named]⟩
      · obtain rfl := Option.some.inj h
        exact ⟨Lexing.named_of_ne (by simp), by simp⟩
  | directive naming w =>
    rw [lexStep] at h
    split_ifs at h
    · obtain rfl := Option.some.inj h
      exact ⟨Lexing.named_of_ne (by simp), by simp [Token.Named]⟩
    · obtain rfl := Option.some.inj h
      exact ⟨Lexing.named_of_ne (by simp), by simp [Token.Named]⟩
    · obtain rfl := Option.some.inj h
      exact ⟨Lexing.named_of_ne (by simp), by simp⟩
    · exact named_end (Token.named_of_ne (by simp)) h

theorem named_of_lex (h : lex t = some ks) : ∀ k ∈ ks, k.Named := by
  obtain ⟨r, hr, h⟩ := Option.bind_eq_some_iff.mp h
  have all := emit_invariant (Q := Token.Named) (R := fun _ => True)
    (fun s c r _ => named_step s c r) (fun _ _ => trivial) (Lexing.named_of_ne (by simp)) hr
  split at h
  · obtain rfl := Option.some.inj h
    exact all.2
  · cases h

/-- The name that the parser has read last. -/
def Parsing.Named (x : Parsing) : Prop :=
  ∀ d props w, x = .named d props w → ∀ c ∈ w, isNameChar c = true

/-- A node has a proper name. -/
def Phrase.Named (e : Phrase) : Prop := ∀ w, e = .enter w → ∀ c ∈ w, isNameChar c = true

theorem named_parseStep (x : Parsing) (k : Token) (q : List Phrase × Parsing) (hk : k.Named)
    (hx : x.Named) (h : parseStep x k = some q) : q.2.Named ∧ ∀ e ∈ q.1, e.Named := by
  have other : ∀ y : Parsing, (∀ d props w, y ≠ .named d props w) → y.Named :=
    fun y hy d props w e => absurd e (hy d props w)
  unfold parseStep at h
  split at h
  case h_5 d props w =>
    obtain rfl := Option.some.inj h
    refine ⟨fun d' props' w' e => ?_, by simp⟩
    obtain ⟨-, -, rfl⟩ := Parsing.named.inj e
    exact hk w rfl
  case h_7 d props w =>
    obtain rfl := Option.some.inj h
    refine ⟨other _ (by simp), fun e he w' hw' => ?_⟩
    rw [List.mem_singleton.mp he] at hw'
    obtain rfl := Phrase.enter.inj hw'
    exact hx d props w rfl
  case h_13 =>
    split_ifs at h
    obtain rfl := Option.some.inj h
    exact ⟨other _ (by simp), by simp⟩
  case h_22 => cases h
  all_goals
    obtain rfl := Option.some.inj h
    exact ⟨other _ (by simp), by simp [Phrase.Named]⟩

theorem named_of_parse (h : parse t = some es) : ∀ e ∈ es, e.Named := by
  obtain ⟨ks, hks, h⟩ := Option.bind_eq_some_iff.mp h
  obtain ⟨q, hq, h⟩ := Option.bind_eq_some_iff.mp h
  have start : Parsing.header.Named := fun _ _ _ e => nomatch e
  have all := emit_invariant (Q := Phrase.Named) named_parseStep (named_of_lex hks) start hq
  split_ifs at h
  obtain rfl := Option.some.inj h
  exact all.2

/-- A node is entered under its name. -/
theorem exists_of_mem_nodes {p q : Path} (h : q ∈ nodes (decls p es)) :
    ∃ p' w, q = p' ++ [w] ∧ .enter w ∈ es := by
  fun_induction decls p es with
  | case1 => simp [nodes] at h
  | case2 p w es ih =>
    rw [nodes, List.filterMap_cons] at h
    rcases List.mem_cons.mp h with rfl | h
    · exact ⟨p, w, rfl, by simp⟩
    · obtain ⟨p', w', e, hw⟩ := ih h
      exact ⟨p', w', e, by simp [hw]⟩
  | case3 p es ih =>
    obtain ⟨p', w', e, hw⟩ := ih h
    exact ⟨p', w', e, by simp [hw]⟩
  | case4 p w vs es ih =>
    obtain ⟨p', w', e, hw⟩ := ih h
    exact ⟨p', w', e, by simp [hw]⟩

/-- **The nodes of a source have proper names.** -/
theorem isNameChar_of_parse {p : Path} (h : parse t = some es)
    (hw : p ++ [w] ∈ nodes (decls [] es)) : ∀ c ∈ w, isNameChar c = true := by
  obtain ⟨p', w', e, he⟩ := exists_of_mem_nodes hw
  obtain ⟨-, rfl⟩ : p = p' ∧ w = w' := by simpa using List.append_inj' e rfl
  exact named_of_parse h _ he w rfl

/-! ## Strings -/

/-- In a string, the escape is pending or not. -/
def Lexing.quote : Lexing → Option Bool
  | .string _ _ escaped => some escaped
  | _ => none

theorem quote_begin (h : beginToken naming c = some r) : quoteStep none c = r.2.quote := by
  simp only [beginToken] at h
  split_ifs at h with hb hq
  case pos =>
    obtain rfl := Option.some.inj h
    exact if_neg (ne_of_apply_ne Char.isWhitespace (by rw [hb]; decide))
  all_goals
    obtain rfl := Option.some.inj h
    simp_all [quoteStep, Lexing.quote]

theorem quote_end (h : endToken k naming c = some r) : quoteStep none c = r.2.quote := by
  obtain ⟨q, hq, rfl⟩ := Option.map_eq_some_iff.mp h
  exact (quote_begin hq : quoteStep none c = q.2.quote)

theorem quote_step (h : lexStep s c = some r) : quoteStep s.quote c = r.2.quote := by
  cases s with
  | between naming => exact quote_begin h
  | name w =>
    rw [lexStep] at h
    split_ifs at h with hc
    · obtain rfl := Option.some.inj h
      exact if_neg (ne_of_apply_ne isNameChar (by rw [hc]; decide))
    · exact quote_end h
  | literal w =>
    rw [lexStep] at h
    split_ifs at h with hc
    · obtain rfl := Option.some.inj h
      exact if_neg (ne_of_apply_ne Char.isAlphanum (by rw [hc]; decide))
    · obtain ⟨n, -, h⟩ := Option.bind_eq_some_iff.mp h
      exact quote_end h
  | string naming w escaped =>
    cases escaped with
    | true =>
      obtain rfl := Option.some.inj h
      rfl
    | false =>
      rw [lexStep] at h
      split_ifs at h with hc
      · obtain rfl := Option.some.inj h
        simp [quoteStep, Lexing.quote, hc]
      · obtain rfl := Option.some.inj h
        simp [quoteStep, Lexing.quote, hc]
  | directive naming w =>
    have inside : ∀ v : Text, '"' ∉ v → w ++ [c] <+: v → quoteStep none c = none := by
      intro v hv hw
      exact if_neg (ne_of_mem_of_not_mem (hw.subset (by simp)) hv)
    rw [lexStep] at h
    split_ifs at h with h₁ h₂ h₃
    · obtain rfl := Option.some.inj h
      exact inside "/dts-v1/".toList (by decide) (by rw [h₁])
    · obtain rfl := Option.some.inj h
      exact inside "/incbin/".toList (by decide) (by rw [h₂.1])
    · obtain rfl := Option.some.inj h
      rcases h₃ with h₃ | h₃
      · exact inside "/dts-v1/".toList (by decide) h₃
      · exact inside "/incbin/".toList (by decide) h₃
    · exact quote_end h

/-- **A text that is read has its strings closed.** -/
theorem balanced_of_lex (h : lex t = some ks) : Balanced t := by
  have all : ∀ (t : Text) (s : Lexing) (r : List Token × Lexing), emit lexStep s t = some r →
      t.foldl quoteStep s.quote = r.2.quote := by
    intro t
    induction t with
    | nil =>
      intro s r h
      obtain rfl := Option.some.inj h
      rfl
    | cons c t ih =>
      intro s r h
      obtain ⟨q, hq, h⟩ := Option.bind_eq_some_iff.mp h
      obtain ⟨q', hq', rfl⟩ := Option.map_eq_some_iff.mp h
      rw [List.foldl_cons, quote_step hq, ih _ _ hq']
  obtain ⟨r, hr, h⟩ := Option.bind_eq_some_iff.mp h
  have closed := all t _ r hr
  split at h
  · rename_i between
    rw [between] at closed
    exact closed
  · cases h

end Source

end DeviceTree
