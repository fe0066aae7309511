import VeRoot.Kconfig.Session
import VeRoot.Kconfig.Token
import VeRoot.Unix.Lines

/-!
# Configuration files

`write_config` walks the menu tree and writes a line for each symbol, with the titles of menus and
comments in between.  `load_config` reads such a file line by line and sets user values; whatever the
file does not set is unset afterwards.  The prefix of the names is `CONFIG_`, as it is unless the
environment asks for another one.  Warnings are not modelled.

## Main definitions

* `configString` — `config_string`.
* `Menu`, `configContents` — the menu tree, and what is written.
* `lineOps` — what a line of a configuration file sets.
* `loadConfig` — `_load_config`.
* `Printed` — a text that is written line by line, and what its lines set.
* `lineOps_of_tri`, `lineOps_of_str` — what the line of a symbol sets.
-/

namespace Kconfig

open Unix Demand

/-! ## Writing -/

/-- `config_prefix` -/
def configPrefix : Text := ['C', 'O', 'N', 'F', 'I', 'G', '_']

/-- Behind the name of a symbol that is `n`. -/
def notSet : Text := " is not set".toList

/-- The line of a symbol in a configuration file, from its type and its value. -/
def valueLine (t : SymType) (x val : Text) : Text :=
  if t.isBoolTristate then
    if val ≠ ['n'] then configPrefix ++ x ++ '=' :: val else '#' :: ' ' :: (configPrefix ++ x ++ notSet)
  else if t = .string then configPrefix ++ x ++ '=' :: '"' :: (escape val ++ ['"'])
  else configPrefix ++ x ++ '=' :: val

/-- What a node of the menu tree is. -/
inductive NodeItem
  | sym (x : Text)
  | choice (k : ℕ)
  | menu
  | comment

/-- The menu tree: a node has a title (`prompt`), a first child (`list`) and a next sibling. -/
inductive Menu
  | nil
  | node (item : NodeItem) (title : Text) (dep visibility : Expr) (list next : Menu)

/-- The state of the walk: the symbols that have been visited (`_visited`), and whether the last thing
written ends a menu (`after_end_comment`). -/
structure Walk where
  visited : List Text
  afterEnd : Bool

namespace Config

variable (K : Config) (u : User)

/-- `config_string` -/
def configString (x : Text) : Query Val Text := do
  let v ← getStr x
  if v.2 then
    return (K.sym x).elim [] fun s => valueLine s.origType x v.1 ++ ['\n']
  else return []

/-- Whether a menu is shown. -/
def shown (dep visibility : Expr) : Query Val Bool := do
  if (← K.exprValue u dep) = .n then return false
  else return decide ((← K.exprValue u visibility) ≠ .n)

/-- The output for a node. -/
def visit (item : NodeItem) (title : Text) (dep visibility : Expr) (w : Walk) :
    Query Val (Text × Walk) :=
  let heading := "\n#\n# ".toList ++ title ++ "\n#\n".toList
  match item with
  | .sym x =>
    if w.visited.contains x then pure ([], w)
    else do
      let w := { w with visited := x :: w.visited }
      let t ← K.configString x
      if t = [] then return ([], w)
      else return (if w.afterEnd then '\n' :: t else t, { w with afterEnd := false })
  | .choice _ => do
    let _ ← K.exprValue u dep
    return ([], w)
  | .menu => do
    if (← K.shown u dep visibility) then return (heading, { w with afterEnd := false })
    else return ([], w)
  | .comment => do
    if (← K.exprValue u dep) ≠ .n then return (heading, { w with afterEnd := false })
    else return ([], w)

/-- The output when the children of a node, if it has any, have been visited. -/
def leave (list : Menu) (item : NodeItem) (title : Text) (dep visibility : Expr) (w : Walk) :
    Query Val (Text × Walk) :=
  match list, item with
  | .node .., .menu => do
    if (← K.shown u dep visibility) then
      return ("# end of ".toList ++ title ++ ['\n'], { w with afterEnd := true })
    else return ([], w)
  | _, _ => pure ([], w)

/-- The walk through the tree. -/
def walk : Menu → Walk → Query Val (Text × Walk)
  | .nil, w => pure ([], w)
  | .node item title dep visibility list next, w => do
    let (t₁, w) ← K.visit u item title dep visibility w
    let (t₂, w) ← walk list w
    let (t₃, w) ← K.leave u list item title dep visibility w
    let (t₄, w) ← walk next w
    return (t₁ ++ t₂ ++ t₃ ++ t₄, w)

/-- `_config_contents`; `top` holds the children of the top node. -/
def configContents (header : Text) (top : Menu) : Query Val Text := do
  return header ++ (← walk K u top ⟨[], false⟩).1

end Config

/-! ## Reading -/

/-- What follows a prefix. -/
def after (p t : Text) : Option Text := if p.isPrefixOf t then some (t.drop p.length) else none

/-- `_set_match` -/
def setMatch (line : Text) : Option (Text × Text) :=
  (after configPrefix line).bind fun t =>
    match t.takeWhile (· ≠ '='), t.dropWhile (· ≠ '=') with
    | c :: name, _ :: val => some (c :: name, val)
    | _, _ => none

/-- `_unset_match` -/
def unsetMatch (line : Text) : Option Text :=
  (after ('#' :: ' ' :: configPrefix) line).bind fun t =>
    if t.takeWhile (· ≠ ' ') ≠ [] ∧ notSet.isPrefixOf (t.dropWhile (· ≠ ' ')) then
      some (t.takeWhile (· ≠ ' '))
    else none

/-- The contents of a quoted string, with the backslashes, from behind the opening quote. -/
def stringBody : Bool → Text → Option Text
  | _, [] => none
  | true, c :: t => (stringBody false t).map (c :: ·)
  | false, c :: t => if c = '"' then some [] else (stringBody (c == '\\') t).map (c :: ·)

/-- `_conf_string_match` -/
def confStringMatch : Text → Option Text
  | '"' :: t => stringBody false t
  | _ => none

/-- `unescape` -/
def unescape : Text → Text
  | [] => []
  | [c] => [c]
  | c :: d :: t => if c = '\\' ∧ d ≠ '\n' then d :: unescape t else c :: unescape (d :: t)

/-- The end of every line is a newline (Python's universal newlines). -/
def newlines : Text → Text
  | [] => []
  | [c] => if c = '\r' then ['\n'] else [c]
  | c :: d :: t =>
    if c = '\r' then if d = '\n' then newlines (d :: t) else '\n' :: newlines (d :: t)
    else c :: newlines (d :: t)

/-- `rstrip` -/
def rstrip (t : Text) : Text := t.rdropWhile isSpaceChar

namespace Config

variable (K : Config)

/-- Whether the first character to the right of the `=` is a value of the type. -/
def acceptsFirst (t : SymType) (c : Char) : Bool :=
  (t = .bool && (c == 'y' || c == 'n')) || (t = .tristate && (c == 'y' || c == 'm' || c == 'n'))

/-- An assignment to a defined symbol.  The mode of a choice is inferred from its symbols. -/
def assignOps (x : Text) (s : Symbol) (val : Text) : List Op :=
  if s.origType.isBoolTristate then
    match val with
    | [] => []
    | c :: _ =>
      if acceptsFirst s.origType c then
        match s.choice with
        | some k =>
          if c ≠ 'n' then [.setMode k (.str [c]), .setValue x (.str [c])]
          else [.setValue x (.str [c])]
        | none => [.setValue x (.str [c])]
      else []
  else if s.origType = .string then
    match confStringMatch val with
    | some raw => [.setValue x (.str (unescape raw))]
    | none => []
  else [.setValue x (.str val)]

/-- What a line sets, without the white space at its end.  A line that is neither an assignment nor
`# … is not set` sets nothing, and neither does one about an undefined symbol. -/
def lineOps (line : Text) : List Op :=
  match setMatch line with
  | some (x, val) => (K.sym x).elim [] fun s => assignOps x s val
  | none =>
    (unsetMatch line).elim [] fun x => (K.sym x).elim [] fun s =>
      if s.origType.isBoolTristate then [.setValue x (.str ['n'])] else []

/-- What a file sets. -/
def fileOps (text : Text) : List Op :=
  (lines (newlines text)).flatMap fun line => K.lineOps (rstrip line)

/-- The settings after an assignment. -/
def apply (g : Settings) (op : Op) : Settings := (K.assign g op).elim g Assigned.settings

/-- Nothing counts as set any more. -/
def clearMarks (g : Settings) : Settings :=
  { g with wasSet := fun _ => false, choiceWasSet := fun _ => false }

/-- Unset the symbols and choices that have not been set. -/
def unsetRest (g : Settings) : Settings :=
  (List.range K.choices.length).foldl
    (fun g k => if g.choiceWasSet k then g else K.apply g (.unsetMode k))
    (K.symbols.foldl (fun g p => if g.wasSet p.1 then g else K.apply g (.unsetValue p.1)) g)

/-- `_load_config` -/
def loadConfig (replace : Bool) (text : Text) (g : Settings) : Settings :=
  if replace then K.unsetRest ((K.fileOps text).foldl K.apply (clearMarks g))
  else (K.fileOps text).foldl K.apply g

end Config

variable {K : Config} {x val line t a b : Text} {s : Symbol} {c : Char} {ops : List Op}

/-! ## Reading what is written -/

theorem after_append (p t : Text) : after p (p ++ t) = some t := by
  simp [after]

/-- A name that can stand in a line. -/
def PlainName (x : Text) : Prop := x ≠ [] ∧ '=' ∉ x ∧ ' ' ∉ x ∧ '\n' ∉ x ∧ '\r' ∉ x

theorem takeWhile_append_cons {p : Char → Bool} (hx : ∀ d ∈ x, p d) (hc : p c = false) :
    (x ++ c :: t).takeWhile p = x := by
  rw [List.takeWhile_append_of_pos hx, List.takeWhile_cons_of_neg (by rw [hc]; decide),
    List.append_nil]

theorem dropWhile_append_cons {p : Char → Bool} (hx : ∀ d ∈ x, p d) (hc : p c = false) :
    (x ++ c :: t).dropWhile p = c :: t := by
  rw [List.dropWhile_append_of_pos hx, List.dropWhile_cons_of_neg (by rw [hc]; decide)]

theorem setMatch_line (hx : PlainName x) :
    setMatch (configPrefix ++ x ++ '=' :: val) = some (x, val) := by
  have hp : ∀ d ∈ x, decide (d ≠ '=') = true := fun d hd =>
    decide_eq_true fun e => hx.2.1 (e ▸ hd)
  rw [setMatch, List.append_assoc, after_append, Option.bind_some,
    takeWhile_append_cons hp (by decide), dropWhile_append_cons hp (by decide)]
  obtain ⟨d, x', rfl⟩ := List.exists_cons_of_ne_nil hx.1
  rfl

theorem setMatch_comment (t : Text) : setMatch ('#' :: t) = none := rfl

theorem unsetMatch_line (hx : PlainName x) :
    unsetMatch ('#' :: ' ' :: (configPrefix ++ x ++ notSet)) = some x := by
  have hp : ∀ d ∈ x, decide (d ≠ ' ') = true := fun d hd =>
    decide_eq_true fun e => hx.2.2.1 (e ▸ hd)
  have hn : notSet = ' ' :: "is not set".toList := by decide
  have h : '#' :: ' ' :: (configPrefix ++ x ++ notSet) =
      ('#' :: ' ' :: configPrefix) ++ (x ++ notSet) := by
    rw [List.append_assoc]
    rfl
  rw [unsetMatch, h, after_append, Option.bind_some, hn, takeWhile_append_cons hp (by decide),
    dropWhile_append_cons hp (by decide), if_pos ⟨hx.1, by simp⟩]

theorem stringBody_escape (t F : Text) :
    stringBody false (escape t ++ '"' :: F) = some (escape t) := by
  induction t with
  | nil => exact if_pos rfl
  | cons c t ih =>
    rw [escape_cons]
    split
    · simp only [List.cons_append, stringBody, beq_self_eq_true, ih]
      rfl
    · next h =>
      obtain ⟨hb, hq⟩ := not_or.mp h
      simp only [List.cons_append, stringBody, if_neg hq, beq_eq_false_iff_ne.mpr hb, ih]
      rfl

theorem unescape_cons (h : c ≠ '\\') (t : Text) : unescape (c :: t) = c :: unescape t := by
  cases t with
  | nil => rfl
  | cons d t => exact if_neg fun e => h e.1

theorem unescape_escape (h : '\n' ∉ t) : unescape (escape t) = t := by
  induction t with
  | nil => rfl
  | cons c t ih =>
    obtain ⟨hc, ht⟩ := List.ne_and_not_mem_of_not_mem_cons h
    rw [escape_cons]
    split
    · rw [unescape, if_pos ⟨rfl, hc.symm⟩, ih ht]
    · next hb => rw [unescape_cons (not_or.mp hb).1, ih ht]

theorem rstrip_concat (h : isSpaceChar c = false) (t : Text) : rstrip (t ++ [c]) = t ++ [c] :=
  List.rdropWhile_concat_neg _ _ _ (by rw [h]; decide)

/-- What follows a text that does not end in white space. -/
theorem rstrip_append (h : rstrip t = t) (hne : t ≠ []) (a : Text) : rstrip (a ++ t) = a ++ t := by
  obtain ⟨t', c, rfl⟩ : ∃ t' c, t = t' ++ [c] :=
    ⟨_, _, (List.dropLast_append_getLast hne).symm⟩
  have hc : isSpaceChar c = false := by
    by_contra hc
    have h' := List.rdropWhile_concat_pos isSpaceChar t' c (Bool.eq_true_of_not_eq_false hc)
    have hlen : (rstrip (t' ++ [c])).length ≤ t'.length := by
      unfold rstrip
      rw [h']
      exact (List.rdropWhile_prefix _ _).length_le
    rw [h, List.length_append, List.length_singleton] at hlen
    omega
  rw [← List.append_assoc, rstrip_concat hc]

namespace Config

/-- What the line of a symbol sets. -/
def valueOps (x : Text) (s : Symbol) (val : Text) : List Op :=
  if s.origType.isBoolTristate then assignOps x s val else [.setValue x (.str val)]

/-- A value that can be written in a line. -/
def PlainValue (t : SymType) (val : Text) : Prop :=
  if t.isBoolTristate then ∃ v, val = triToStr v ∧ (t = .bool → v ≠ .m)
  else '\n' ∉ val ∧ '\r' ∉ val ∧ (t = .string ∨ rstrip val = val)

theorem lineOps_set (hs : K.sym x = some s) (hx : PlainName x) :
    K.lineOps (configPrefix ++ x ++ '=' :: val) = assignOps x s val := by
  rw [lineOps, setMatch_line hx]
  simp only [hs, Option.elim_some]

theorem acceptsFirst_triToStr {ty : SymType} {v : Tri} (ht : ty.isBoolTristate)
    (h : ty = .bool → v ≠ .m) : ∃ c, triToStr v = [c] ∧ acceptsFirst ty c := by
  cases ty <;> cases v <;>
    first | exact ⟨_, rfl, rfl⟩ | exact absurd rfl (h rfl) | cases ht

theorem lineOps_unset (hs : K.sym x = some s) (hx : PlainName x) (ht : s.origType.isBoolTristate) :
    K.lineOps ('#' :: ' ' :: (configPrefix ++ x ++ notSet)) = [.setValue x (.str ['n'])] := by
  rw [lineOps, setMatch_comment, unsetMatch_line hx]
  simp only [hs, Option.elim_some, ht, if_true]

theorem assignOps_n (ht : s.origType.isBoolTristate) :
    assignOps x s ['n'] = [.setValue x (.str ['n'])] := by
  have hacc : acceptsFirst s.origType 'n' = true := by
    cases h : s.origType <;> rw [h] at ht <;> first | rfl | cases ht
  rw [assignOps, if_pos ht]
  simp only [hacc, if_true, ne_eq, not_true_eq_false, if_false]
  split <;> rfl

/-- **The line of a symbol is read back.** -/
theorem lineOps_valueLine (hs : K.sym x = some s) (hx : PlainName x)
    (hv : PlainValue s.origType val) :
    K.lineOps (rstrip (valueLine s.origType x val)) = valueOps x s val := by
  unfold PlainValue at hv
  unfold valueLine valueOps
  split at hv
  · next ht =>
    rw [if_pos ht, if_pos ht]
    obtain ⟨v, rfl, -⟩ := hv
    split
    · have hend : rstrip ('=' :: triToStr v) = '=' :: triToStr v := by cases v <;> decide
      rw [rstrip_append hend (List.cons_ne_nil _ _), lineOps_set hs hx]
    · next hn =>
      have hend : rstrip notSet = notSet := by decide
      rw [not_not.mp hn, assignOps_n ht, ← lineOps_unset hs hx ht]
      exact congrArg _ (rstrip_append hend (by decide) ('#' :: ' ' :: (configPrefix ++ x)))
  · next ht =>
    rw [if_neg ht, if_neg ht]
    obtain ⟨hn, -, hend⟩ := hv
    split
    · next hstr =>
      have hline : rstrip (configPrefix ++ x ++ '=' :: '"' :: (escape val ++ ['"'])) =
          configPrefix ++ x ++ '=' :: '"' :: (escape val ++ ['"']) := by
        have h := rstrip_concat (c := '"') rfl (configPrefix ++ x ++ '=' :: '"' :: escape val)
        simpa only [List.append_assoc, List.cons_append] using h
      rw [hline, lineOps_set hs hx]
      simp only [assignOps, hstr, SymType.isBoolTristate, Bool.false_eq_true, if_false, if_true,
        confStringMatch, stringBody_escape, unescape_escape hn]
    · next hstr =>
      have hend := hend.resolve_left hstr
      have hline : rstrip (configPrefix ++ x ++ '=' :: val) = configPrefix ++ x ++ '=' :: val := by
        by_cases hne : val = []
        · rw [hne]
          exact rstrip_concat rfl _
        · rw [← List.singleton_append, ← List.append_assoc]
          exact rstrip_append hend hne _
      rw [hline, lineOps_set hs hx]
      simp only [assignOps, ht, hstr, Bool.false_eq_true, if_false]

/-! ## Texts that are written line by line -/

/-- The lines of a text, each with its newline. -/
def unlines (ls : List Text) : Text := ls.flatMap (· ++ ['\n'])

/-- A text that is written line by line, and what its lines set. -/
def Printed (K : Config) (t : Text) (ops : List Op) : Prop :=
  ∃ ls, t = unlines ls ∧ (∀ l ∈ ls, '\n' ∉ l ∧ '\r' ∉ l) ∧
    (ls.flatMap fun l => K.lineOps (rstrip l)) = ops

theorem Printed.nil : K.Printed [] [] := ⟨[], rfl, fun _ h => absurd h List.not_mem_nil, rfl⟩

theorem Printed.append {ops' : List Op} (h : K.Printed a ops) (h' : K.Printed b ops') :
    K.Printed (a ++ b) (ops ++ ops') := by
  obtain ⟨ls, rfl, hl, rfl⟩ := h
  obtain ⟨ls', rfl, hl', rfl⟩ := h'
  refine ⟨ls ++ ls', by simp [unlines], fun l hm => ?_, by simp⟩
  exact (List.mem_append.mp hm).elim (hl l) (hl' l)

theorem printed_line (h : '\n' ∉ t ∧ '\r' ∉ t) : K.Printed (t ++ ['\n']) (K.lineOps (rstrip t)) :=
  ⟨[t], by simp [unlines], by simpa using h, by simp⟩

theorem records_line (h : '\n' ∉ a) (b : Text) :
    records (a ++ '\n' :: b) = (a :: (records b).1, (records b).2) := by
  induction a with
  | nil => rfl
  | cons c a ih =>
    obtain ⟨hc, ha⟩ := List.ne_and_not_mem_of_not_mem_cons h
    rw [List.cons_append, records, if_neg hc.symm, ih ha]

theorem records_unlines {ls : List Text} (h : ∀ l ∈ ls, '\n' ∉ l) :
    records (unlines ls) = (ls, []) := by
  induction ls with
  | nil => rfl
  | cons l ls ih =>
    obtain ⟨hl, hls⟩ := List.forall_mem_cons.mp h
    have he : unlines (l :: ls) = l ++ '\n' :: unlines ls := by simp [unlines]
    rw [he, records_line hl, ih hls]

theorem newlines_of_notMem (h : '\r' ∉ t) : newlines t = t := by
  induction t with
  | nil => rfl
  | cons c t ih =>
    obtain ⟨hc, ht⟩ := List.ne_and_not_mem_of_not_mem_cons h
    cases t with
    | nil => rw [newlines, if_neg hc.symm]
    | cons d t => rw [newlines, if_neg hc.symm, ih ht]

/-- **A text that is written line by line is read line by line.** -/
theorem Printed.fileOps_eq (h : K.Printed t ops) : K.fileOps t = ops := by
  obtain ⟨ls, rfl, hl, rfl⟩ := h
  have hr : '\r' ∉ unlines ls := by
    intro hm
    obtain ⟨l, hls, hm⟩ := List.mem_flatMap.mp hm
    rcases List.mem_append.mp hm with hm | hm
    · exact (hl l hls).2 hm
    · exact absurd hm (by decide)
  rw [fileOps, newlines_of_notMem hr, lines, records_unlines fun l hm => (hl l hm).1]
  simp

end Config

end Kconfig
