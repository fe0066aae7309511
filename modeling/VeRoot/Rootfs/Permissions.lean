import VeRoot.Unix.Words
import VeRoot.Unix.Xargs
import Mathlib.Algebra.GroupWithZero.Nat

/-!
# The list of permissions

`rootfs/permissions` joins the lists of the recipe and of the top recipe in one file, and
`permissions.sh` reads it line by line in the root file system.  A line has three fields, a
path, arguments for `find` and a command, but the fields are taken from what `echo` prints of
the line, with `cut`, and the loop ends at the last newline.  A run that fails leaves its list
behind, and the next one appends to it.

## Main definitions

* `PermCmd`, `permission`, `readLoop` — the script.
* `Chroot`, `PermCmd.perform` — what the commands meet, and what they are executed on.
* `entry`, `PermCmd.meant` — what a line stands for.
* `PermLists` — the two lists, and what an earlier run has left.
* `PermLists.applied`, `PermLists.expected` — what the layer executes, and what it should.
* `Regular` — the lines that the script understands.
* `applied_iff` — the main result.
-/

namespace VeRoot

open Unix

/-- A command that the script executes. -/
inductive PermCmd
  /-- `$command $path` -/
  | direct (argv : List Text)
  /-- `find $path $type | xargs $command` -/
  | find (args command : List Text)
  deriving DecidableEq, Repr

/-! ## The script -/

/-- `echo` takes the word for an option. -/
def isEchoOption : Text → Bool
  | '-' :: c :: t => (c :: t).all ['n', 'e', 'E'].contains
  | _ => false

/-- `echo $perm` -/
def echo (perm : Text) : Text := [' '].intercalate ((words perm).dropWhile isEchoOption)

/-- `cut -d c -f n-` -/
def cutFrom (c : Char) (n : ℕ) (t : Text) : Text :=
  if c ∈ t then [c].intercalate ((t.splitOn c).drop (n - 1)) else t

/-- `path=$(echo $perm | cut -d : -f1)` -/
def permPath (perm : Text) : Text := cut ':' 1 (echo perm)

/-- `type=$(echo $perm | cut -d : -f2)` -/
def permType (perm : Text) : Text := cut ':' 2 (echo perm)

/-- `command=$(echo $perm | cut -d : -f3-)` -/
def permCommand (perm : Text) : Text := cutFrom ':' 3 (echo perm)

/-- The loop goes on with the next line. -/
def skips (perm : Text) : Bool :=
  perm.head? == some '#' || permPath perm == [] || permCommand perm == []

/-- The body of the loop, for a line that `read` has taken. -/
def permission (line : Text) : Option PermCmd :=
  let perm := trim line
  if skips perm then none
  else if permType perm = [] then some (.direct (words (permCommand perm) ++ words (permPath perm)))
  else some (.find (words (permPath perm) ++ words (permType perm)) (words (permCommand perm)))

/-- The loop, on what is left of the list.  `k` is where the line begins, `skip` is how much
the last command has read of the list, and a line that does not end is lost.  Each command is
recorded with the place of its line. -/
def readLoop (takes : PermCmd → Text → ℕ) (k : ℕ) : ℕ → Text → Text → List (ℕ × PermCmd)
  | _, _, [] => []
  | skip + 1, line, _ :: t => readLoop takes (k + 1) skip line t
  | 0, line, c :: t =>
    if c = '\n' then
      match permission line with
      | none => readLoop takes (k + line.length + 1) 0 [] t
      | some cmd => (k, cmd) :: readLoop takes (k + line.length + 1) (takes cmd t) [] t
    else readLoop takes k 0 (line ++ [c]) t

/-! ## The root file system -/

/-- What the commands meet in the root file system.  They are programs, or builtins that leave
the variables and the options of the shell alone. -/
structure Chroot where
  /-- The files that `find` finds.  It prints them one a line. -/
  found : List Text → List Text
  /-- How much of the list a command takes away from the loop: what it reads of its standard
  input, or all of it if it ends the shell, as `exit` and `exec` do. -/
  takes : PermCmd → Text → ℕ

/-- What is executed. -/
inductive PermAction
  | direct (argv : List Text)
  /-- The files on which the command is executed, if it is. -/
  | find (args command : List Text) (files : Option (List Text))
  deriving DecidableEq, Repr

/-- `xargs` takes the word for an option of its own. -/
def isOption (w : Text) : Bool := w.head? == some '-'

/-- What becomes of a command. -/
def PermCmd.perform (found : List Text → List Text) : PermCmd → PermAction
  | .direct argv => .direct argv
  | .find args command =>
    .find args command (if command.head?.any isOption then none else xargsWords (unlines (found args)))

/-- What it means: the command is executed on the files that are found. -/
def PermCmd.meant (found : List Text → List Text) : PermCmd → PermAction
  | .direct argv => .direct argv
  | .find args command => .find args command (some (found args))

/-- `xargs` takes neither the command for an option nor a name for something else. -/
def PermCmd.Passes (found : List Text → List Text) : PermCmd → Prop
  | .direct _ => True
  | .find args command =>
    command.head?.any isOption = false ∧ ∀ f ∈ found args, Unquoted f

instance (found : List Text → List Text) : DecidablePred (PermCmd.Passes found)
  | .direct _ => .isTrue trivial
  | .find _ _ => inferInstanceAs (Decidable (_ ∧ _))

/-! ## Entries -/

/-- A text, split at its first colon. -/
def splitColon : Text → Option (Text × Text)
  | [] => none
  | c :: t => if c = ':' then some ([], t) else (splitColon t).map fun x => (c :: x.1, x.2)

/-- The fields of a line: it is split at the first two colons. -/
def fields (l : Text) : Option (Text × Text × Text) :=
  (splitColon l).bind fun x => (splitColon x.2).map fun y => (x.1, y.1, y.2)

/-- **What a line stands for.** -/
def entry (l : Text) : Option PermCmd :=
  if l.head? = some '#' then none
  else
    match fields l with
    | none => none
    | some (path, args, command) =>
      if path = [] ∨ command = [] then none
      else if args = [] then some (.direct (words command ++ words path))
      else some (.find (words path ++ words args) (words command))

/-! ## The lists -/

/-- The shell takes the character as it is. -/
def isPlain (c : Char) : Bool := !"*?[]'\"\\".toList.contains c

/-- The files.  A file that does not exist has no text. -/
structure PermLists where
  /-- `$(ROOTFS)/permissions.list`, as an earlier run has left it that failed. -/
  leftover : Text
  recipe : Text
  top : Text
  /-- The recipe is the top recipe. -/
  same : Bool
  top_eq : same = true → top = recipe
  plain : (leftover ++ recipe ++ top).all isPlain = true

/-- The lines, with the places where they begin. -/
def numbered (k : ℕ) : List Text → List (ℕ × Text)
  | [] => []
  | l :: ls => (k, l) :: numbered (k + l.length + 1) ls

/-- What the lines stand for, by `f`. -/
def each {α : Type*} (f : Text → Option α) (ls : List (ℕ × Text)) : List (ℕ × α) :=
  ls.filterMap fun l => (f l.2).map (l.1, ·)

namespace PermLists

/-- `$(ROOTFS)/permissions.list`, to which the recipe of the layer appends both lists. -/
def listing (s : PermLists) : Text := s.leftover ++ (s.recipe ++ s.top)

/-- What the layer executes. -/
def applied (R : Chroot) (s : PermLists) : List (ℕ × PermAction) :=
  (readLoop R.takes 0 0 [] s.listing).map fun e => (e.1, e.2.perform R.found)

/-- One command for each entry of the recipe's list and, if it is another one, of the list of
the top recipe. -/
def expected (R : Chroot) (s : PermLists) : List (ℕ × PermAction) :=
  each (fun l => (entry l).map (·.meant R.found)) (numbered s.leftover.length (lines s.recipe)) ++
    if s.same then []
    else each (fun l => (entry l).map (·.meant R.found))
      (numbered (s.leftover.length + s.recipe.length) (lines s.top))

/-- Both lists begin on a line of their own. -/
def Joined (s : PermLists) : Prop :=
  (records s.leftover).2 = [] ∧ ((records s.recipe).2 = [] ∨ s.top = [])

/-- No command of the list takes anything away from it. -/
def Quiet (R : Chroot) (s : PermLists) : Prop :=
  ∀ l ∈ (records s.listing).1, ∀ cmd, permission l = some cmd → ∀ u, R.takes cmd u = 0

end PermLists

/-- A line that the script understands.  An entry has no option of `echo` and no comment in
front, and its path and its command are not blank; any other line is skipped. -/
def Regular (l : Text) : Prop :=
  if entry l = none then skips (trim l) = true
  else (trim l).head? ≠ some '#' ∧ (∀ w ∈ (words l).head?, isEchoOption w = false) ∧
    ∀ x ∈ fields l, words x.1 ≠ [] ∧ words x.2.2 ≠ []

instance : DecidablePred Regular := fun l => inferInstanceAs (Decidable (if entry l = none then
  skips (trim l) = true else _))

/-- Nothing is left that is executed, all lines are regular, `xargs` passes on what is found,
the last lines end unless they are no entries, and only a list without entries is read twice. -/
structure PermLists.Clean (found : List Text → List Text) (s : PermLists) : Prop where
  left : ∀ l ∈ (records s.leftover).1, skips (trim l) = true
  regular : ∀ l ∈ (records s.recipe).1 ++ (records s.top).1, Regular l
  passes : ∀ l ∈ (records s.recipe).1 ++ (records s.top).1, ∀ cmd ∈ entry l, cmd.Passes found
  terminated : entry (records s.recipe).2 = none ∧ entry (records s.top).2 = none
  once : s.same = true → ∀ l ∈ (records s.recipe).1, entry l = none

section Permissions

variable {a b t l line p f c out w : Text} {ls ms ws : List Text} {k n : ℕ} {cmd : PermCmd}
  {α : Type*} {x : α} {g h : Text → Option α} {takes : PermCmd → Text → ℕ} {s : PermLists}
  {R : Chroot} {found : List Text → List Text}

/-! ## Fields -/

theorem splitColon_eq_some_iff : splitColon t = some (a, b) ↔ t = a ++ ':' :: b ∧ ':' ∉ a := by
  induction t generalizing a with
  | nil => simp [splitColon]
  | cons d t ih =>
    rw [splitColon]
    split_ifs with hd
    · subst hd
      constructor
      · intro e
        obtain ⟨rfl, rfl⟩ : [] = a ∧ t = b := by simpa using e
        simp
      · rintro ⟨e, ha⟩
        cases a with
        | nil => simpa using e
        | cons d a => exact absurd (by simpa using (List.cons.inj e).1) (List.ne_of_not_mem_cons ha)
    · constructor
      · intro e
        obtain ⟨⟨a', b'⟩, he, e⟩ := Option.map_eq_some_iff.mp e
        obtain ⟨rfl, rfl⟩ : d :: a' = a ∧ b' = b := by simpa using e
        obtain ⟨rfl, ha⟩ := ih.mp he
        exact ⟨rfl, by simp [ha, Ne.symm hd]⟩
      · rintro ⟨e, ha⟩
        cases a with
        | nil => exact absurd (List.cons.inj e).1 hd
        | cons d' a =>
          obtain ⟨rfl, rest⟩ := List.cons.inj e
          rw [ih.mpr ⟨rest, fun hm => ha (List.mem_cons_of_mem _ hm)⟩]
          rfl

theorem fields_eq_some_iff :
    fields l = some (p, f, c) ↔ l = p ++ ':' :: (f ++ ':' :: c) ∧ ':' ∉ p ∧ ':' ∉ f := by
  rw [fields, Option.bind_eq_some_iff]
  constructor
  · rintro ⟨⟨p', r⟩, hp, hr⟩
    obtain ⟨⟨f', c'⟩, hf, e⟩ := Option.map_eq_some_iff.mp hr
    obtain ⟨rfl, rfl, rfl⟩ : p' = p ∧ f' = f ∧ c' = c := by simpa using e
    obtain ⟨rfl, notMem⟩ := splitColon_eq_some_iff.mp hp
    obtain ⟨hr, hf⟩ := splitColon_eq_some_iff.mp hf
    exact ⟨by rw [← hr], notMem, hf⟩
  · rintro ⟨rfl, hp, hf⟩
    refine ⟨(p, f ++ ':' :: c), splitColon_eq_some_iff.mpr ⟨rfl, hp⟩, ?_⟩
    rw [splitColon_eq_some_iff.mpr ⟨rfl, hf⟩]
    rfl

/-- A line with two colons has fields. -/
theorem exists_fields (h : 2 ≤ l.count ':') :
    ∃ p f c, l = p ++ ':' :: (f ++ ':' :: c) ∧ ':' ∉ p ∧ ':' ∉ f := by
  have one : ':' ∈ l := List.count_pos_iff.mp (by omega)
  obtain ⟨p, r, rfl, hp⟩ := List.eq_append_cons_of_mem one
  have two : ':' ∈ r := by
    rw [List.count_append, List.count_eq_zero_of_not_mem hp, List.count_cons_self] at h
    exact List.count_pos_iff.mp (by omega)
  obtain ⟨f, c, rfl, hf⟩ := List.eq_append_cons_of_mem two
  exact ⟨p, f, c, rfl, hp, hf⟩

theorem entry_of_fields (hl : l.head? ≠ some '#') (hf : fields l = some (p, f, c)) (hp : p ≠ [])
    (hc : c ≠ []) : entry l = some (if f = [] then .direct (words c ++ words p)
      else .find (words p ++ words f) (words c)) := by
  rw [entry, if_neg hl, hf]
  simp only [hp, hc, or_self, if_false]
  split_ifs <;> rfl

theorem fields_of_entry (he : entry l = some cmd) : ∃ p f c, fields l = some (p, f, c) ∧
    l.head? ≠ some '#' ∧ p ≠ [] ∧ c ≠ [] := by
  rw [entry] at he
  split_ifs at he with hl
  cases hf : fields l with
  | none => simp [hf] at he
  | some x =>
    obtain ⟨p, f, c⟩ := x
    simp only [hf] at he
    split_ifs at he with h1
    all_goals exact ⟨p, f, c, rfl, hl, fun e => h1 (.inl e), fun e => h1 (.inr e)⟩

/-! ## What `echo` prints -/

@[simp] theorem echo_trim (l : Text) : echo (trim l) = echo l := by rw [echo, words_trim, echo]

theorem echo_eq_tidy (h : ∀ w ∈ (words l).head?, isEchoOption w = false) : echo l = tidy l := by
  rw [echo, tidy]
  cases hw : words l with
  | nil => rfl
  | cons w ws =>
    have : isEchoOption w = false := h w (by simp [hw])
    rw [List.dropWhile_cons_of_neg (by simp [this])]

/-- The fields of a line that ends in a command. -/
theorem cut_fields (hp : ':' ∉ p) (hf : ':' ∉ f) : cut ':' 1 (p ++ ':' :: (f ++ ':' :: c)) = p ∧
    cut ':' 2 (p ++ ':' :: (f ++ ':' :: c)) = f ∧
    cutFrom ':' 3 (p ++ ':' :: (f ++ ':' :: c)) = c := by
  have split : (p ++ ':' :: (f ++ ':' :: c)).splitOn ':' = p :: f :: c.splitOn ':' := by
    rw [List.splitOn_append_cons_self, List.splitOn_append_cons_self,
      List.splitOn_eq_singleton hp, List.splitOn_eq_singleton hf]
    rfl
  refine ⟨cut_one hp _, ?_, ?_⟩
  · rw [cut, if_pos (by simp), split]
    rfl
  · rw [cutFrom, if_pos (by simp), split]
    change [':'].intercalate (c.splitOn ':') = c
    exact List.intercalate_splitOn ':'

/-- **The fields of an entry**, when `echo` takes no word of it for an option. -/
theorem perm_of_fields (ho : ∀ w ∈ (words l).head?, isEchoOption w = false)
    (hl : fields l = some (p, f, c)) : permPath (trim l) = before p ∧
      permType (trim l) = within f ∧ permCommand (trim l) = inner c := by
  obtain ⟨rfl, hp, hf⟩ := fields_eq_some_iff.mp hl
  have colon : isBlank ':' = false := rfl
  rw [permPath, permType, permCommand, echo_trim, echo_eq_tidy ho, tidy_append colon,
    inner_append colon]
  exact cut_fields (notMem_before colon hp) (notMem_within colon hf)

/-- What is printed and is not blank. -/
theorem filter_echo (l : Text) : (echo l).filter (fun c => !isBlank c) =
    ((words l).dropWhile isEchoOption).flatten := by
  have nonblank : ∀ w ∈ (words l).dropWhile isEchoOption, w.filter (fun c => !isBlank c) = w := by
    intro w hw
    rw [List.filter_eq_self]
    intro c hc
    have mem : c ∈ (words l).flatten :=
      List.mem_flatten.mpr ⟨w, (List.dropWhile_sublist _).subset hw, hc⟩
    rw [flatten_words] at mem
    exact (List.mem_filter.mp mem).2
  rw [echo]
  generalize (words l).dropWhile isEchoOption = ws at nonblank
  induction ws with
  | nil => rfl
  | cons w ws ih =>
    have ih := ih fun v hv => nonblank v (List.mem_cons_of_mem w hv)
    cases ws with
    | nil => simpa [List.intercalate] using nonblank w (by simp)
    | cons v vs =>
      rw [List.intercalate_cons_cons, List.filter_append, List.filter_append, ih,
        nonblank w (by simp), List.flatten_cons, List.append_assoc]
      rfl

/-- An option has no colon. -/
theorem colon_notMem_of_isEchoOption (h : isEchoOption w = true) : ':' ∉ w := by
  rw [isEchoOption.eq_def] at h
  split at h
  · intro hm
    rcases List.mem_cons.mp hm with e | hm
    · cases e
    · exact absurd (List.all_eq_true.mp h _ hm) (by decide)
  · cases h

theorem count_echo (l : Text) : (echo l).count ':' = l.count ':' := by
  have keep : ∀ t : Text, t.count ':' = (t.filter fun c => !isBlank c).count ':' := fun t =>
    (List.count_filter rfl).symm
  have none : ((words l).takeWhile isEchoOption).flatten.count ':' = 0 := by
    refine List.count_eq_zero_of_not_mem fun hm => ?_
    obtain ⟨w, hw, hm⟩ := List.mem_flatten.mp hm
    exact colon_notMem_of_isEchoOption (List.mem_takeWhile_imp hw) hm
  rw [keep l, keep, filter_echo, ← flatten_words l]
  conv_rhs => rw [← List.takeWhile_append_dropWhile (p := isEchoOption) (l := words l)]
  rw [List.flatten_append, List.count_append, none, Nat.zero_add]

/-! ## Regular lines -/

theorem permission_eq_none_iff : permission l = none ↔ skips (trim l) = true := by
  rw [permission]
  split_ifs with h <;> simp [h]

theorem permission_of_skips (h : skips (trim l) = false) : permission l =
    some (if permType (trim l) = [] then
        .direct (words (permCommand (trim l)) ++ words (permPath (trim l)))
      else .find (words (permPath (trim l)) ++ words (permType (trim l)))
        (words (permCommand (trim l)))) := by
  rw [permission, if_neg (by simp [h])]
  split_ifs <;> rfl

/-- How many characters of a text are not blank. -/
def weight (t : Text) : ℕ := (t.filter fun c => !isBlank c).length

theorem weight_fields : weight (p ++ ':' :: (f ++ ':' :: c)) =
    weight p + weight f + weight c + 2 := by
  have colon : isBlank ':' = false := rfl
  simp [weight, colon]
  omega

theorem length_flatten_words : (words t).flatten.length = weight t := by rw [flatten_words, weight]

/-- An option in front is lost. -/
theorem weight_echo_lt (hw : (words l).head? = some w) (ho : isEchoOption w = true) :
    weight (echo l) < weight l := by
  have ne : w ≠ [] := by
    rintro rfl
    cases ho
  obtain ⟨ws, hws⟩ : ∃ ws, words l = w :: ws := by
    cases h : words l with
    | nil => simp [h] at hw
    | cons v vs =>
      rw [h] at hw
      exact ⟨vs, by rw [Option.some.inj hw]⟩
  have le : (ws.dropWhile isEchoOption).flatten.length ≤ ws.flatten.length := by
    conv_rhs => rw [← List.takeWhile_append_dropWhile (p := isEchoOption) (l := ws)]
    rw [List.flatten_append, List.length_append]
    exact Nat.le_add_left ..
  rw [weight, filter_echo, ← length_flatten_words, hws, List.dropWhile_cons_of_pos ho,
    List.flatten_cons, List.length_append]
  have := List.length_pos_iff.mpr ne
  omega

/-- The weight of what a command is made of. -/
def PermCmd.weight : PermCmd → ℕ
  | .direct argv => argv.flatten.length
  | .find args command => args.flatten.length + command.flatten.length

theorem weight_ite : (if f = [] then PermCmd.direct (words c ++ words p)
    else .find (words p ++ words f) (words c)).weight = weight p + weight f + weight c := by
  split_ifs with hf
  · subst hf
    simp only [PermCmd.weight, List.flatten_append, List.length_append, length_flatten_words]
    change _ = weight p + 0 + weight c
    omega
  · simp only [PermCmd.weight, List.flatten_append, List.length_append, length_flatten_words]

theorem weight_entry (he : entry l = some cmd) : cmd.weight + 2 = weight l := by
  obtain ⟨p, f, c, hl, head, hp, hc⟩ := fields_of_entry he
  rw [entry_of_fields head hl hp hc] at he
  rw [← Option.some.inj he, weight_ite, (fields_eq_some_iff.mp hl).1, weight_fields]

theorem weight_permission (hl : 2 ≤ l.count ':') (he : permission l = some cmd) :
    cmd.weight + 2 = weight (echo l) := by
  have skip : skips (trim l) = false := by
    by_contra hs
    rw [permission_eq_none_iff.mpr (by simpa using hs)] at he
    cases he
  rw [← count_echo] at hl
  obtain ⟨p, f, c, hout, hp, hf⟩ := exists_fields hl
  obtain ⟨h1, h2, h3⟩ := cut_fields (c := c) hp hf
  rw [permission_of_skips skip, permPath, permType, permCommand, echo_trim, hout, h1, h2, h3] at he
  rw [← Option.some.inj he, weight_ite, hout, weight_fields]

/-- **An entry**: the script does what it says just when the line is regular. -/
theorem permission_eq_iff_of_entry (he : entry l = some cmd) :
    permission l = some cmd ↔ Regular l := by
  obtain ⟨p, f, c, hl, head, hp, hc⟩ := fields_of_entry he
  have he' := he
  rw [entry_of_fields head hl hp hc] at he'
  rw [Regular, if_neg (by simp [he])]
  constructor
  · intro perm
    have colons : 2 ≤ l.count ':' := by
      rw [(fields_eq_some_iff.mp hl).1]
      simp
      omega
    have ho : ∀ w ∈ (words l).head?, isEchoOption w = false := by
      intro w hw
      by_contra ho
      have lt := weight_echo_lt hw (by simpa using ho)
      rw [← weight_entry he, ← weight_permission colons perm] at lt
      exact lt.false
    have skip : skips (trim l) = false := by
      by_contra hs
      rw [permission_eq_none_iff.mpr (by simpa using hs)] at perm
      cases perm
    obtain ⟨h1, h2, h3⟩ := perm_of_fields ho hl
    simp only [skips, h1, h3, Bool.or_eq_false_iff, beq_eq_false_iff_ne, ne_eq,
      before_eq_nil_iff, inner_eq_nil_iff] at skip
    refine ⟨skip.1.1, ho, fun x hx => ?_⟩
    rw [hl] at hx
    cases hx
    exact ⟨skip.1.2, skip.2⟩
  · rintro ⟨comment, ho, blank⟩
    obtain ⟨h1, h2, h3⟩ := perm_of_fields ho hl
    obtain ⟨bp, bc⟩ := blank _ hl
    have skip : skips (trim l) = false := by
      simp only [skips, h1, h3, Bool.or_eq_false_iff, beq_eq_false_iff_ne, ne_eq,
        before_eq_nil_iff, inner_eq_nil_iff]
      exact ⟨⟨comment, bp⟩, bc⟩
    rw [permission_of_skips skip, h1, h2, h3, ← he']
    simp only [within_eq_nil_iff, words_before, words_within, words_inner]

/-- **Regular lines** are the lines that do what they say. -/
theorem permission_eq_entry_iff : permission l = entry l ↔ Regular l := by
  cases he : entry l with
  | none => rw [permission_eq_none_iff, Regular, if_pos he]
  | some cmd => exact permission_eq_iff_of_entry he

/-- A line without a colon is read as each of its fields. -/
theorem skips_of_notMem (h : ':' ∉ l) :
    skips (trim l) = true ↔ (trim l).head? = some '#' ∨ ∀ w ∈ words l, isEchoOption w = true := by
  have out : ':' ∉ echo l := by
    rw [← List.count_eq_zero, count_echo]
    exact List.count_eq_zero_of_not_mem h
  have nil : echo l = [] ↔ ∀ w ∈ words l, isEchoOption w = true := by
    rw [← List.dropWhile_eq_nil_iff]
    constructor
    · intro h
      cases hd : (words l).dropWhile isEchoOption with
      | nil => rfl
      | cons w ws =>
        have mem : w ∈ words l := (List.dropWhile_sublist isEchoOption).subset (by simp [hd])
        have := filter_echo l
        rw [h, hd] at this
        simp [ne_nil_of_mem_words mem] at this
    · intro h
      rw [echo, h]
      rfl
  rw [skips, permPath, permCommand, echo_trim, cut_of_notMem out, cutFrom, if_neg out, ← nil]
  simp

/-! ## The loop -/

/-- What has been read of a line, in front of the lines that follow. -/
def glue (line : Text) : List Text → List Text
  | [] => []
  | l :: ls => (line ++ l) :: ls

@[simp] theorem glue_nil (ls : List Text) : glue [] ls = ls := by cases ls <;> rfl

theorem records_cons_of_ne {d : Char} (hd : d ≠ '\n') :
    (records (d :: t)).1 = glue [d] (records t).1 := by
  rw [records, if_neg hd]
  cases records t with
  | mk ls r => cases ls <;> rfl

/-- The lines of a text that is appended. -/
theorem records_append (a b : Text) :
    (records (a ++ b)).1 = (records a).1 ++ glue (records a).2 (records b).1 := by
  induction a with
  | nil => simp [records]
  | cons d a ih =>
    by_cases hd : d = '\n'
    · simp [records, hd, ih]
    · rw [List.cons_append, records_cons_of_ne hd, ih, records, if_neg hd]
      obtain ⟨ls, r⟩ := records a
      cases ls with
      | nil => cases (records b).1 <;> rfl
      | cons l ls => rfl

theorem each_of_none (hg : g l = none) : each g (numbered k (l :: ls)) =
    each g (numbered (k + l.length + 1) ls) := by
  rw [numbered, each, List.filterMap_cons_none (by simp [hg]), each]

theorem each_of_some (hg : g l = some x) : each g (numbered k (l :: ls)) =
    (k, x) :: each g (numbered (k + l.length + 1) ls) := by
  rw [numbered, each, List.filterMap_cons_some (b := (k, x)) (by simp [hg]), each]

/-- **The loop** reads the lines that end, unless a command takes something away. -/
theorem readLoop_eq (k : ℕ) (line t : Text)
    (quiet : ∀ l ∈ glue line (records t).1, ∀ cmd, permission l = some cmd → ∀ u, takes cmd u = 0) :
    readLoop takes k 0 line t = each permission (numbered k (glue line (records t).1)) := by
  induction t generalizing k line with
  | nil => rfl
  | cons d t ih =>
    by_cases hd : d = '\n'
    · have split : (records (d :: t)).1 = [] :: (records t).1 := by simp [records, hd]
      rw [split, glue, List.append_nil] at quiet ⊢
      obtain ⟨first, rest⟩ := List.forall_mem_cons.mp quiet
      rw [← glue_nil (records t).1] at rest
      rw [readLoop, if_pos hd]
      cases hp : permission line with
      | none => rw [each_of_none hp, ih _ _ rest, glue_nil]
      | some cmd =>
        rw [each_of_some hp, ← glue_nil (records t).1, ← ih _ _ rest, ← first cmd hp t]
    · have same : glue line (records (d :: t)).1 = glue (line ++ [d]) (records t).1 := by
        rw [records_cons_of_ne hd]
        cases (records t).1 <;> simp [glue]
      rw [same] at quiet ⊢
      rw [readLoop, if_neg hd, ih _ _ quiet]

/-! ## Lists -/

theorem length_records (t : Text) :
    t.length = (((records t).1).map fun l => l.length + 1).sum + (records t).2.length := by
  induction t with
  | nil => rfl
  | cons d t ih =>
    rw [records]
    split_ifs
    · simp only [List.map_cons, List.sum_cons, List.length_cons, List.length_nil, ih]
      omega
    · revert ih
      rcases records t with ⟨_ | ⟨l, ls⟩, r⟩
      · intro ih
        simpa using ih
      · intro ih
        simp only [List.length_cons, List.map_cons, List.sum_cons] at ih ⊢
        omega

theorem numbered_append (k : ℕ) (ls ms : List Text) : numbered k (ls ++ ms) =
    numbered k ls ++ numbered (k + (ls.map fun l => l.length + 1).sum) ms := by
  induction ls generalizing k with
  | nil => rfl
  | cons l ls ih =>
    rw [List.cons_append, numbered, ih, numbered, List.map_cons, List.sum_cons, List.cons_append]
    congr 3
    omega

theorem each_append (g : Text → Option α) (xs ys : List (ℕ × Text)) :
    each g (xs ++ ys) = each g xs ++ each g ys := List.filterMap_append

theorem map_each {β : Type*} (f : α → β) (xs : List (ℕ × Text)) :
    (each g xs).map (fun e => (e.1, f e.2)) = each (fun l => (g l).map f) xs := by
  rw [each, each, List.map_filterMap]
  congr 1
  funext l
  simp [Function.comp_def]

theorem le_of_mem_each (h : (n, x) ∈ each g (numbered k ls)) : k ≤ n := by
  induction ls generalizing k with
  | nil => cases h
  | cons l ls ih =>
    cases hg : g l with
    | none =>
      rw [each_of_none hg] at h
      have := ih h
      omega
    | some cmd =>
      rw [each_of_some hg] at h
      rcases List.mem_cons.mp h with e | h
      · exact (Prod.mk.inj e).1.ge
      · have := ih h
        omega

theorem lt_of_mem_each (h : (n, x) ∈ each g (numbered k ls)) :
    n < k + (ls.map fun l => l.length + 1).sum := by
  induction ls generalizing k with
  | nil => cases h
  | cons l ls ih =>
    rw [List.map_cons, List.sum_cons]
    cases hg : g l with
    | none =>
      rw [each_of_none hg] at h
      have := ih h
      omega
    | some cmd =>
      rw [each_of_some hg] at h
      rcases List.mem_cons.mp h with e | h
      · rw [(Prod.mk.inj e).1]
        omega
      · have := ih h
        omega

theorem each_eq_nil_iff : each g (numbered k ls) = [] ↔ ∀ l ∈ ls, g l = none := by
  induction ls generalizing k with
  | nil => simp [numbered, each]
  | cons l ls ih =>
    cases hg : g l with
    | none => rw [each_of_none hg, ih, List.forall_mem_cons, and_iff_right hg]
    | some cmd => simp [each_of_some hg, hg]

/-- The places tell which command belongs to which line. -/
theorem each_eq_each_append_iff : each g (numbered k ls) = each h (numbered k (ls ++ ms)) ↔
    (∀ l ∈ ls, g l = h l) ∧ ∀ l ∈ ms, h l = none := by
  induction ls generalizing k with
  | nil =>
    rw [List.nil_append, ← each_eq_nil_iff (k := k)]
    exact ⟨fun e => ⟨by simp, e.symm⟩, fun e => e.2.symm⟩
  | cons l ls ih =>
    have later : ∀ {g : Text → Option α} {ls x},
        (k, x) ∉ each g (numbered (k + l.length + 1) ls) := by
      intro g ls x hm
      have := le_of_mem_each hm
      omega
    rw [List.cons_append, List.forall_mem_cons]
    cases hg : g l with
    | none =>
      cases hh : h l with
      | none => rw [each_of_none hg, each_of_none hh, ih]; simp
      | some cmd =>
        rw [each_of_none hg, each_of_some hh]
        have : each g (numbered (k + l.length + 1) ls) ≠
            (k, cmd) :: each h (numbered (k + l.length + 1) (ls ++ ms)) := by
          intro e
          exact later (e ▸ List.mem_cons_self)
        simp [this]
    | some cmd =>
      cases hh : h l with
      | none =>
        rw [each_of_some hg, each_of_none hh]
        have : (k, cmd) :: each g (numbered (k + l.length + 1) ls) ≠
            each h (numbered (k + l.length + 1) (ls ++ ms)) := by
          intro e
          exact later (e ▸ List.mem_cons_self)
        simp [this]
      | some cmd' =>
        rw [each_of_some hg, each_of_some hh, List.cons.injEq, ih]
        simp [and_assoc]

/-- What comes before all the others stands apart. -/
theorem each_append_eq_iff {xs ys : List (ℕ × α)} (hn : n = k + (ls.map fun l => l.length + 1).sum)
    (hy : ∀ e ∈ ys, n ≤ e.1) :
    each g (numbered k ls) ++ xs = ys ↔ (∀ l ∈ ls, g l = none) ∧ xs = ys := by
  rw [← each_eq_nil_iff (k := k)]
  constructor
  · intro e
    cases first : each g (numbered k ls) with
    | nil => exact ⟨rfl, by rwa [first] at e⟩
    | cons z zs =>
      have lt := lt_of_mem_each (show (z.1, z.2) ∈ each g (numbered k ls) by simp [first])
      have le := hy z (by rw [← e, first]; simp)
      omega
  · rintro ⟨nil, rfl⟩
    rw [nil, List.nil_append]

/-! ## What is executed -/

theorem perform_eq_meant_iff {c d : PermCmd} :
    c.perform found = d.meant found ↔ c = d ∧ d.Passes found := by
  cases c with
  | direct argv => cases d <;> simp [PermCmd.perform, PermCmd.meant, PermCmd.Passes]
  | find args command =>
    cases d with
    | direct argv => simp [PermCmd.perform, PermCmd.meant]
    | find args' command' =>
      simp only [PermCmd.perform, PermCmd.meant, PermAction.find.injEq, PermCmd.find.injEq,
        PermCmd.Passes, and_assoc]
      refine and_congr_right ?_
      rintro rfl
      refine and_congr_right ?_
      rintro rfl
      rw [← xargsWords_eq_some_iff]
      cases command.head?.any isOption <;> simp

/-- **A line does what it says** if it is regular and what is found passes through `xargs`. -/
theorem perform_eq_meant_entry_iff :
    (permission l).map (·.perform found) = (entry l).map (·.meant found) ↔
      Regular l ∧ ∀ cmd ∈ entry l, cmd.Passes found := by
  rw [← permission_eq_entry_iff]
  cases hp : permission l with
  | none =>
    cases he : entry l <;> simp
  | some c =>
    cases he : entry l with
    | none => simp
    | some d => simp [perform_eq_meant_iff]

/-! ## The layer -/

/-- A line that does not end is read as an entry, or it is none. -/
theorem entry_last : (∀ l ∈ (if (records t).2 = [] then [] else [(records t).2]), entry l = none) ↔
    entry (records t).2 = none := by
  split_ifs with h
  · simp [h, show entry [] = none from rfl]
  · simp

/-- The part of the list that this run appends. -/
theorem each_eq_expected_iff (hs : (records s.recipe).2 = [] ∨ s.top = []) :
    each (fun l => (permission l).map (·.perform R.found))
        (numbered s.leftover.length (records (s.recipe ++ s.top)).1) = s.expected R ↔
      (∀ l ∈ (records s.recipe).1 ++ (records s.top).1,
        Regular l ∧ ∀ cmd ∈ entry l, cmd.Passes R.found) ∧
      (entry (records s.recipe).2 = none ∧ entry (records s.top).2 = none) ∧
      (s.same = true → ∀ l ∈ (records s.recipe).1, entry l = none) := by
  -- the lines that are executed, and the lines that do not end
  have does : ∀ ls : List Text, (∀ l ∈ ls, (permission l).map (·.perform R.found) =
      (entry l).map (·.meant R.found)) ↔
      ∀ l ∈ ls, Regular l ∧ ∀ cmd ∈ entry l, cmd.Passes R.found := fun ls =>
    forall₂_congr fun _ _ => perform_eq_meant_entry_iff
  rw [PermLists.expected]
  rcases hs with rest | top
  · have length := length_records s.recipe
    rw [rest, List.length_nil, Nat.add_zero] at length
    rw [records_append, rest, glue_nil, lines, if_pos rest, List.append_nil]
    cases same : s.same with
    | true =>
      rw [if_pos rfl, List.append_nil, eq_comm, each_eq_each_append_iff, s.top_eq same]
      constructor
      · rintro ⟨eqs, silent⟩
        refine ⟨fun l hl => ?_, ⟨rfl, by rw [rest]; rfl⟩, fun _ l hl => ?_⟩
        · exact (does _).mp (fun l hl => (eqs l hl).symm) l (by simpa using hl)
        · have := eqs l hl
          rw [silent l hl] at this
          simpa using this
      · rintro ⟨regular, -, once⟩
        have eqs := (does _).mpr fun l hl => regular l (List.mem_append_left _ hl)
        refine ⟨fun l hl => (eqs l hl).symm, fun l hl => (eqs l hl).trans ?_⟩
        rw [once rfl l hl, Option.map_none]
    | false =>
      rw [if_neg (by simp), length, ← each_append, ← numbered_append, lines, ← List.append_assoc]
      refine each_eq_each_append_iff.trans ?_
      simp only [does, Option.map_eq_none_iff, entry_last, Bool.false_eq_true, false_implies,
        and_true]
      refine and_congr_right fun _ => ?_
      exact (and_iff_right rfl).symm
  · have none : (if s.same = true then [] else
        each (fun l => (entry l).map (·.meant R.found))
          (numbered (s.leftover.length + s.recipe.length) (lines []))) = [] := by
      split_ifs <;> rfl
    rw [top, List.append_nil, none, List.append_nil, lines]
    refine each_eq_each_append_iff.trans ?_
    simp only [does, Option.map_eq_none_iff, entry_last]
    rw [show (records []).1 = [] from rfl, List.append_nil]
    refine and_congr_right fun _ => ?_
    constructor
    · intro last
      refine ⟨⟨last, rfl⟩, fun same => ?_⟩
      rw [← s.top_eq same, top]
      simp [records]
    · exact fun h => h.1.1

/-- **What an earlier run has left comes first**, and stands for nothing. -/
theorem applied_eq_expected_iff (quiet : s.Quiet R) (hs : (records s.leftover).2 = []) :
    s.applied R = s.expected R ↔ (∀ l ∈ (records s.leftover).1, permission l = none) ∧
      each (fun l => (permission l).map (·.perform R.found))
        (numbered s.leftover.length (records (s.recipe ++ s.top)).1) = s.expected R := by
  have length := length_records s.leftover
  rw [hs, List.length_nil, Nat.add_zero] at length
  have place : ∀ e ∈ s.expected R, s.leftover.length ≤ e.1 := by
    intro e he
    rcases List.mem_append.mp he with he | he
    · exact le_of_mem_each he
    · split_ifs at he
      · cases he
      · exact (Nat.le_add_right ..).trans (le_of_mem_each he)
  rw [PermLists.applied, readLoop_eq _ _ _ (by rwa [glue_nil]), glue_nil, map_each,
    PermLists.listing, records_append, hs, glue_nil, numbered_append, each_append,
    Nat.zero_add, ← length, each_append_eq_iff (by rw [Nat.zero_add, ← length]) place]
  simp only [Option.map_eq_none_iff]

/-- A line without a colon is executed, unless it is blank or a comment. -/
theorem not_regular_of_notMem (h : ':' ∉ l) (comment : (trim l).head? ≠ some '#')
    (hw : w ∈ words l) (ho : isEchoOption w = false) : ¬ Regular l := by
  have none : entry l = none := by
    by_contra he
    obtain ⟨cmd, he⟩ := Option.ne_none_iff_exists'.mp he
    obtain ⟨p, f, c, hl, _⟩ := fields_of_entry he
    rw [(fields_eq_some_iff.mp hl).1] at h
    simp at h
  rw [Regular, if_pos none, skips_of_notMem h]
  rintro (e | all)
  · exact comment e
  · simp [all w hw] at ho

/-- What a command takes away is not executed. -/
theorem readLoop_of_takes (h : t.length ≤ n) : readLoop takes k n line t = [] := by
  induction t generalizing k n with
  | nil => cases n <;> rfl
  | cons d t ih =>
    cases n with
    | zero => cases h
    | succ n => exact ih (Nat.le_of_succ_le_succ h)

/-- **What a run has left that failed is executed again.** -/
theorem not_applied_of_leftover (quiet : s.Quiet R) (hs : (records s.leftover).2 = [])
    (hl : l ∈ (records s.leftover).1) (hp : permission l = some cmd) :
    s.applied R ≠ s.expected R := by
  intro eq
  have skip := ((applied_eq_expected_iff quiet hs).mp eq).1 l hl
  rw [hp] at skip
  cases skip

/-- The first entry of the second list is lost in a line of the first one. -/
theorem not_applied_of_merged (quiet : s.Quiet R) (left : (records s.leftover).2 = [])
    (hs : s.same = false) (rest : (records s.recipe).2 ≠ []) (hl : lines s.top = l :: ls)
    (he : entry l = some cmd) : s.applied R ≠ s.expected R := by
  intro eq
  have mem : (s.leftover.length + s.recipe.length, cmd.meant R.found) ∈ s.expected R := by
    rw [PermLists.expected, if_neg (by simp [hs]), hl, each_of_some (x := cmd.meant R.found)
      (by simp [he])]
    simp
  have before := length_records s.leftover
  have size := length_records s.recipe
  have pos := List.length_pos_iff.mpr rest
  rw [left, List.length_nil, Nat.add_zero] at before
  rw [← eq, PermLists.applied, readLoop_eq _ _ _ (by rwa [glue_nil]), glue_nil, map_each,
    PermLists.listing, records_append, left, glue_nil, records_append, numbered_append,
    numbered_append, each_append, each_append, Nat.zero_add, ← before] at mem
  rcases List.mem_append.mp mem with hm | hm
  · have := lt_of_mem_each hm
    omega
  rcases List.mem_append.mp hm with hm | hm
  · have := lt_of_mem_each hm
    omega
  · -- the line that both lists share begins before the place, and the next one behind it
    cases hb : (records s.top).1 with
    | nil =>
      rw [hb] at hm
      cases hm
    | cons b bs =>
      rw [hb, glue] at hm
      cases hp : (permission ((records s.recipe).2 ++ b)).map (·.perform R.found) with
      | none =>
        rw [each_of_none hp, List.length_append] at hm
        have := le_of_mem_each hm
        omega
      | some c =>
        rw [each_of_some hp, List.length_append] at hm
        rcases List.mem_cons.mp hm with e | hm
        · have := (Prod.mk.inj e).1
          omega
        · have := le_of_mem_each hm
          omega

/-- A root file system with two files in `/root`, where no command reads the list. -/
def rootChroot : Chroot := ⟨fun _ => ["/root/.bashrc".toList, "/root/.profile".toList], fun _ _ => 0⟩

/-- The entries of the recipe's list, and no other list. -/
def rootEntry : PermLists :=
  ⟨[], "/root::chmod 600\n/root:-type f:chmod 644\n".toList, [], false, by decide, by decide⟩

/-- An entry without its newline is lost. -/
def rootEntryCut : PermLists := ⟨[], "/root::chmod 600".toList, [], false, by decide, by decide⟩

end Permissions

end VeRoot
