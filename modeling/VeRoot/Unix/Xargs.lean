import VeRoot.Unix.Lines
import VeRoot.Unix.Machine

/-!
# Words for another command

`xargs` reads words from its standard input and puts them behind a command.  Blanks and
newlines separate the words, quotes and backslashes protect them, and a quote that is open at
the end of a line is an error.  Names that are printed one a line come through as they are
exactly if they need no protection.

## Main definitions

* `xargsStep`, `xargsEnd`, `xargsWords` — the words that are read.
* `Unquoted` — a name that needs no protection.
* `xargsWords_eq_some_iff` — the main result.
-/

namespace Unix

/-- What `xargs` skips in front of a word. -/
def isLeading (c : Char) : Bool := " \t\n\x0b\x0c\r".toList.contains c

/-- A quote or a backslash. -/
def isQuoting (c : Char) : Bool := "'\"\\".toList.contains c

/-- What `xargs` has just read. -/
inductive XargsState
  /-- No word has begun. -/
  | space
  | norm
  /-- It is between two of the quotes `q`. -/
  | quote (q : Char)
  | backslash
  deriving DecidableEq, Repr

/-- One character, where `w` has been read of a word: the words that end there, and what has then
been read of the next one. -/
def xargsStep : XargsState × Text → Char → Option (List Text × XargsState × Text)
  | (.quote q, w), c =>
    if c = '\n' then none
    else if c = q then some ([], .norm, w)
    else some ([], .quote q, w ++ [c])
  | (.backslash, w), c => some ([], .norm, w ++ [c])
  | (s@.space, w), c | (s@.norm, w), c =>
    if s = .space ∧ isLeading c then some ([], .space, [])
    else if c = '\n' then some (if w = [] then [] else [w], .space, [])
    else if isBlank c then some ([w], .space, [])
    else if c = '\\' then some ([], .backslash, w)
    else if isQuoting c then some ([], .quote c, w)
    else some ([], .norm, w ++ [c])

/-- The last word, at the end of the input. -/
def xargsEnd : XargsState × Text → Option (List Text)
  | (.quote _, w) => if w = [] then some [] else none
  | (.space, w) | (.norm, w) | (.backslash, w) => some (if w = [] then [] else [w])

/-- The words that are read, unless there is an error. -/
def xargsWords (t : Text) : Option (List Text) :=
  (emit xargsStep (.space, []) t).bind fun r => (xargsEnd r.2).map (r.1 ++ ·)

/-- Names, one a line. -/
def unlines (ns : List Text) : Text := ns.flatMap (· ++ ['\n'])

/-- The name needs no quotes. -/
def Unquoted (f : Text) : Prop :=
  (∃ c, f.head? = some c ∧ isLeading c = false) ∧
    ∀ c ∈ f, c ≠ '\n' ∧ isBlank c = false ∧ isQuoting c = false

instance : DecidablePred Unquoted := fun f =>
  decidable_of_iff ((f.head?.any fun c => !isLeading c) = true ∧
    ∀ c ∈ f, c ≠ '\n' ∧ isBlank c = false ∧ isQuoting c = false) (by
      cases f <;> simp [Unquoted])

section Xargs

variable {s : XargsState} {w t f : Text} {c : Char} {ns ws : List Text} {p p' : XargsState × Text}
  {r : List Text × XargsState × Text}

/-- Neither in quotes nor behind a backslash. -/
def XargsState.Bare (s : XargsState) : Prop := s = .space ∨ s = .norm

theorem xargsStep_bare (hs : s.Bare) : xargsStep (s, w) c =
    if s = .space ∧ isLeading c then some ([], .space, [])
    else if c = '\n' then some (if w = [] then [] else [w], .space, [])
    else if isBlank c then some ([w], .space, [])
    else if c = '\\' then some ([], .backslash, w)
    else if isQuoting c then some ([], .quote c, w)
    else some ([], .norm, w ++ [c]) := by
  rcases hs with rfl | rfl <;> rfl

theorem xargsEnd_bare (hs : s.Bare) : xargsEnd (s, w) = some (if w = [] then [] else [w]) := by
  rcases hs with rfl | rfl <;> rfl

/-! ## Names that come through -/

/-- An ordinary character. -/
theorem xargsStep_plain (hs : s = .space ∧ isLeading c = false ∨ s = .norm) (nl : c ≠ '\n')
    (blank : isBlank c = false) (plain : isQuoting c = false) :
    xargsStep (s, w) c = some ([], .norm, w ++ [c]) := by
  have ne : c ≠ '\\' := by
    rintro rfl
    cases plain
  have skip : ¬ (s = .space ∧ isLeading c) := by
    rintro ⟨rfl, hc⟩
    rcases hs with ⟨-, hc'⟩ | e
    · simp [hc] at hc'
    · cases e
  rw [xargsStep_bare (hs.imp_left And.left), if_neg skip, if_neg nl, if_neg (by simp [blank]),
    if_neg ne, if_neg (by simp [plain])]

/-- The rest of a name. -/
theorem emit_norm (h : ∀ c ∈ f, c ≠ '\n' ∧ isBlank c = false ∧ isQuoting c = false) :
    emit xargsStep (.norm, w) f = some ([], .norm, w ++ f) := by
  induction f generalizing w with
  | nil => rw [emit, List.append_nil]
  | cons c f ih =>
    obtain ⟨⟨nl, blank, plain⟩, rest⟩ := List.forall_mem_cons.mp h
    exact emit_cons.mpr ⟨[], _, [], xargsStep_plain (.inr rfl) nl blank plain,
      by rw [ih rest, List.append_assoc, List.singleton_append], rfl⟩

/-- **A name that needs no protection** is one word. -/
theorem emit_unquoted (h : Unquoted f) :
    emit xargsStep (.space, []) (f ++ ['\n']) = some ([f], .space, []) := by
  obtain ⟨⟨c, head, space⟩, plain⟩ := h
  cases f with
  | nil => cases head
  | cons d f =>
    obtain rfl : d = c := by simpa using head
    obtain ⟨⟨nl, blank, quoting⟩, rest⟩ := List.forall_mem_cons.mp plain
    have name : emit xargsStep (.space, []) (d :: f) = some ([], .norm, d :: f) :=
      emit_cons.mpr ⟨[], _, [], xargsStep_plain (.inl ⟨rfl, space⟩) nl blank quoting,
        emit_norm rest, rfl⟩
    have newline : emit xargsStep (.norm, d :: f) ['\n'] = some ([d :: f], .space, []) := rfl
    exact emit_trans name newline

theorem emit_unlines (h : ∀ f ∈ ns, Unquoted f) :
    emit xargsStep (.space, []) (unlines ns) = some (ns, .space, []) := by
  induction ns with
  | nil => rfl
  | cons f ns ih =>
    obtain ⟨first, rest⟩ := List.forall_mem_cons.mp h
    exact emit_trans (emit_unquoted first) (ih rest)

theorem xargsWords_unlines (h : ∀ f ∈ ns, Unquoted f) : xargsWords (unlines ns) = some ns := by
  rw [xargsWords, emit_unlines h]
  simp [xargsEnd]

/-! ## Names that do not -/

theorem isLeading_of_isBlank (h : isBlank c = true) : isLeading c = true := by
  have : c = ' ' ∨ c = '\t' := by simpa [isBlank] using h
  rcases this with rfl | rfl <;> decide

theorem sum_countP_word (w : Text) :
    ((if w = [] then [] else [w]).map fun f => f.countP isQuoting).sum = w.countP isQuoting := by
  split_ifs with h
  · rw [h]
    rfl
  · simp

theorem countP_unlines (ns : List Text) :
    (unlines ns).countP isQuoting = (ns.map fun f => f.countP isQuoting).sum := by
  rw [unlines, List.countP_flatMap]
  refine congrArg List.sum (List.map_congr_left fun f _ => ?_)
  rw [Function.comp_apply, List.countP_append]
  rfl

/-- How many quotes the word has that is being read. -/
def held (p : XargsState × Text) : ℕ := p.2.countP isQuoting

/-- Quotes are never added. -/
theorem held_xargsStep_le (h : xargsStep p c = some r) :
    (r.1.map fun f => f.countP isQuoting).sum + held r.2 ≤ held p + [c].countP isQuoting := by
  obtain ⟨s, w⟩ := p
  cases s with
  | quote q =>
    simp only [xargsStep] at h
    split_ifs at h <;> obtain rfl := Option.some.inj h <;> simp [held]
  | backslash =>
    obtain rfl := Option.some.inj h
    simp [held]
  | space | norm =>
    rw [xargsStep_bare (by simp [XargsState.Bare])] at h
    split_ifs at h <;> obtain rfl := Option.some.inj h <;> simp [held]

/-- Outside of quotes one is taken away. -/
theorem held_xargsStep_lt (hs : p.1.Bare) (hc : isQuoting c = true) (h : xargsStep p c = some r) :
    (r.1.map fun f => f.countP isQuoting).sum + held r.2 < held p + [c].countP isQuoting := by
  obtain ⟨s, w⟩ := p
  rw [xargsStep_bare hs] at h
  split_ifs at h <;> obtain rfl := Option.some.inj h <;> simp_all [held]

/-- The others leave it so. -/
theorem bare_xargsStep (hs : p.1.Bare) (hc : isQuoting c = false) (h : xargsStep p c = some r) :
    r.2.1.Bare := by
  obtain ⟨s, w⟩ := p
  have ne : c ≠ '\\' := by
    rintro rfl
    cases hc
  rw [xargsStep_bare hs] at h
  split_ifs at h <;> obtain rfl := Option.some.inj h <;> simp_all [XargsState.Bare]

theorem held_xargsEnd_le (h : xargsEnd p = some ws) :
    (ws.map fun f => f.countP isQuoting).sum ≤ held p := by
  obtain ⟨s, w⟩ := p
  cases s with
  | quote q =>
    simp only [xargsEnd] at h
    split_ifs at h
    obtain rfl := Option.some.inj h
    simp
  | space | norm | backslash =>
    obtain rfl := Option.some.inj h
    exact (sum_countP_word w).le

theorem held_emit_le (h : emit xargsStep p t = some (ws, p')) :
    (ws.map fun f => f.countP isQuoting).sum + held p' ≤ held p + t.countP isQuoting := by
  have le : ∀ p c r, xargsStep p c = some r →
      (r.1.map fun f => f.countP isQuoting).sum + held r.2 ≤ held p + [c].countP isQuoting :=
    fun _ _ _ => held_xargsStep_le
  have count : (t.map fun c => [c].countP isQuoting).sum = t.countP isQuoting := by
    rw [← Function.comp_def (List.countP isQuoting) fun c => [c], ← List.countP_flatMap,
      List.flatMap_singleton']
  rw [← count]
  exact emit_measure le h

/-- **Quotes that are read outside of quotes** are not all written. -/
theorem held_emit_lt (hs : p.1.Bare) (hc : ∃ c ∈ t, isQuoting c = true)
    (h : emit xargsStep p t = some (ws, p')) :
    (ws.map fun f => f.countP isQuoting).sum + held p' < held p + t.countP isQuoting := by
  induction t generalizing p ws with
  | nil => simp at hc
  | cons d t ih =>
    obtain ⟨ws₁, p₁, ws₂, first, rest, rfl⟩ := emit_cons.mp h
    rw [List.map_append, List.sum_append, ← List.singleton_append, List.countP_append]
    cases hd : isQuoting d with
    | true =>
      have lt := held_xargsStep_lt hs hd first
      have le := held_emit_le rest
      dsimp only at lt
      omega
    | false =>
      have le := held_xargsStep_le first
      have bare : p₁.1.Bare := bare_xargsStep hs hd first
      have lt := ih bare (by simpa [hd] using hc) rest
      dsimp only at le
      omega

/-- What has been read of a word needs no quotes. -/
def Clean (p : XargsState × Text) : Prop := p.1 = .space ∧ p.2 = [] ∨ p.1 = .norm ∧ Unquoted p.2

/-- **Without quotes** no word needs any. -/
theorem clean_xargsStep (hp : Clean p) (hc : isQuoting c = false) (h : xargsStep p c = some r) :
    Clean r.2 ∧ ∀ f ∈ r.1, Unquoted f := by
  obtain ⟨s, w⟩ := p
  have ne : c ≠ '\\' := by
    rintro rfl
    cases hc
  rw [xargsStep_bare (hp.imp And.left And.left)] at h
  split_ifs at h with skip nl hw blank quoting
  · obtain rfl := Option.some.inj h
    exact ⟨.inl ⟨rfl, rfl⟩, by simp⟩
  · obtain rfl := Option.some.inj h
    exact ⟨.inl ⟨rfl, rfl⟩, by simp⟩
  · obtain rfl := Option.some.inj h
    refine ⟨.inl ⟨rfl, rfl⟩, ?_⟩
    simpa using (hp.resolve_left fun e => hw e.2).2
  · obtain rfl := Option.some.inj h
    refine ⟨.inl ⟨rfl, rfl⟩, ?_⟩
    simpa using (hp.resolve_left fun e => skip ⟨e.1, isLeading_of_isBlank blank⟩).2
  · simp [hc] at quoting
  · obtain rfl := Option.some.inj h
    have plain : c ≠ '\n' ∧ isBlank c = false ∧ isQuoting c = false :=
      ⟨nl, by simpa using blank, hc⟩
    refine ⟨.inr ⟨rfl, ?_⟩, by simp⟩
    obtain ⟨rfl, rfl⟩ | ⟨-, ⟨d, head, first⟩, hw⟩ := hp
    · exact ⟨⟨c, rfl, by simpa using skip⟩, by simpa using plain⟩
    · refine ⟨⟨d, by simp [List.head?_append, head], first⟩, ?_⟩
      rw [List.forall_mem_append]
      exact ⟨hw, by simpa using plain⟩

theorem unquoted_xargsEnd (hp : Clean p) (h : xargsEnd p = some ws) : ∀ f ∈ ws, Unquoted f := by
  obtain ⟨s, w⟩ := p
  rw [xargsEnd_bare (hp.imp And.left And.left)] at h
  obtain rfl := Option.some.inj h
  split_ifs with hw
  · simp
  · simpa using (hp.resolve_left fun e => hw e.2).2

/-- **Names come through as they are** exactly if they need no quotes. -/
theorem xargsWords_eq_some_iff : xargsWords (unlines ns) = some ns ↔ ∀ f ∈ ns, Unquoted f := by
  constructor
  · intro h
    obtain ⟨⟨ws, p⟩, hp, h⟩ := Option.bind_eq_some_iff.mp h
    obtain ⟨last, hlast, rfl⟩ := Option.map_eq_some_iff.mp h
    have none : ∀ c ∈ unlines (ws ++ last), isQuoting c = false := by
      by_contra quoting
      have lt := held_emit_lt (.inl rfl) (by simpa using quoting) hp
      have le := held_xargsEnd_le hlast
      rw [countP_unlines, List.map_append, List.sum_append] at lt
      simp only [held, List.countP_nil] at lt le
      omega
    obtain ⟨clean, words⟩ : Clean p ∧ ∀ f ∈ ws, Unquoted f := by
      refine emit_invariant ?_ none (.inl ⟨rfl, rfl⟩) hp
      exact fun _ _ _ hc hp => clean_xargsStep hp hc
    exact List.forall_mem_append.mpr ⟨words, unquoted_xargsEnd clean hlast⟩
  · exact xargsWords_unlines

end Xargs

end Unix
