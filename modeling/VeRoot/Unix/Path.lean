import Mathlib.Data.List.Induction
import Mathlib.Data.List.Infix
import Mathlib.Data.Set.BooleanAlgebra
import Mathlib.Data.Set.Disjoint
import Mathlib.Order.CompletePartialOrder

/-!
# Paths

A path is the list of its components, and a component is a list of characters.
`resolve` is what remains of an absolute path without symbolic links once `.` and
`..` are gone.

## Main definitions

* `Text`, `Path` — texts and lists of components.
* `Plain` — a component that names an entry of its directory.
* `components`, `spell` — reading and writing a path.
* `resolve`, `relativeTo` — `realpath` and `realpath --relative-to`.
* `below` — the paths at or below a directory.
* `cut` — `cut -d c -f n` on one line.
-/

namespace Unix

/-- A text. -/
abbrev Text := List Char

/-- What holds of all characters of a text is decided along the text, not over all characters. -/
instance (priority := 1100) (t : Text) (p : Char → Prop) [DecidablePred p] :
    Decidable (∀ c ∈ t, p c) :=
  List.decidableBAll p t

/-- A path, as the list of its components. -/
abbrev Path := List Text

/-- The name of the directory itself. -/
def dot : Text := ['.']

/-- The name of the directory above. -/
def dotdot : Text := ['.', '.']

/-- A component that names an entry of its directory. -/
def Plain (c : Text) : Prop := c ≠ [] ∧ c ≠ dot ∧ c ≠ dotdot ∧ '/' ∉ c

instance (c : Text) : Decidable (Plain c) := inferInstanceAs (Decidable (_ ∧ _))

/-- The components of a written path. -/
def components (t : Text) : Path := t.splitOn '/'

/-- The components, with slashes between them. -/
def spell (p : Path) : Text := ['/'].intercalate p

/-- Walking on from the resolved directory `p` by one component. -/
def walk (p : Path) (c : Text) : Path :=
  if c = [] ∨ c = dot then p else if c = dotdot then p.dropLast else p ++ [c]

/-- The absolute path without `.` and `..`. -/
def resolve (p : Path) : Path := p.foldl walk []

/-- The path to `q` for someone in the directory `p`. -/
def relativeTo : Path → Path → Path
  | c :: p, d :: q => if c = d then relativeTo p q else (c :: p).map (fun _ => dotdot) ++ d :: q
  | p, q => p.map (fun _ => dotdot) ++ q

/-- The paths at or below `p`. -/
def below (p : Path) : Set Path := {q | p <+: q}

/-- `cut -d c -f n`: the `n`-th field of a line, or the whole line when it has no `c`. -/
def cut (c : Char) (n : ℕ) (t : Text) : Text :=
  if c ∈ t then (t.splitOn c).getD (n - 1) [] else t

section Paths

variable {p q r : Path} {c d : Text} {t : Text}

/-! ## Resolving -/

theorem resolve_append (p q : Path) : resolve (p ++ q) = q.foldl walk (resolve p) :=
  List.foldl_append

theorem Plain.walk (h : Plain c) : walk p c = p ++ [c] := by
  simp [Unix.walk, h.1, h.2.1, h.2.2.1]

/-- A plain component goes down by one. -/
theorem Plain.resolve_concat (h : Plain c) : resolve (p ++ [c]) = resolve p ++ [c] := by
  rw [resolve_append]
  exact h.walk

/-- A component that is not plain does not go down. -/
theorem resolve_concat_prefix (hs : '/' ∉ c) (h : ¬ Plain c) : resolve (p ++ [c]) <+: resolve p := by
  rw [resolve_append, List.foldl_cons, List.foldl_nil, walk]
  split_ifs with hn hd
  · exact List.prefix_rfl
  · exact List.dropLast_prefix _
  · rw [not_or] at hn
    exact absurd ⟨hn.1, hn.2, hd, hs⟩ h

/-- Plain components are walked as they stand. -/
theorem foldl_walk (h : ∀ c ∈ q, Plain c) (p : Path) : q.foldl walk p = p ++ q := by
  induction q generalizing p with
  | nil => simp
  | cons c q ih =>
    rw [List.foldl_cons, (h c (by simp)).walk, ih (fun d hd => h d (by simp [hd]))]
    simp

/-- What has no slash in any component resolves to plain components. -/
theorem plain_of_mem_resolve (h : ∀ c ∈ p, '/' ∉ c) : ∀ c ∈ resolve p, Plain c := by
  induction p using List.reverseRecOn with
  | nil => simp [resolve]
  | append_singleton p d ih =>
    have ih := ih fun c hc => h c (by simp [hc])
    rw [resolve_append]
    intro c hc
    simp only [List.foldl_cons, List.foldl_nil, walk] at hc
    split_ifs at hc with he hd
    · exact ih c hc
    · exact ih c (List.mem_of_mem_dropLast hc)
    · rcases List.mem_append.mp hc with hc | hc
      · exact ih c hc
      · obtain rfl := List.mem_singleton.mp hc
        rw [not_or] at he
        exact ⟨he.1, he.2, hd, h c (by simp)⟩

/-! ## Spelling -/

theorem components_of_notMem (h : '/' ∉ t) : components t = [t] := List.splitOn_eq_singleton h

theorem notMem_of_mem_components (h : c ∈ components t) : '/' ∉ c := by
  induction t generalizing c with
  | nil =>
    obtain rfl := List.mem_singleton.mp h
    simp
  | cons x t ih =>
    rw [components, List.splitOn_cons_eq_if_modifyHead] at h
    split_ifs at h with hx
    · rcases List.mem_cons.mp h with rfl | h
      · simp
      · exact ih h
    · obtain ⟨d, ds, hsplit⟩ := List.exists_cons_of_ne_nil (List.splitOn_ne_nil '/' t)
      rw [hsplit, List.modifyHead_cons] at h
      have ih : ∀ c ∈ d :: ds, '/' ∉ c := fun c hc => ih (by rwa [components, hsplit])
      rcases List.mem_cons.mp h with rfl | h
      · simpa [Ne.symm (beq_eq_false_iff_ne.mp (Bool.eq_false_iff.mpr hx))] using ih d (by simp)
      · exact ih c (by simp [h])

theorem spell_components (t : Text) : spell (components t) = t := List.intercalate_splitOn '/'

theorem components_spell (h : ∀ c ∈ p, '/' ∉ c) (hp : p ≠ []) : components (spell p) = p :=
  List.splitOn_intercalate '/' h hp

/-- A written path has the characters of its components, and slashes. -/
theorem mem_spell {a : Char} (ha : a ≠ '/') : a ∈ spell p ↔ ∃ c ∈ p, a ∈ c := by
  induction p with
  | nil => simp [spell]
  | cons c p ih =>
    cases p with
    | nil => simp [spell]
    | cons d p =>
      have : spell (c :: d :: p) = c ++ '/' :: spell (d :: p) := by
        simp [spell, List.intercalate_cons_cons]
      rw [this, List.mem_append, List.mem_cons, ih]
      simp [ha]

theorem notMem_component {a : Char} (ha : a ≠ '/') (h : a ∉ t) : ∀ c ∈ components t, a ∉ c := by
  intro c hc hac
  exact h (spell_components t ▸ (mem_spell ha).mpr ⟨c, hc, hac⟩)

/-- A written absolute path resolves as its components do. -/
theorem resolve_components_spell (h : ∀ c ∈ p, '/' ∉ c) (hp : p ≠ []) :
    resolve (components ('/' :: spell p)) = resolve p := by
  have hcomp : components ('/' :: spell p) = [] :: p := by
    rw [components, ← List.nil_append ('/' :: spell p), List.splitOn_append_cons_self,
      List.splitOn_nil]
    exact congrArg ([[]] ++ ·) (components_spell h hp)
  rw [hcomp, resolve, List.foldl_cons]
  rfl

/-- The fields of a written path are its components, unless there is only one. -/
theorem cut_spell (h : ∀ c ∈ p, '/' ∉ c) (n : ℕ) (hp : 2 ≤ p.length) :
    cut '/' n (spell p) = p.getD (n - 1) [] := by
  have hne : p ≠ [] := by rintro rfl; simp at hp
  have hcomp : (spell p).splitOn '/' = p := components_spell h hne
  have hmem : '/' ∈ spell p := by
    by_contra hno
    have : p = [spell p] := hcomp.symm.trans (components_of_notMem hno)
    rw [this] at hp
    simp at hp
  rw [cut, if_pos hmem, hcomp]

theorem cut_of_notMem {a : Char} (h : a ∉ t) (n : ℕ) : cut a n t = t := if_neg h

/-- What stands before the first separator is the first field. -/
theorem cut_one {a : Char} (h : a ∉ t) (u : Text) : cut a 1 (t ++ a :: u) = t := by
  rw [cut, if_pos (by simp), List.splitOn_append_cons_self, List.splitOn_eq_singleton h]
  rfl

/-! ## Relative paths -/

theorem mem_relativeTo (h : c ∈ relativeTo p q) : c = dotdot ∨ c ∈ q := by
  fun_induction relativeTo p q with
  | case1 p d q ih => exact (ih h).imp_right (List.mem_cons_of_mem _)
  | case2 c' p d q hne =>
    rcases List.mem_append.mp h with h | h
    · obtain ⟨_, -, rfl⟩ := List.mem_map.mp h
      exact .inl rfl
    · exact .inr h
  | case3 p q hno =>
    rcases List.mem_append.mp h with h | h
    · obtain ⟨_, -, rfl⟩ := List.mem_map.mp h
      exact .inl rfl
    · exact .inr h

theorem relativeTo_append_left (r p q : Path) : relativeTo (r ++ p) (r ++ q) = relativeTo p q := by
  induction r with
  | nil => rfl
  | cons c r ih => simpa [relativeTo] using ih

/-- Below a directory that is not on the way to `p`, the relative path goes on. -/
theorem relativeTo_append_right (h : ¬ q ++ [c] <+: p) (r : Path) :
    relativeTo p (q ++ c :: r) = relativeTo p q ++ c :: r := by
  fun_induction relativeTo p q with
  | case1 p d q ih =>
    have : ¬ q ++ [c] <+: p := fun hp => h (by simpa using hp)
    simpa [relativeTo] using ih this
  | case2 c' p d q hne => simp [relativeTo, hne]
  | case3 p q hno =>
    cases p with
    | nil => simp [relativeTo]
    | cons c' p =>
      cases q with
      | cons d q => exact absurd rfl (hno c' p d q rfl)
      | nil =>
        have : c' ≠ c := by rintro rfl; simp at h
        simp [relativeTo, this]

/-! ## Directories -/

theorem below_subset (h : p <+: q) : below q ⊆ below p := fun _ hr => h.trans hr

/-- Two directories share a path exactly if one of them is at or below the other. -/
theorem disjoint_below : Disjoint (below p) (below q) ↔ ¬ p <+: q ∧ ¬ q <+: p := by
  rw [Set.disjoint_left]
  constructor
  · intro h
    exact ⟨fun hp => h hp List.prefix_rfl, fun hq => h List.prefix_rfl hq⟩
  · rintro ⟨hp, hq⟩ r hr hr'
    rcases List.prefix_or_prefix_of_prefix hr hr' with h | h
    · exact hp h
    · exact hq h

end Paths

end Unix
