import VeRoot.Unix.Lines
import Mathlib.Data.List.TakeWhile

/-!
# Growing a partition

On the first flash `bootinit.sh` and `securebootinit.sh` dump the partition table, look up
the number of the line with the partition, remove the size in that line and write the table
back.  The line is looked up by a `grep` for the name of the partition anywhere in a line,
and all the numbers found go into one sed program.

## Main definitions

* `DeviceNode`, `PartitionEntry`, `Dump` — what `sfdisk -d` prints.
* `Dump.grown` — the table with the size of one partition left out.
* `expand` — the edits of the script.
* `expand_eq_grown_iff` — the main result.
-/

namespace VeRoot

open Unix

/-! ## The dump -/

/-- A character that device names have. -/
def isDeviceChar (c : Char) : Bool :=
  c.isAlphanum || ['/', '-', '_', '.', ':', '+', '@', '#', '='].contains c

/-- The name of a device: an absolute path with such characters. -/
structure DeviceNode where
  text : Text
  absolute : text.head? = some '/' := by decide
  chars : text.all isDeviceChar = true := by decide
  deriving DecidableEq

/-- A number in a field of width 12. -/
def padded (n : ℕ) : Text :=
  List.replicate (12 - (Nat.toDigits 10 n).length) ' ' ++ Nat.toDigits 10 n

/-- One partition. -/
structure PartitionEntry where
  node : DeviceNode
  start : ℕ
  size : ℕ
  /-- ` type=…` and what follows. -/
  rest : Text

/-- What stands before the size. -/
def PartitionEntry.front (p : PartitionEntry) : Text :=
  p.node.text ++ " : start=".toList ++ padded p.start ++ ", ".toList

/-- The line of a partition. -/
def PartitionEntry.line (p : PartitionEntry) : Text :=
  p.front ++ ("size=".toList ++ padded p.size ++ ',' :: p.rest)

/-- The line without the size. -/
def PartitionEntry.sizeless (p : PartitionEntry) : Text := p.front ++ p.rest

/-- A line of the header. -/
structure HeaderField where
  key : Text
  value : Text
  colon : ':' ∉ key := by decide

/-- `label: gpt`, for instance. -/
def HeaderField.line (h : HeaderField) : Text := h.key ++ ':' :: h.value

/-- What `sfdisk -d` prints. -/
structure Dump where
  header : List HeaderField
  parts : List PartitionEntry
  nodup : (parts.map PartitionEntry.node).Nodup

/-- The lines of a dump: an empty one stands below the header. -/
def Dump.lines (d : Dump) : List Text :=
  d.header.map HeaderField.line ++ [] :: d.parts.map PartitionEntry.line

/-- The header lines that the script drops. -/
def HeaderField.isLba (h : HeaderField) : Bool :=
  h.key == "first-lba".toList || h.key == "last-lba".toList

/-- **The table in which the partition `n` may grow**: its size is left out, and so are the
limits of the device. -/
def Dump.grown (d : Dump) (n : DeviceNode) : List Text :=
  (d.header.filter fun h => !h.isLba).map HeaderField.line ++
    [] :: d.parts.map fun p => if p.node = n then p.sizeless else p.line

/-! ## The script -/

/-- `size=[ \t]*[0-9]*,` at the head of a text, and what follows it. -/
def sizeField (t : Text) : Option Text :=
  if "size=".toList <+: t then
    match ((t.drop 5).dropWhile isBlank).dropWhile Char.isDigit with
    | ',' :: r => some r
    | _ => none
  else none

/-- `sed -i '/^key:/ d'` -/
def deleteLines (key : Text) (ls : List Text) : List Text := ls.filter fun l => ¬ key ++ [':'] <+: l

/-- The edits of the script on the dump, with `expand` set to `n`. -/
def expand (n : DeviceNode) (dump : List Text) : List Text :=
  let linenum := grepN (occurs n.text) dump
  let resized := sedI (splice (substitute sizeField []) linenum) dump
  deleteLines "last-lba".toList (deleteLines "first-lba".toList resized)

section Expand

variable {d : Dump} {n : DeviceNode} {p : PartitionEntry} {h : HeaderField} {t r word l : Text}
  {c : Char} {k : ℕ}

/-! ## Lines that are dropped -/

theorem not_prefix_of_head (hw : word.head? = some c) (hl : l.head? ≠ some c) : ¬ word <+: l := by
  rintro ⟨s, rfl⟩
  cases word with
  | nil => simp at hw
  | cons a w => exact hl (by simpa using hw)

theorem head_front (p : PartitionEntry) (t : Text) : (p.front ++ t).head? = some '/' := by
  have := p.node.absolute
  cases hn : p.node.text with
  | nil => simp [hn] at this
  | cons a w => simpa [PartitionEntry.front, hn] using this

theorem head_line : p.line.head? = some '/' := head_front ..

theorem head_sizeless : p.sizeless.head? = some '/' := head_front ..

/-- A header line is dropped by its key. -/
theorem prefix_headerLine (hk : ':' ∉ word) : word ++ [':'] <+: h.line ↔ h.key = word := by
  have take : ∀ u v : Text, ':' ∉ u →
      (u ++ ':' :: v).takeWhile (fun c => decide (c ≠ ':')) = u := by
    intro u v hu
    have all : ∀ c ∈ u, decide (c ≠ ':') = true := by
      intro c hc
      exact decide_eq_true fun e => hu (e ▸ hc)
    rw [List.takeWhile_append_of_pos all]
    simp
  constructor
  · rintro ⟨s, hs⟩
    have e : word ++ ':' :: s = h.key ++ ':' :: h.value := by simpa [HeaderField.line] using hs
    have := congrArg (List.takeWhile fun c => decide (c ≠ ':')) e
    rw [take _ _ hk, take _ _ h.colon] at this
    exact this.symm
  · rintro rfl
    exact ⟨h.value, by simp [HeaderField.line]⟩

/-- The lines of a dump without one key of the header. -/
theorem deleteLines_eq {hs : List HeaderField} {ls : List Text} (hk : ':' ∉ word)
    (hw : (word ++ [':']).head? ≠ some '/') (hl : ∀ l ∈ ls, l.head? = some '/') :
    deleteLines word (hs.map HeaderField.line ++ [] :: ls) =
      (hs.filter fun h => h.key ≠ word).map HeaderField.line ++ [] :: ls := by
  have keep : ls.filter (fun l => ¬ word ++ [':'] <+: l) = ls := by
    refine List.filter_eq_self.mpr fun l h => decide_eq_true ?_
    obtain ⟨c, hc⟩ := Option.isSome_iff_exists.mp (show (word ++ [':']).head?.isSome by simp)
    exact not_prefix_of_head hc (by rw [hl l h, ← hc]; exact hw.symm)
  rw [deleteLines, List.filter_append, List.filter_map, List.filter_cons_of_pos (by simp), keep]
  congr 2
  exact List.filter_congr fun h _ => by simp [prefix_headerLine hk]

/-! ## The size -/

theorem padded_chars (hc : c ∈ padded k) : c = ' ' ∨ c.isDigit = true := by
  rcases List.mem_append.mp hc with hc | hc
  · exact .inl (List.eq_of_mem_replicate hc)
  · exact .inr (Nat.isDigit_of_mem_toDigits (by decide) (by decide) hc)

/-- What matches the expression. -/
theorem eq_of_sizeField (h : sizeField t = some r) :
    ∃ v, t = "size=".toList ++ v ++ ',' :: r ∧ ∀ c ∈ v, isBlank c = true ∨ c.isDigit = true := by
  unfold sizeField at h
  split_ifs at h with hp
  obtain ⟨u, rfl⟩ := hp
  refine ⟨u.takeWhile isBlank ++ (u.dropWhile isBlank).takeWhile Char.isDigit, ?_, ?_⟩
  · split at h
    · rename_i w hw
      obtain rfl : w = r := by simpa using h
      have hw : (u.dropWhile isBlank).dropWhile Char.isDigit = ',' :: w := by simpa using hw
      rw [← hw]
      simp [List.takeWhile_append_dropWhile]
    · cases h
  · intro c hc
    rcases List.mem_append.mp hc with hc | hc
    · exact .inl (List.mem_takeWhile_imp hc)
    · exact .inr (List.mem_takeWhile_imp hc)

theorem sizeField_line (k : ℕ) (t : Text) :
    sizeField ("size=".toList ++ padded k ++ ',' :: t) = some t := by
  have blanks : ((padded k ++ ',' :: t).dropWhile isBlank) = Nat.toDigits 10 k ++ ',' :: t := by
    rw [padded, List.append_assoc, List.dropWhile_append_of_pos fun c hc => by
      rw [List.eq_of_mem_replicate hc]; rfl]
    have digits : ∀ c ∈ Nat.toDigits 10 k, isBlank c = false := by
      intro c hc
      have := Nat.isDigit_of_mem_toDigits (by decide) (by decide) hc
      by_contra hb
      have hb : c = ' ' ∨ c = '\t' := by simpa [isBlank, or_iff_not_imp_left] using hb
      rcases hb with rfl | rfl <;> simp [Char.isDigit] at this
    cases hd : Nat.toDigits 10 k with
    | nil => rfl
    | cons a w => simp [digits a (by simp [hd])]
  rw [sizeField, if_pos (by simp)]
  have drop : ("size=".toList ++ padded k ++ ',' :: t).drop 5 = padded k ++ ',' :: t := by simp
  rw [drop, blanks, List.dropWhile_append_of_pos fun c hc =>
    Nat.isDigit_of_mem_toDigits (by decide) (by decide) hc]
  rfl

/-- A match has no colon before its comma. -/
theorem not_colon_of_sizeField (h : sizeField t = some r) :
    'i' ∈ (t.takeWhile fun c => c ≠ ',') ∧ ':' ∉ (t.takeWhile fun c => c ≠ ',') := by
  obtain ⟨v, rfl, hv⟩ := eq_of_sizeField h
  have word : ∀ c ∈ "size=".toList, c ≠ ',' ∧ c ≠ ':' := by simp
  have chars : ∀ c ∈ "size=".toList ++ v, c ≠ ',' ∧ c ≠ ':' := by
    intro c hc
    rcases List.mem_append.mp hc with hc | hc
    · exact word c hc
    · constructor <;> rintro rfl <;> simpa [isBlank, Char.isDigit] using hv _ hc
  rw [List.takeWhile_append_of_pos fun c hc => decide_eq_true (chars c hc).1]
  refine ⟨by simp, fun hc => ?_⟩
  have hc : ':' ∈ "size=".toList ++ v := by simpa using hc
  exact (chars _ hc).2 rfl

/-- What stands between the colon and the comma before the size. -/
theorem start_chars (hc : c ∈ " start=".toList ++ padded k) : c ≠ ',' ∧ c ≠ 'i' := by
  have word : ∀ c ∈ " start=".toList, c ≠ ',' ∧ c ≠ 'i' := by simp
  rcases List.mem_append.mp hc with hc | hc
  · exact word c hc
  · rcases padded_chars hc with rfl | hd
    · decide
    · constructor <;> rintro rfl <;> simp [Char.isDigit] at hd

theorem comma_notMem_node (n : DeviceNode) : ',' ∉ n.text := by
  intro hc
  have := List.all_eq_true.mp n.chars _ hc
  revert this
  decide

/-- No match begins before the comma in front of the size. -/
theorem sizeField_middle {u v : Text}
    (hv : p.node.text ++ " : start=".toList ++ padded p.start = u ++ v) (t : Text) :
    sizeField (v ++ ',' :: t) = none := by
  by_contra hsome
  obtain ⟨r, hr⟩ := Option.ne_none_iff_exists'.mp hsome
  have split : u ++ v = (p.node.text ++ [' ']) ++ ':' :: (" start=".toList ++ padded p.start) := by
    rw [← hv]
    simp
  have comma : ∀ c ∈ v, decide (c ≠ ',') = true := by
    intro c hc
    have hc : c ∈ u ++ v := List.mem_append_right _ hc
    rw [split] at hc
    refine decide_eq_true ?_
    rcases List.mem_append.mp hc with hc | hc
    · rintro rfl
      exact comma_notMem_node p.node (by simpa using hc)
    · rcases List.mem_cons.mp hc with rfl | hc
      · decide
      · exact (start_chars hc).1
  -- the match has an `i` and no colon, but what begins after the colon has no `i`
  obtain ⟨hi, hcolon⟩ := not_colon_of_sizeField hr
  have take : (v ++ ',' :: t).takeWhile (fun c => decide (c ≠ ',')) = v := by
    rw [List.takeWhile_append_of_pos comma]
    simp
  rw [take] at hi hcolon
  rcases List.append_eq_append_iff.mp split with ⟨w, -, rfl⟩ | ⟨w, -, hw⟩
  · exact hcolon (by simp)
  · cases w with
    | nil =>
      obtain rfl : ':' :: _ = v := hw
      exact hcolon List.mem_cons_self
    | cons a w =>
      obtain ⟨-, hw⟩ := List.cons.inj hw
      exact (start_chars (c := 'i') (k := p.start)
        (by rw [hw]; exact List.mem_append_right _ hi)).2 rfl

/-- No match begins before the size. -/
theorem sizeField_front {u b : Text} (hb : p.front = u ++ b) (ne : b ≠ []) (t : Text) :
    sizeField (b ++ t) = none := by
  rcases List.append_eq_append_iff.mp hb.symm with ⟨v, hv, rfl⟩ | ⟨v, -, hv⟩
  · rw [List.append_assoc]
    exact sizeField_middle hv _
  · have hv : [',', ' '] = v ++ b := hv
    rcases v with _ | ⟨c, _ | ⟨c', v⟩⟩
    · obtain rfl : [',', ' '] = b := hv
      exact sizeField_middle (p := p) (List.append_nil _).symm _
    · obtain rfl : [' '] = b := (List.cons.inj hv).2
      rfl
    · have : v ++ b = [] := (List.cons.inj (List.cons.inj hv).2).2.symm
      exact absurd (List.append_eq_nil_iff.mp this).2 ne

/-- **The substitution leaves out the size.** -/
theorem substitute_line : substitute sizeField [] p.line = p.sizeless := by
  rw [PartitionEntry.line, substitute_append, substitute_of_match (sizeField_line ..) (by simp)]
  · rfl
  · intro u b hb ne
    exact sizeField_front hb ne _

/-! ## The table -/

/-- The script finds the line of the partition. -/
theorem occurs_line : occurs p.node.text p.line = true := by
  rw [PartitionEntry.line, PartitionEntry.front, List.append_assoc, List.append_assoc,
    List.append_assoc]
  exact occurs_self ..

/-- The last two edits leave the lines of the partitions alone. -/
theorem deleteLines_lba {ls : List Text} (hl : ∀ l ∈ ls, l.head? = some '/') :
    deleteLines "last-lba".toList (deleteLines "first-lba".toList
      (d.header.map HeaderField.line ++ [] :: ls)) =
    (d.header.filter fun h => !h.isLba).map HeaderField.line ++ [] :: ls := by
  rw [deleteLines_eq (by decide) (by decide) hl, deleteLines_eq (by decide) (by decide) hl,
    List.filter_filter]
  congr 3
  funext h
  rw [HeaderField.isLba]
  generalize "first-lba".toList = u
  generalize "last-lba".toList = v
  simp [Bool.and_comm, beq_eq_decide]

/-- The name is found in one line: the size in this line is left out. -/
theorem expand_of_one (hp : p ∈ d.parts) (one : d.lines.countP (occurs p.node.text) = 1) :
    expand p.node d.lines = d.grown p.node := by
  obtain ⟨ps, qs, hparts⟩ := List.append_of_mem hp
  have lines : d.lines = (d.header.map HeaderField.line ++ [] :: ps.map PartitionEntry.line) ++
      p.line :: qs.map PartitionEntry.line := by
    simp [Dump.lines, hparts]
  -- the line of the partition is the one, so the name is in no other line
  have none : ∀ l ∈ (d.header.map HeaderField.line ++ [] :: ps.map PartitionEntry.line) ++
      qs.map PartitionEntry.line, occurs p.node.text l = false := by
    have : ((d.header.map HeaderField.line ++ [] :: ps.map PartitionEntry.line) ++
        qs.map PartitionEntry.line).countP (occurs p.node.text) = 0 := by
      rw [lines, List.countP_append, List.countP_cons_of_pos occurs_line] at one
      rw [List.countP_append]
      omega
    intro l hl
    simpa using List.countP_eq_zero.mp this l hl
  have keep : ∀ ls : List Text, (∀ l ∈ ls, occurs p.node.text l = false) →
      (ls.map fun l => if occurs p.node.text l then substitute sizeField [] l else l) = ls := by
    intro ls hls
    conv_rhs => rw [← List.map_id ls]
    exact List.map_congr_left fun l hl => by simp [hls l hl]
  have others : ∀ qs' ⊆ ps ++ qs,
      (qs'.map fun q => if q.node = p.node then q.sizeless else q.line) =
        qs'.map PartitionEntry.line := by
    have nodup := d.nodup
    rw [hparts, List.map_append, List.map_cons, List.perm_middle.nodup_iff, List.nodup_cons,
      ← List.map_append] at nodup
    intro qs' hsub
    refine List.map_congr_left fun q hq => if_neg fun e => nodup.1 ?_
    exact e ▸ List.mem_map_of_mem (hsub hq)
  have resized : (d.lines.map fun l =>
        if occurs p.node.text l then substitute sizeField [] l else l) =
      d.header.map HeaderField.line ++
        [] :: d.parts.map fun q => if q.node = p.node then q.sizeless else q.line := by
    rw [lines, List.map_append, List.map_cons,
      keep _ fun l hl => none l (List.mem_append_left _ hl),
      keep _ fun l hl => none l (List.mem_append_right _ hl), if_pos occurs_line, substitute_line,
      hparts, List.map_append, List.map_cons, others ps (List.subset_append_left _ _),
      others qs (List.subset_append_right _ _), if_pos rfl]
    simp
  have heads : ∀ l ∈ d.parts.map fun q => if q.node = p.node then q.sizeless else q.line,
      l.head? = some '/' := by
    intro l hl
    obtain ⟨q, -, rfl⟩ := List.mem_map.mp hl
    split_ifs
    · exact head_sizeless
    · exact head_line
  simp only [expand, sedI_splice_of_one one, resized]
  exact deleteLines_lba heads

/-- The name is found in more than one line: no size is left out. -/
theorem expand_of_many (many : 1 < d.lines.countP (occurs n.text)) :
    expand n d.lines = (d.header.filter fun h => !h.isLba).map HeaderField.line ++
      [] :: d.parts.map PartitionEntry.line := by
  have heads : ∀ l ∈ d.parts.map PartitionEntry.line, l.head? = some '/' := by
    intro l hl
    obtain ⟨q, -, rfl⟩ := List.mem_map.mp hl
    exact head_line
  have resized := sedI_splice_of_many (f := substitute sizeField []) many
  simp only [expand, resized]
  exact deleteLines_lba heads

/-- **The script grows the partition, and touches nothing else, exactly if the name of the
partition is found in one line of the dump only.** -/
theorem expand_eq_grown_iff (d : Dump) (p : PartitionEntry) (hp : p ∈ d.parts) :
    expand p.node d.lines = d.grown p.node ↔ d.lines.countP (occurs p.node.text) = 1 := by
  refine ⟨fun h => ?_, expand_of_one hp⟩
  by_contra ne
  have found : 0 < d.lines.countP (occurs p.node.text) := by
    refine List.countP_pos_iff.mpr ⟨p.line, ?_, occurs_line⟩
    exact List.mem_append_right _ (List.mem_cons_of_mem _ (List.mem_map_of_mem hp))
  rw [expand_of_many (by omega), Dump.grown] at h
  have same := List.cons.inj (List.append_cancel_left h)
  have := List.map_inj_left.mp same.2 p hp
  rw [if_pos rfl, PartitionEntry.line, PartitionEntry.sizeless] at this
  have := congrArg List.length (List.append_cancel_left this)
  simp at this
  omega

end Expand

/-! ## A table with more than nine partitions -/

/-- The first partition. -/
def sda1 : PartitionEntry := ⟨⟨"/dev/sda1".toList, rfl, by decide⟩, 2048, 4096, " type=83".toList⟩

/-- The tenth partition. -/
def sda10 : PartitionEntry := ⟨⟨"/dev/sda10".toList, rfl, by decide⟩, 8192, 4096, " type=83".toList⟩

/-- A dump with both of them. -/
def sdaDump : Dump where
  header := [⟨"label".toList, " gpt".toList, by decide⟩,
    ⟨"device".toList, " /dev/sda".toList, by decide⟩,
    ⟨"first-lba".toList, " 34".toList, by decide⟩]
  parts := [sda1, sda10]
  nodup := by decide

/-- **The first partition does not grow when there is a tenth one.** -/
theorem expand_ne_grown_sda : expand sda1.node sdaDump.lines ≠ sdaDump.grown sda1.node := by
  decide

/-- The tenth one does. -/
theorem expand_eq_grown_sda : expand sda10.node sdaDump.lines = sdaDump.grown sda10.node :=
  (expand_eq_grown_iff sdaDump sda10 (.tail _ (.head _))).mpr (by decide)

end VeRoot
