import VeRoot.DeviceTree.Lines

/-!
# The boot image

`bootimage.its` is the template of a device tree source from which `mkimage` makes the image that
U-Boot starts.  `generate.py` fills it in from the section `bootimage` of a recipe.  Two loops go
through the overlays of the section: one defines a node for each of them, the other one lists the
nodes in the property `fdt` of the configuration.

## Main definitions

* `Address`, `BootImage` — the section of the recipe.
* `stem`, `overlayName` — the name of the node for an overlay.
* `BootImage.render` — the file that `generate.py` writes.
* `BootImage.Describes` — the file lists all overlays.
* `BootImage.describes_iff` — when it does.
-/

namespace VeRoot

open Unix DeviceTree

/-! ## The section -/

/-- An address, in hexadecimal. -/
structure Address where
  digits : Text
  value : ℕ
  digits_ne_nil : digits ≠ []
  hexFrom_digits : hexFrom 0 digits = some value
  value_lt : value < 2 ^ 32

/-- The address, as the recipe has it. -/
def Address.text (a : Address) : Text := '0' :: 'x' :: a.digits

/-- A file of the image. -/
abbrev ImageFile := {t : Text // Quotable t}

/-- The section `bootimage` of a recipe, less the overlays. -/
structure BootImage where
  kernelImage : ImageFile
  kernelLoad : Address
  kernelEntry : Address
  dtbLoad : Address
  initrdLoad : Address
  initramfs : ImageFile
  overlayLoad : Address

/-- `t.replace(w, '')` for a text `w` that is not empty, where `k` characters are left of the last
occurrence. -/
def without (w : Text) : ℕ → Text → Text
  | _, [] => []
  | k + 1, _ :: t => without w k t
  | 0, c :: t => if w <+: c :: t then without w (w.length - 1) t else c :: without w 0 t

/-- `overlay.replace('.dtbo', '')` -/
def stem (overlay : Text) : Text := without ".dtbo".toList 0 overlay

/-- The node for an overlay. -/
def overlayName (overlay : Text) : Text := "overlay_".toList ++ stem overlay ++ "@1".toList

/-- Python's `hex`. -/
def hex (n : ℕ) : Text := '0' :: 'x' :: Nat.toDigits 16 n

/-! ## The template -/

/-- A line, indented by `n` steps. -/
def line (n : ℕ) (t : Text) : Text := List.replicate (8 * n) ' ' ++ t ++ ['\n']

/-- The line on which a node begins. -/
def enterLine (n : ℕ) (name : Text) : Text := line n (name ++ " \x7b".toList)

/-- The line on which a node ends. -/
def leaveLine (n : ℕ) : Text := line n "\x7d;".toList

/-- A property with one string. -/
def stringLine (n : ℕ) (name v : String) : Text :=
  line n (name.toList ++ (" = \"".toList ++ v.toList ++ "\";".toList))

/-- The file of an image. -/
def dataLine (file : Text) : Text :=
  line 3 ("data".toList ++ (" = /incbin/(\"".toList ++ file ++ "\");".toList))

/-- The end of an image. -/
def hashLines : Text :=
  enterLine 3 "hash@1".toList ++ stringLine 4 "algo" "sha256" ++ leaveLine 3 ++ leaveLine 2

/-- Lines 1 to 5. -/
def headLines : Text :=
  line 0 "/dts-v1/;".toList ++ line 0 "/\x7b".toList ++
    stringLine 1 "description" "VE-ROOT Boot Image" ++ line 1 "#address-cells = <1>;".toList ++
    enterLine 1 "images".toList

/-- Lines 6 to 18. -/
def kernelLines (b : BootImage) : Text :=
  enterLine 2 "linux_kernel@1".toList ++ stringLine 3 "description" "Kernel" ++
    dataLine b.kernelImage.1 ++ stringLine 3 "type" "kernel" ++ stringLine 3 "arch" "arm64" ++
    stringLine 3 "os" "linux" ++ stringLine 3 "compression" "none" ++
    line 3 ("load".toList ++ (" =  < ".toList ++ (b.kernelLoad.text ++ " >;".toList))) ++
    line 3 ("entry".toList ++ (" = < ".toList ++ (b.kernelEntry.text ++ " >;".toList))) ++ hashLines

/-- The address of an image. -/
def loadLine (address : Text) : Text :=
  line 3 ("load".toList ++ (" = <".toList ++ (address ++ ">;".toList)))

/-- Lines 20 to 30. -/
def fdtLines (b : BootImage) : Text :=
  enterLine 2 "fdt@1".toList ++ stringLine 3 "description" "FDT blob" ++
    dataLine "devicetree.dtb".toList ++ stringLine 3 "type" "flat_dt" ++
    stringLine 3 "arch" "arm64" ++ loadLine b.dtbLoad.text ++ stringLine 3 "compression" "none" ++
    hashLines

/-- Lines 32 to 43. -/
def initramfsLines (b : BootImage) : Text :=
  enterLine 2 "initramfs@1".toList ++ stringLine 3 "description" "Initial RAM Disk." ++
    dataLine b.initramfs.1 ++ stringLine 3 "type" "ramdisk" ++ stringLine 3 "arch" "arm64" ++
    stringLine 3 "os" "linux" ++ loadLine b.initrdLoad.text ++ stringLine 3 "compression" "none" ++
    hashLines

/-- Lines 6 to 43. -/
def imagesLines (b : BootImage) : Text :=
  kernelLines b ++ ['\n'] ++ fdtLines b ++ ['\n'] ++ initramfsLines b

/-- Lines 46 to 57, the body of the first loop.  `i` is `loop.index0`. -/
def overlayLines (b : BootImage) (i : ℕ) (overlay : Text) : Text :=
  ['\n'] ++ enterLine 2 (overlayName overlay) ++ dataLine overlay ++
    stringLine 3 "type" "flat_dt" ++ stringLine 3 "arch" "arm64" ++
    loadLine (hex (b.overlayLoad.value + 4096 * i)) ++
    (stringLine 3 "compression" "none" ++ hashLines ++ ['\n'])

/-- The first loop, from the `i`th overlay on. -/
def overlaysLines (b : BootImage) : ℕ → List Text → Text
  | _, [] => []
  | i, o :: os => overlayLines b i o ++ overlaysLines b (i + 1) os

/-- Lines 60 to 68. -/
def configLines : Text :=
  ['\n', '\n'] ++ leaveLine 1 ++ ['\n'] ++ enterLine 1 "configurations".toList ++
    stringLine 2 "default" "config@1" ++ line 2 ("config@1".toList ++ "\x7b".toList) ++
    stringLine 3 "description" "VE-ROOT BootImage" ++ stringLine 3 "kernel" "linux_kernel@1"

/-- Lines 69 to 73, with the second loop. -/
def fdtProperty : Option (List Text) → Text
  | some overlays => line 3 ("fdt".toList ++ (" = \"fdt@1\"".toList ++
      (overlays.flatMap (fun overlay => ",\"".toList ++ overlayName overlay) ++ "\";".toList)))
  | none => stringLine 3 "fdt" "fdt@1"

/-- Lines 74 to 82, less the newline at the end. -/
def tailLines : Text :=
  stringLine 3 "ramdisk" "initramfs@1" ++ line 3 ("signature@1".toList ++ "\x7b".toList) ++
    stringLine 4 "algo" "sha256,rsa2048" ++ stringLine 4 "key-name-hint" "uboot_rsa_dev" ++
    line 4 "sign-images = \"fdt\", \"kernel\", \"ramdisk\";".toList ++ leaveLine 3 ++ leaveLine 2 ++
    leaveLine 1 ++ "\x7d;".toList

/-- The file up to the property `fdt`. -/
def BootImage.front (b : BootImage) (overlays : Option (List Text)) : Text :=
  headLines ++ imagesLines b ++ overlaysLines b 0 (overlays.getD []) ++ configLines

/-- **The file that `generate.py` writes.** -/
def BootImage.render (b : BootImage) (overlays : Option (List Text)) : Text :=
  b.front overlays ++ fdtProperty overlays ++ tailLines

/-! ## What the file should say -/

/-- The images that the configuration has to list. -/
def fdtNames (overlays : List Text) : List Text := "fdt@1".toList :: overlays.map overlayName

/-- **The file lists all overlays.**  It can be read, the configuration has the images in order,
each of them is one node, and the overlays are loaded one behind the other. -/
def BootImage.Describes (b : BootImage) (overlays : List Text) : Prop :=
  Balanced (b.render (some overlays)) ∧ ∃ es, parse (b.render (some overlays)) = some es ∧
    values (decls [] es) ["configurations".toList, "config@1".toList] "fdt".toList =
      [(fdtNames overlays).map .string] ∧
    (∀ w ∈ fdtNames overlays, (nodes (decls [] es)).count ["images".toList, w] = 1) ∧
    ∀ i o, overlays[i]? = some o →
      values (decls [] es) ["images".toList, overlayName o] "load".toList =
        [[.cells [b.overlayLoad.value + 4096 * i]]]

/-! ## Names -/

section Names

variable {b : BootImage} {o w : Text} {os : List Text} {c : Char} {i : ℕ} {es : List Phrase}

/-- Only characters of the text that is replaced are left out. -/
theorem mem_or_mem_without (hw : w ≠ []) (k : ℕ) (t : Text) (inside : ∀ c ∈ t.take k, c ∈ w)
    (hc : c ∈ t) : c ∈ w ∨ c ∈ without w k t := by
  induction t generalizing k with
  | nil => simp at hc
  | cons d t ih =>
    cases k with
    | succ k =>
      rcases List.mem_cons.mp hc with rfl | hc
      · exact .inl (inside c (by simp))
      · exact ih k (fun c hc => inside c (by simp [hc])) hc
    | zero =>
      rw [without]
      split_ifs with found
      · obtain ⟨a, w, rfl⟩ := List.exists_cons_of_ne_nil hw
        obtain ⟨rfl, rest⟩ := List.cons_prefix_cons.mp found
        rcases List.mem_cons.mp hc with rfl | hc
        · exact .inl (by simp)
        · refine ih _ (fun c hc => ?_) hc
          rw [List.length_cons, Nat.add_sub_cancel, ← List.prefix_iff_eq_take.mp rest] at hc
          exact List.mem_cons_of_mem _ hc
      · rcases List.mem_cons.mp hc with rfl | hc
        · exact .inr (by simp)
        · exact (ih 0 (by simp) hc).imp_right (List.mem_cons_of_mem _)

/-- An overlay with a proper stem may stand between quotes. -/
theorem quotable_of_stem (h : ∀ c ∈ stem o, isNameChar c = true) : Quotable o := by
  have suffix : IsName ".dtbo".toList := by decide
  exact quotable_of_name fun c hc =>
    (mem_or_mem_without suffix.1 0 o (by simp) hc).elim (suffix.2 c) (h c)

theorem isName_overlayName : IsName (overlayName o) ↔ ∀ c ∈ stem o, isNameChar c = true := by
  have before : IsName "overlay_".toList := by decide
  have behind : IsName "@1".toList := by decide
  constructor
  · exact fun h c hc => h.2 c (List.mem_append_left _ (List.mem_append_right _ hc))
  · intro h
    refine ⟨List.append_ne_nil_of_right_ne_nil _ behind.1, fun c hc => ?_⟩
    rcases List.mem_append.mp hc with hc | hc
    · exact (List.mem_append.mp hc).elim (before.2 c) (h c)
    · exact behind.2 c hc

theorem BootImage.Describes.parsed (h : b.Describes os) :
    ∃ es, parse (b.render (some os)) = some es := by
  obtain ⟨-, es, hes, -⟩ := h
  exact ⟨es, hes⟩

/-- The overlays of a file that lists them have proper stems. -/
theorem BootImage.Describes.isNameChar_stem (h : b.Describes os) (ho : o ∈ os) :
    ∀ c ∈ stem o, isNameChar c = true := by
  obtain ⟨-, es, hes, -, once, -⟩ := h
  have name : overlayName o ∈ fdtNames os := List.mem_cons_of_mem _ (List.mem_map_of_mem ho)
  have node : ["images".toList] ++ [overlayName o] ∈ nodes (decls [] es) := by
    apply List.count_pos_iff.mp
    rw [List.singleton_append, once _ name]
    exact Nat.one_pos
  have nonempty : overlayName o ≠ [] := List.append_ne_nil_of_right_ne_nil _ (by decide)
  exact isName_overlayName.mp ⟨nonempty, isNameChar_of_parse hes node⟩

end Names

/-! ## What the lines say -/

/-- A property with one string. -/
def stringProp (w v : String) : Phrase := .prop w.toList [.string v.toList]

/-- The end of an image. -/
def hashSays : List Phrase :=
  [.enter "hash@1".toList, stringProp "algo" "sha256", .leave, .leave]

/-- Lines 1 to 5. -/
def headSays : List Phrase :=
  [stringProp "description" "VE-ROOT Boot Image", .prop "#address-cells".toList [.cells [1]],
    .enter "images".toList]

/-- Lines 6 to 18. -/
def kernelSays (b : BootImage) : List Phrase :=
  [.enter "linux_kernel@1".toList, stringProp "description" "Kernel",
    .prop "data".toList [.incbin b.kernelImage.1], stringProp "type" "kernel",
    stringProp "arch" "arm64", stringProp "os" "linux", stringProp "compression" "none",
    .prop "load".toList [.cells [b.kernelLoad.value]],
    .prop "entry".toList [.cells [b.kernelEntry.value]]] ++ hashSays

/-- Lines 20 to 30. -/
def fdtSays (b : BootImage) : List Phrase :=
  [.enter "fdt@1".toList, stringProp "description" "FDT blob",
    .prop "data".toList [.incbin "devicetree.dtb".toList], stringProp "type" "flat_dt",
    stringProp "arch" "arm64", .prop "load".toList [.cells [b.dtbLoad.value]],
    stringProp "compression" "none"] ++ hashSays

/-- Lines 32 to 43. -/
def initramfsSays (b : BootImage) : List Phrase :=
  [.enter "initramfs@1".toList, stringProp "description" "Initial RAM Disk.",
    .prop "data".toList [.incbin b.initramfs.1], stringProp "type" "ramdisk",
    stringProp "arch" "arm64", stringProp "os" "linux",
    .prop "load".toList [.cells [b.initrdLoad.value]], stringProp "compression" "none"] ++ hashSays

/-- Lines 6 to 43. -/
def imagesSays (b : BootImage) : List Phrase := kernelSays b ++ fdtSays b ++ initramfsSays b

/-- The body of the first loop. -/
def overlaySays (b : BootImage) (i : ℕ) (overlay : Text) : List Phrase :=
  [.enter (overlayName overlay), .prop "data".toList [.incbin overlay], stringProp "type" "flat_dt",
    stringProp "arch" "arm64", .prop "load".toList [.cells [b.overlayLoad.value + 4096 * i]],
    stringProp "compression" "none"] ++ hashSays

/-- The first loop. -/
def overlaysSays (b : BootImage) : ℕ → List Text → List Phrase
  | _, [] => []
  | i, o :: os => overlaySays b i o ++ overlaysSays b (i + 1) os

/-- Lines 60 to 68. -/
def configSays : List Phrase :=
  [.leave, .enter "configurations".toList, stringProp "default" "config@1",
    .enter "config@1".toList, stringProp "description" "VE-ROOT BootImage",
    stringProp "kernel" "linux_kernel@1"]

/-- Lines 74 to 82. -/
def tailSays : List Phrase :=
  [stringProp "ramdisk" "initramfs@1", .enter "signature@1".toList,
    stringProp "algo" "sha256,rsa2048", stringProp "key-name-hint" "uboot_rsa_dev",
    .prop "sign-images".toList
      [.string "fdt".toList, .string "kernel".toList, .string "ramdisk".toList],
    .leave, .leave, .leave, .leave]

section Lines

variable {o w t : Text} {os : List Text} {ks : List Token} {es : List Phrase} {x x' : Parsing}
  {d n i : ℕ} {p : Bool}

/-- The indentation and the end of a line say nothing. -/
theorem emit_line (n : ℕ) (h : emit lexStep (.between true) t = some (ks, .between true)) :
    emit lexStep (.between true) (line n t) = some (ks, .between true) := by
  have indent : ∀ c ∈ List.replicate (8 * n) ' ', c.isWhitespace = true := fun c hc => by
    rw [(List.mem_replicate.mp hc).2]
    decide
  have newline : ∀ c ∈ ['\n'], c.isWhitespace = true := List.forall_mem_singleton.mpr (by decide)
  simpa [line] using emit_trans (emit_trans (emit_blank indent) h) (emit_blank newline)

theorem says_line (n : ℕ) (h : Says x t es x') : Says x (line n t) es x' := by
  obtain ⟨ks, hks, hes⟩ := h
  exact ⟨ks, emit_line n hks, hes⟩

theorem says_newline : Says x ['\n'] [] x :=
  says_blank (List.forall_mem_singleton.mpr (by decide))

theorem says_enterLine (n : ℕ) (hw : IsName w) :
    Says (.body d p) (enterLine n w) [.enter w] (.body (d + 1) true) :=
  says_line n (says_enter_blank hw)

theorem says_leaveLine (n : ℕ) : Says (.body (d + 1) p) (leaveLine n) [.leave] (.body d false) :=
  says_line n says_leave

theorem says_stringLine (n : ℕ) {w v : String} (hw : IsName w.toList) (hv : Quotable v.toList) :
    Says (.body d true) (stringLine n w v) [stringProp w v] (.body d true) :=
  says_line n (says_string hw hv)

theorem says_dataLine (h : Quotable w) :
    Says (.body d true) (dataLine w) [.prop "data".toList [.incbin w]] (.body d true) :=
  says_line 3 (says_incbin (by decide) h)

theorem emit_loadLine {m : ℕ} {ds : Text} (hm : hexFrom 0 ds = some m) (hds : ds ≠ []) :
    emit lexStep (.between true) (loadLine ('0' :: 'x' :: ds)) =
      some ([.name "load".toList, .mark '=', .mark '<', .literal m, .mark '>', .mark ';'],
        .between true) :=
  emit_line 3 (emit_cells (c := '>') (by decide) rfl hm hds (by decide) rfl)

theorem says_loadLine (a : Address) :
    Says (.body d true) (loadLine a.text) [.prop "load".toList [.cells [a.value]]] (.body d true) :=
  ⟨_, emit_loadLine a.hexFrom_digits a.digits_ne_nil, emit_parse_cells _ a.value_lt⟩

/-- The kernel's addresses have blanks around them. -/
theorem says_address (a : Address) {u : Text} (hw : IsName w) (hu : emit lexStep (.name w) u =
      some ([.name w, .mark '=', .mark '<'], .between false)) :
    Says (.body d true) (line 3 (w ++ (u ++ (a.text ++ " >;".toList)))) [.prop w [.cells [a.value]]]
      (.body d true) :=
  ⟨_, emit_line 3 (emit_cells (c := ' ') hw hu a.hexFrom_digits a.digits_ne_nil (by decide) rfl),
    emit_parse_cells _ a.value_lt⟩

/-! ## The images -/

theorem emit_headLines : ∃ ks, emit lexStep (.between false) headLines = some (ks, .between true) ∧
    emit parseStep .header ks = some (headSays, .body 1 true) := by
  have header : emit lexStep (.between false) (line 0 "/dts-v1/;".toList ++ line 0 "/\x7b".toList) =
      some ([.version, .mark ';', .mark '/', .mark '\x7b'], .between true) := by
    decide +kernel
  have cells : emit lexStep (.between true) "#address-cells = <1>;".toList =
      some ([.name "#address-cells".toList, .mark '=', .mark '<', .literal 1, .mark '>', .mark ';'],
        .between true) := by
    decide +kernel
  have addressCells : Says (.body 0 true) (line 1 "#address-cells = <1>;".toList)
      [.prop "#address-cells".toList [.cells [1]]] (.body 0 true) :=
    ⟨_, emit_line 1 cells, emit_parse_cells _ (by decide)⟩
  obtain ⟨k₁, lex₁, parse₁⟩ := says_stringLine (d := 0) 1
    (by decide : IsName "description".toList)
    (by decide : Quotable "VE-ROOT Boot Image".toList)
  obtain ⟨k₂, lex₂, parse₂⟩ := addressCells
  obtain ⟨k₃, lex₃, parse₃⟩ := says_enterLine (d := 0) (p := true) 1
    (by decide : IsName "images".toList)
  have root : emit parseStep .header [.version, .mark ';', .mark '/', .mark '\x7b'] =
      some ([], .body 0 true) := rfl
  exact ⟨_, emit_trans (emit_trans (emit_trans header lex₁) lex₂) lex₃,
    emit_trans (emit_trans (emit_trans root parse₁) parse₂) parse₃⟩

theorem says_hash : Says (.body 2 true) hashLines hashSays (.body 1 false) :=
  (((says_enterLine 3 (by decide)).append
    (says_stringLine 4 (by decide) (by decide))).append
    (says_leaveLine 3)).append (says_leaveLine 2)

theorem says_description {v : String} (hv : Quotable v.toList) :
    Says (.body d true) (stringLine 3 "description" v) [stringProp "description" v]
      (.body d true) :=
  says_stringLine 3 (by decide) hv

theorem says_type {v : String} (hv : Quotable v.toList) :
    Says (.body d true) (stringLine 3 "type" v) [stringProp "type" v] (.body d true) :=
  says_stringLine 3 (by decide) hv

theorem says_arch : Says (.body d true) (stringLine 3 "arch" "arm64") [stringProp "arch" "arm64"]
    (.body d true) :=
  says_stringLine 3 (by decide) (by decide)

theorem says_os : Says (.body d true) (stringLine 3 "os" "linux") [stringProp "os" "linux"]
    (.body d true) :=
  says_stringLine 3 (by decide) (by decide)

theorem says_compression : Says (.body d true) (stringLine 3 "compression" "none")
    [stringProp "compression" "none"] (.body d true) :=
  says_stringLine 3 (by decide) (by decide)

theorem says_kernel (b : BootImage) :
    Says (.body 1 true) (kernelLines b) (kernelSays b) (.body 1 false) :=
  says_enterLine 2 (by decide)
    |>.append (says_description (by decide))
    |>.append (says_dataLine b.kernelImage.2)
    |>.append (says_type (by decide))
    |>.append says_arch
    |>.append says_os
    |>.append says_compression
    |>.append (says_address b.kernelLoad (by decide) rfl)
    |>.append (says_address b.kernelEntry (by decide) rfl)
    |>.append says_hash

theorem says_fdt (b : BootImage) :
    Says (.body 1 false) (fdtLines b) (fdtSays b) (.body 1 false) :=
  says_enterLine 2 (by decide)
    |>.append (says_description (by decide))
    |>.append (says_dataLine (by decide))
    |>.append (says_type (by decide))
    |>.append says_arch
    |>.append (says_loadLine b.dtbLoad)
    |>.append says_compression
    |>.append says_hash

theorem says_initramfs (b : BootImage) :
    Says (.body 1 false) (initramfsLines b) (initramfsSays b) (.body 1 false) :=
  says_enterLine 2 (by decide)
    |>.append (says_description (by decide))
    |>.append (says_dataLine b.initramfs.2)
    |>.append (says_type (by decide))
    |>.append says_arch
    |>.append says_os
    |>.append (says_loadLine b.initrdLoad)
    |>.append says_compression
    |>.append says_hash

theorem says_images (b : BootImage) :
    Says (.body 1 true) (imagesLines b) (imagesSays b) (.body 1 false) := by
  have all := (says_kernel b).append says_newline |>.append (says_fdt b) |>.append says_newline
    |>.append (says_initramfs b)
  simp only [List.append_nil] at all
  exact all

/-! ## The loops -/

/-- One round of the first loop.  The address may be too large for a cell. -/
theorem emit_overlayLines (b : BootImage) (i : ℕ) (h : ∀ c ∈ stem o, isNameChar c = true) :
    ∃ ks, emit lexStep (.between true) (overlayLines b i o) = some (ks, .between true) ∧
      (b.overlayLoad.value + 4096 * i < 2 ^ 32 →
        emit parseStep (.body 1 false) ks = some (overlaySays b i o, .body 1 false)) := by
  have before : Says (.body 1 false) (['\n'] ++ enterLine 2 (overlayName o) ++ dataLine o ++
      stringLine 3 "type" "flat_dt" ++ stringLine 3 "arch" "arm64")
        [.enter (overlayName o), .prop "data".toList [.incbin o], stringProp "type" "flat_dt",
          stringProp "arch" "arm64"] (.body 2 true) :=
    says_newline
      |>.append (says_enterLine 2 (isName_overlayName.mpr h))
      |>.append (says_dataLine (quotable_of_stem h))
      |>.append (says_type (by decide))
      |>.append says_arch
  have behind : Says (.body 2 true) (stringLine 3 "compression" "none" ++ hashLines ++ ['\n'])
      (stringProp "compression" "none" :: hashSays) (.body 1 false) :=
    (says_compression.append says_hash).append says_newline
  obtain ⟨k₁, lex₁, parse₁⟩ := before
  obtain ⟨k₂, lex₂, parse₂⟩ := behind
  have address := emit_loadLine (hexFrom_toDigits (b.overlayLoad.value + 4096 * i))
    Nat.toDigits_ne_nil
  refine ⟨_, emit_trans (emit_trans lex₁ address) lex₂, fun small => ?_⟩
  have parsed := emit_trans (emit_trans parse₁ (emit_parse_cells "load".toList small)) parse₂
  exact parsed

/-- **The first loop** makes a node for each overlay. -/
theorem emit_overlaysLines (b : BootImage) (i : ℕ)
    (h : ∀ o ∈ os, ∀ c ∈ stem o, isNameChar c = true) :
    ∃ ks, emit lexStep (.between true) (overlaysLines b i os) = some (ks, .between true) ∧
      ((∀ j < os.length, b.overlayLoad.value + 4096 * (i + j) < 2 ^ 32) →
        emit parseStep (.body 1 false) ks = some (overlaysSays b i os, .body 1 false)) := by
  induction os generalizing i with
  | nil => exact ⟨[], rfl, fun _ => rfl⟩
  | cons o os ih =>
    obtain ⟨k₁, lex₁, parse₁⟩ := emit_overlayLines b i (h o (by simp))
    obtain ⟨k₂, lex₂, parse₂⟩ := ih (i + 1) fun o ho => h o (by simp [ho])
    refine ⟨k₁ ++ k₂, emit_trans lex₁ lex₂, fun small => ?_⟩
    refine emit_trans (parse₁ (small 0 (by simp))) (parse₂ fun j hj => ?_)
    rw [Nat.add_right_comm, Nat.add_assoc]
    exact small (j + 1) (by simpa using hj)

theorem says_config : Says (.body 1 false) configLines configSays (.body 2 true) :=
  says_newline
    |>.append says_newline
    |>.append (says_leaveLine 1)
    |>.append says_newline
    |>.append (says_enterLine 1 (by decide))
    |>.append (says_stringLine 2 (by decide) (by decide))
    |>.append (says_line 2 (says_enter (by decide)))
    |>.append (says_description (by decide))
    |>.append (says_stringLine 3 (by decide) (by decide))

/-- The file up to the property `fdt`. -/
theorem emit_front (b : BootImage) (h : ∀ o ∈ os, ∀ c ∈ stem o, isNameChar c = true) :
    ∃ ks, emit lexStep (.between false) (b.front (some os)) = some (ks, .between true) ∧
      ((∀ j < os.length, b.overlayLoad.value + 4096 * j < 2 ^ 32) →
        emit parseStep .header ks =
          some (headSays ++ imagesSays b ++ overlaysSays b 0 os ++ configSays, .body 2 true)) := by
  obtain ⟨k₁, lex₁, parse₁⟩ := emit_headLines
  obtain ⟨k₂, lex₂, parse₂⟩ := says_images b
  obtain ⟨k₃, lex₃, parse₃⟩ := emit_overlaysLines b 0 h
  obtain ⟨k₄, lex₄, parse₄⟩ := says_config
  refine ⟨_, emit_trans (emit_trans (emit_trans lex₁ lex₂) lex₃) lex₄, fun small => ?_⟩
  exact emit_trans (emit_trans (emit_trans parse₁ parse₂) (parse₃ (by simpa using small))) parse₄

/-- **No overlay**: the quote behind the loop opens a string that goes on to the next line. -/
theorem parse_render_nil (b : BootImage) : parse (b.render (some [])) = none := by
  obtain ⟨ks, front, -⟩ := emit_front b (List.forall_mem_nil _)
  have refused : emit lexStep (.between true) (fdtProperty (some []) ++ tailLines) = none := by
    decide +kernel
  rw [BootImage.render, List.append_assoc]
  exact parse_of_refused front refused

/-- The property as far as the first overlay: its name stands in an open string. -/
theorem emit_fdt (h : ∀ c ∈ stem o, isNameChar c = true) :
    emit lexStep (.name "fdt".toList) (" = \"fdt@1\"".toList ++ (",\"".toList ++ overlayName o)) =
      some ([.name "fdt".toList, .mark '=', .string "fdt@1".toList, .mark ','],
        .string false (overlayName o) false) := by
  have name : Quotable (overlayName o) := quotable_of_name (isName_overlayName.mpr h).2
  have tree : emit lexStep (.name "fdt".toList) " = \"fdt@1\"".toList =
      some ([.name "fdt".toList, .mark '=', .string "fdt@1".toList], .between false) := rfl
  have next : emit lexStep (.between false) ",\"".toList =
      some ([.mark ','], .string false [] false) := rfl
  exact emit_trans tree (emit_trans next (emit_string name []))

/-- **More than one overlay**: the quote in front of the second name closes the first one. -/
theorem parse_render_cons_cons (b : BootImage) {o' : Text}
    (h : ∀ w ∈ o :: o' :: os, ∀ c ∈ stem w, isNameChar c = true) :
    parse (b.render (some (o :: o' :: os))) = none := by
  obtain ⟨ks, front, -⟩ := emit_front b h
  have indent : emit lexStep (.between true) (List.replicate (8 * 3) ' ') =
      some ([], .between true) := rfl
  have first := emit_trans indent (emit_trans (emit_word (by decide)) (emit_fdt (h o (by simp))))
  have second : emit lexStep (.string false (overlayName o) false) (",\"".toList ++ ['o']) = none :=
    rfl
  have head : ∃ rest, overlayName o' = 'o' :: rest := ⟨_, rfl⟩
  obtain ⟨rest, head⟩ := head
  have parts : fdtProperty (some (o :: o' :: os)) ++ tailLines =
      List.replicate (8 * 3) ' ' ++ ("fdt".toList ++ (" = \"fdt@1\"".toList ++
        (",\"".toList ++ overlayName o))) ++ (",\"".toList ++ ['o']) ++
        (rest ++ (os.flatMap (fun overlay => ",\"".toList ++ overlayName overlay) ++
          ("\";".toList ++ (['\n'] ++ tailLines)))) := by
    simp only [fdtProperty, line, List.flatMap_cons, head, List.append_assoc, List.cons_append,
      List.nil_append]
  rw [BootImage.render, List.append_assoc, parts]
  exact parse_of_refused front (emit_append_of_none (emit_refused first second))

/-- **One overlay**: the quotes fit. -/
theorem says_fdtProperty (h : ∀ c ∈ stem o, isNameChar c = true) :
    Says (.body 2 true) (fdtProperty (some [o])) [.prop "fdt".toList ((fdtNames [o]).map .string)]
      (.body 2 true) := by
  have behind : emit lexStep (.string false (overlayName o) false) "\";".toList =
      some ([.string (overlayName o), .mark ';'], .between true) := rfl
  have all := emit_trans (emit_fdt h) behind
  rw [List.append_assoc] at all
  rw [fdtProperty, List.flatMap_singleton]
  exact says_line 3 (says_name (by decide) all rfl)

theorem emit_tailLines : ∃ ks, emit lexStep (.between true) tailLines = some (ks, .between true) ∧
    emit parseStep (.body 2 true) ks = some (tailSays, .done) := by
  have images : emit lexStep (.between true)
      "sign-images = \"fdt\", \"kernel\", \"ramdisk\";".toList =
        some ([.name "sign-images".toList, .mark '=', .string "fdt".toList, .mark ',',
          .string "kernel".toList, .mark ',', .string "ramdisk".toList, .mark ';'],
          .between true) := by
    decide +kernel
  have signed : Says (.body 3 true)
      (line 4 "sign-images = \"fdt\", \"kernel\", \"ramdisk\";".toList)
        [.prop "sign-images".toList
          [.string "fdt".toList, .string "kernel".toList, .string "ramdisk".toList]]
        (.body 3 true) :=
    says_line 4 ⟨_, images, rfl⟩
  have nodes : Says (.body 2 true) (stringLine 3 "ramdisk" "initramfs@1" ++
      line 3 ("signature@1".toList ++ "\x7b".toList) ++ stringLine 4 "algo" "sha256,rsa2048" ++
      stringLine 4 "key-name-hint" "uboot_rsa_dev" ++
      line 4 "sign-images = \"fdt\", \"kernel\", \"ramdisk\";".toList ++ leaveLine 3 ++
      leaveLine 2 ++ leaveLine 1)
        [stringProp "ramdisk" "initramfs@1", .enter "signature@1".toList,
          stringProp "algo" "sha256,rsa2048", stringProp "key-name-hint" "uboot_rsa_dev",
          .prop "sign-images".toList
            [.string "fdt".toList, .string "kernel".toList, .string "ramdisk".toList],
          .leave, .leave, .leave] (.body 0 false) :=
    says_stringLine 3 (by decide) (by decide)
      |>.append (says_line 3 (says_enter (by decide)))
      |>.append (says_stringLine 4 (by decide) (by decide))
      |>.append (says_stringLine 4 (by decide) (by decide))
      |>.append signed
      |>.append (says_leaveLine 3)
      |>.append (says_leaveLine 2)
      |>.append (says_leaveLine 1)
  obtain ⟨ks, lexed, parsed⟩ := nodes
  have end_ : emit lexStep (.between true) "\x7d;".toList =
      some ([.mark '\x7d', .mark ';'], .between true) := rfl
  exact ⟨_, emit_trans lexed end_, emit_trans parsed rfl⟩

end Lines

/-! ## The whole file -/

section Whole

variable {b : BootImage} {o : Text} {os : List Text}

/-- What the file with one overlay says. -/
def oneSays (b : BootImage) (overlay : Text) : List Phrase :=
  headSays ++ imagesSays b ++ overlaysSays b 0 [overlay] ++ configSays ++
    [.prop "fdt".toList ((fdtNames [overlay]).map .string)] ++ tailSays

theorem parse_render_singleton (b : BootImage) (h : ∀ c ∈ stem o, isNameChar c = true) :
    parse (b.render (some [o])) = some (oneSays b o) ∧ Balanced (b.render (some [o])) := by
  obtain ⟨k₁, lex₁, parse₁⟩ := emit_front b (List.forall_mem_singleton.mpr h)
  obtain ⟨k₂, lex₂, parse₂⟩ := says_fdtProperty h
  obtain ⟨k₃, lex₃, parse₃⟩ := emit_tailLines
  have small : ∀ j < [o].length, b.overlayLoad.value + 4096 * j < 2 ^ 32 := by
    intro j hj
    obtain rfl : j = 0 := by simpa using hj
    exact b.overlayLoad.value_lt
  exact parse_of_emit (emit_trans (emit_trans lex₁ lex₂) lex₃)
    (emit_trans (emit_trans (parse₁ small) parse₂) parse₃)

theorem nodes_oneSays : nodes (decls [] (oneSays b o)) =
    nodes (decls [] (headSays ++ imagesSays b)) ++
      [["images".toList, overlayName o], ["images".toList, overlayName o, "hash@1".toList]] ++
      nodes (decls ["images".toList] (configSays ++ tailSays)) :=
  rfl

theorem count_overlay :
    (nodes (decls [] (oneSays b o))).count ["images".toList, overlayName o] = 1 := by
  have before : (nodes (decls [] (headSays ++ imagesSays b))).count
      ["images".toList, overlayName o] = 0 := rfl
  have behind : (nodes (decls ["images".toList] (configSays ++ tailSays))).count
      ["images".toList, overlayName o] = 0 := rfl
  have below : [["images".toList, overlayName o, "hash@1".toList]].count
      ["images".toList, overlayName o] = 0 :=
    List.count_eq_zero.mpr (by simp)
  rw [nodes_oneSays, List.count_append, List.count_append, before, behind, List.count_cons_self,
    below]

theorem count_fdt : (nodes (decls [] (oneSays b o))).count ["images".toList, "fdt@1".toList] = 1 :=
  rfl

theorem values_fdt :
    values (decls [] (oneSays b o)) ["configurations".toList, "config@1".toList] "fdt".toList =
      [(fdtNames [o]).map .string] :=
  rfl

theorem values_load :
    values (decls [] (oneSays b o)) ["images".toList, overlayName o] "load".toList =
      [[.cells [b.overlayLoad.value]]] := by
  have parts : decls [] (oneSays b o) =
      decls [] (headSays ++ imagesSays b) ++
        decls ["images".toList] (overlaySays b 0 o) ++
        decls ["images".toList] (configSays ++ [.prop "fdt".toList ((fdtNames [o]).map .string)] ++
          tailSays) := rfl
  have before : values (decls [] (headSays ++ imagesSays b))
      ["images".toList, overlayName o] "load".toList = [] := rfl
  have behind : values (decls ["images".toList] (configSays ++
      [.prop "fdt".toList ((fdtNames [o]).map .string)] ++ tailSays))
        ["images".toList, overlayName o] "load".toList = [] := rfl
  have overlay : values (decls ["images".toList] (overlaySays b 0 o))
      ["images".toList, overlayName o] "load".toList = [[.cells [b.overlayLoad.value]]] := by
    have data : "data".toList ≠ "load".toList := by decide
    have type : "type".toList ≠ "load".toList := by decide
    have arch : "arch".toList ≠ "load".toList := by decide
    have compression : "compression".toList ≠ "load".toList := by decide
    have algo : "algo".toList ≠ "load".toList := by decide
    have here : decls ["images".toList] (overlaySays b 0 o) =
        [.node _, .prop _ _ _, .prop _ _ _, .prop _ _ _,
          .prop ["images".toList, overlayName o] _ _, .prop _ _ _, .node _, .prop _ _ _] := rfl
    rw [here, values_node, values_of_ne data, values_of_ne type, values_of_ne arch, values_self,
      values_of_ne compression, values_node, values_of_ne algo]
    rfl
  rw [parts, values_append, values_append, before, behind, overlay]
  rfl

/-- **No list of overlays**: the property has its other form, with the device tree alone. -/
theorem parse_render_none (b : BootImage) : ∃ es, parse (b.render none) = some es ∧
    values (decls [] es) ["configurations".toList, "config@1".toList] "fdt".toList =
      [[.string "fdt@1".toList]] := by
  obtain ⟨k₁, lex₁, parse₁⟩ := emit_front b (List.forall_mem_nil _)
  obtain ⟨k₂, lex₂, parse₂⟩ := says_stringLine (d := 2) 3 (by decide : IsName "fdt".toList)
    (by decide : Quotable "fdt@1".toList)
  obtain ⟨k₃, lex₃, parse₃⟩ := emit_tailLines
  have parsed := parse_of_emit (emit_trans (emit_trans lex₁ lex₂) lex₃)
    (emit_trans (emit_trans (parse₁ (by simp)) parse₂) parse₃)
  exact ⟨_, parsed.1, rfl⟩

/-- The second loop lists what the first one makes. -/
theorem describes_singleton (h : ∀ c ∈ stem o, isNameChar c = true) : b.Describes [o] := by
  obtain ⟨parsed, balanced⟩ := parse_render_singleton b h
  refine ⟨balanced, oneSays b o, parsed, values_fdt, fun w hw => ?_, fun i o' ho => ?_⟩
  · rcases List.mem_cons.mp hw with rfl | hw
    · exact count_fdt
    · obtain rfl : w = overlayName o := by simpa using hw
      exact count_overlay
  · obtain ⟨rfl, rfl⟩ : i = 0 ∧ o = o' := by
      cases i with
      | zero => exact ⟨rfl, by simpa using ho⟩
      | succ i => simp at ho
    exact values_load

/-- **The file lists all overlays exactly if there is one of them**, and its name is one that a
node may have. -/
theorem BootImage.describes_iff (b : BootImage) (overlays : List Text) :
    b.Describes overlays ↔ ∃ o, overlays = [o] ∧ ∀ c ∈ stem o, isNameChar c = true := by
  constructor
  · intro h
    have stems : ∀ o ∈ overlays, ∀ c ∈ stem o, isNameChar c = true :=
      fun o ho => h.isNameChar_stem ho
    obtain ⟨es, parsed⟩ := h.parsed
    cases overlays with
    | nil => exact absurd parsed (by rw [parse_render_nil]; exact nofun)
    | cons o os =>
      cases os with
      | nil => exact ⟨o, rfl, stems o (by simp)⟩
      | cons o' os => exact absurd parsed (by rw [parse_render_cons_cons b stems]; exact nofun)
  · rintro ⟨o, rfl, h⟩
    exact describes_singleton h

end Whole

/-- The section of the Raspberry Pi. -/
def rpiBootImage : BootImage where
  kernelImage := ⟨"Image".toList, by decide⟩
  kernelLoad := ⟨"00800000".toList, 0x800000, by decide, by decide, by decide⟩
  kernelEntry := ⟨"00800000".toList, 0x800000, by decide, by decide, by decide⟩
  dtbLoad := ⟨"02600000".toList, 0x2600000, by decide, by decide, by decide⟩
  initrdLoad := ⟨"03000000".toList, 0x3000000, by decide, by decide, by decide⟩
  initramfs := ⟨"bootramfs.cpio.gz".toList, by decide⟩
  overlayLoad := ⟨"02700000".toList, 0x2700000, by decide, by decide, by decide⟩

/-- A second overlay in the section of the Raspberry Pi makes the file unreadable. -/
theorem not_describes_rpi :
    ¬ rpiBootImage.Describes ["enable-audio.dtbo".toList, "enable-i2c.dtbo".toList] := by
  intro h
  obtain ⟨es, parsed⟩ := h.parsed
  rw [parse_render_cons_cons _ fun o ho => h.isNameChar_stem ho] at parsed
  cases parsed

end VeRoot
