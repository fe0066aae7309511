import VeRoot.Unix.Path
import VeRoot.Source.Fetch

/-!
# Where a build puts things

The directories of `mk/environment.mk`, under the defaults of `OUT_BASE` and
`SOURCE_BASE`, and the `SRCDEST` files below them.  `OUT` has the variant in it,
`SOURCE` has not.

## Main definitions

* `Place` — what the directories depend on.
* `Place.out`, `Place.source` and so on — the directories.
* `Call` — one use of a source macro, with its `srcdest`.
-/

namespace VeRoot

open Unix (Text)

/-- What the directories depend on, besides the variant. -/
structure Place where
  /-- `$(CURDIR)` -/
  curdir : Unix.Path
  /-- `$(BASE)`, which is the default of `WORKSPACE`. -/
  base : Unix.Path
  /-- `$(R)` -/
  recipe : Text
  deriving DecidableEq, Repr

namespace Place

variable (E : Place) (v : Text)

/-- `OUT_BASE` -/
def outBase : Unix.Path := E.curdir ++ "out".toList :: Unix.components E.recipe
/-- `SOURCE_BASE` -/
def sourceBase : Unix.Path := E.base ++ "sources".toList :: Unix.components E.recipe
/-- `OUT`: the base, and the variant if there is one. -/
def out : Unix.Path := if v = [] then E.outBase else E.outBase ++ [v]
/-- `SOURCE` -/
def source : Unix.Path := E.sourceBase
/-- `BUILD` -/
def build : Unix.Path := E.out v ++ ["build".toList]
/-- `STAMP` -/
def stamp : Unix.Path := E.out v ++ [".stamp".toList]
/-- `OVERLAYFS` -/
def overlayfs : Unix.Path := E.out v ++ ["overlayfs".toList]
/-- `ROOTFS` -/
def rootfs : Unix.Path := E.out v ++ ["rootfs".toList]
/-- `BOOT` -/
def boot : Unix.Path := E.out v ++ ["boot".toList]
/-- `$(SOURCE)/$(L)/dir` -/
def checkout (l dir : Text) : Unix.Path := E.source ++ Unix.components l ++ Unix.components dir

end Place

/-- `$(notdir u)` -/
def notdir (u : Text) : Text := (Unix.components u).getLastD []

/-- One use of a source macro. -/
structure Call where
  kind : Macro
  /-- `$(L)` -/
  layer : Text
  /-- The checkout-dir. -/
  dir : Text
  url : Text
  /-- `$(GIT_$(L)_dir)`; the other macros have none. -/
  ref : Text
  /-- What is not cloned has the URL of a file. -/
  file : kind ≠ .gitClone → Unix.Plain (notdir url) := by decide
  deriving DecidableEq

/-- What a URL and a reference denote. -/
abbrev Rev := Text × Text

namespace Call

variable (a : Call)

/-- What the settings of the call denote. -/
def rev : Rev := (a.url, a.ref)

/-- The file below the checkout directory that stands for the source. -/
def witness : Unix.Path :=
  if a.kind = .gitClone then [".git".toList, "index".toList] else [notdir a.url]

/-- The checkout directory. -/
def checkout (E : Place) : Unix.Path := Unix.resolve (E.checkout a.layer a.dir)

/-- `SRCDEST` -/
def srcdest (E : Place) : Unix.Path := Unix.resolve (E.checkout a.layer a.dir ++ a.witness)

theorem plain_of_mem_witness {c : Text} (h : c ∈ a.witness) : Unix.Plain c := by
  unfold witness at h
  split_ifs at h with hk
  · simp only [List.mem_cons, List.not_mem_nil, or_false] at h
    rcases h with rfl | rfl <;> decide
  · obtain rfl := List.mem_singleton.mp h
    exact a.file hk

/-- `SRCDEST` lies in the checkout directory. -/
theorem srcdest_eq (E : Place) : a.srcdest E = a.checkout E ++ a.witness := by
  rw [srcdest, checkout, Unix.resolve_append, Unix.foldl_walk fun c hc => a.plain_of_mem_witness hc]

end Call

end VeRoot
