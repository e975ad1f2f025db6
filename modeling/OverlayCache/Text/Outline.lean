import OverlayCache.Text.Quoted

/-
  The debug form of a value.

  An outline is a tree of leaves, labelled parts and groups.
  It is written on one line, or spread over lines with every
  item of a group on a line of its own.

  Key definitions include:
    * `Outline`
    * `Outline.oneLine`
    * `Outline.spread`
    * `Outlined`
-/

------------------------------------------------------------
-- Outlines
------------------------------------------------------------

namespace OverlayCache

/- What stands around the items of a group. -/
structure Bracket where
  opening : String
  closing : String
  padded : Bool := false
deriving DecidableEq, Repr

/- The tree that a debug text shows. -/
inductive Outline where
| leaf (text : String)
| part (label value : Outline)
| group (bracket : Bracket) (items : List Outline)
deriving Inhabited

namespace Outline

/- A named record with its fields. -/
def record
    (name : String)
    (fields : List (String × Outline)) : Outline :=
  .group ⟨name ++ " \x7b", "\x7d", true⟩
    (fields.map (fun f => .part (.leaf f.1) f.2))

/- A named value around another. -/
def wrapper (name : String) (item : Outline) : Outline :=
  .group ⟨name ++ "(", ")", false⟩ [item]

/- A sequence. -/
def list (items : List Outline) : Outline :=
  .group ⟨"[", "]", false⟩ items

/- A mapping, pair after pair. -/
def map (pairs : List (Outline × Outline)) : Outline :=
  .group ⟨"\x7b", "\x7d", false⟩
    (pairs.map (fun p => .part p.1 p.2))

end Outline

end OverlayCache

------------------------------------------------------------
-- One Line
------------------------------------------------------------

namespace OverlayCache

namespace Outline

mutual

/- The outline on one line. -/
def oneLine : Outline → String
| .leaf text => text
| .part label value =>
    label.oneLine ++ ": " ++ value.oneLine
| .group bracket [] =>
    bracket.opening ++ bracket.closing
| .group bracket (item :: items) =>
    let pad := if bracket.padded then " " else ""
    bracket.opening ++ pad ++
      ", ".intercalate (oneLineAll (item :: items)) ++
      pad ++ bracket.closing

/- Every item on one line. -/
def oneLineAll : List Outline → List String
| [] => []
| item :: items => item.oneLine :: oneLineAll items

end

end Outline

end OverlayCache

------------------------------------------------------------
-- Several Lines
------------------------------------------------------------

namespace OverlayCache

namespace Outline

/- Four blanks for each level of nesting. -/
def indent (depth : Nat) : String :=
  String.ofList (List.replicate (4 * depth) ' ')

mutual

/-
  The outline spread over lines, as it stands inside `depth`
  groups.  Every item of a group ends its line with a comma,
  and a group without items stays on one line.
-/
def spreadAt (depth : Nat) : Outline → String
| .leaf text => text
| .part label value =>
    spreadAt depth label ++ ": " ++ spreadAt depth value
| .group bracket [] =>
    bracket.opening ++ bracket.closing
| .group bracket (item :: items) =>
    bracket.opening ++ "\n" ++
      spreadAll (depth + 1) (item :: items) ++
      indent depth ++ bracket.closing

/- The lines of the items of a group. -/
def spreadAll (depth : Nat) : List Outline → String
| [] => ""
| item :: items =>
    indent depth ++ spreadAt depth item ++ ",\n" ++
      spreadAll depth items

end

/- The outline spread over lines. -/
def spread (o : Outline) : String :=
  spreadAt 0 o

/- The outline in the requested form. -/
def text (pretty : Bool) (o : Outline) : String :=
  if pretty then o.spread else o.oneLine

end Outline

end OverlayCache

------------------------------------------------------------
-- Outlined Types
------------------------------------------------------------

namespace OverlayCache

/- Types whose values have a debug form. -/
class Outlined (α : Type) where
  outline : α → Outline

export Outlined (outline)

instance : Outlined Bool where
  outline b := .leaf (if b then "true" else "false")

instance : Outlined Nat where
  outline n := .leaf (toString n)

instance : Outlined Int64 where
  outline n := .leaf (toString n.toInt)

instance : Outlined Int32 where
  outline n := .leaf (toString n.toInt)

instance : Outlined UInt64 where
  outline n := .leaf (toString n.toNat)

instance : Outlined String where
  outline s := .leaf (Quoted.ofString s)

instance {α : Type} [Outlined α] : Outlined (Option α) where
  outline
  | none => .leaf "None"
  | some a => .wrapper "Some" (outline a)

instance {α : Type} [Outlined α] : Outlined (List α) where
  outline l := .list (l.map outline)

end OverlayCache
