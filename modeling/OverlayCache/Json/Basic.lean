/-
  JSON values.

  Objects keep their members in order, repeated names
  included.  Numbers are told apart by their token: one with
  a fraction or an exponent, or a minus before a zero, is not
  an integer.  The text of a string may hold surrogates that
  no escape beside them completes, and then it is no text.

  Key definitions include:
    * `Json.Glyph`
    * `Json`
    * `Json.fields`
    * `Json.body?`
-/

------------------------------------------------------------
-- Strings
------------------------------------------------------------

namespace OverlayCache

namespace Json

/- One item of a string. -/
inductive Glyph where
| char (c : Char)
| surrogate (unit : Nat)
deriving DecidableEq, Repr

namespace Glyph

/- The character of a glyph, if it is one. -/
def char? : Glyph → Option Char
| .char c => some c
| .surrogate _ => none

end Glyph

/- The glyphs of a text. -/
def glyphs (s : String) : List Glyph :=
  s.toList.map .char

/- The text of glyphs, unless a surrogate is among them. -/
def text? (gs : List Glyph) : Option String :=
  (gs.mapM Glyph.char?).map String.ofList

end Json

end OverlayCache

------------------------------------------------------------
-- Values
------------------------------------------------------------

namespace OverlayCache

/- A JSON value. -/
inductive Json where
| null
| bool (b : Bool)
| int (n : Int)
| real (token : List Char)
| str (gs : List Json.Glyph)
| arr (items : List Json)
| obj (members : List (List Json.Glyph × Json))
deriving Inhabited

namespace Json

/- The members of an object. -/
abbrev Members := List (List Glyph × Json)

/- The string of a text. -/
def ofString (s : String) : Json :=
  .str (glyphs s)

/- An object from texts and values. -/
def ofMembers (ms : List (String × Json)) : Json :=
  .obj (ms.map (fun m => (glyphs m.1, m.2)))

end Json

end OverlayCache

------------------------------------------------------------
-- Bodies Of Records
------------------------------------------------------------

namespace OverlayCache

namespace Json

/- The values of all members with a name. -/
def fields (name : String) (ms : Members) : List Json :=
  (ms.filter (fun m => m.1 = glyphs name)).map Prod.snd

/- The value of the one member with a name. -/
def field? (ms : Members) (name : String) : Option Json :=
  match fields name ms with
  | [value] => some value
  | _ => none

/-
  The fields of a record, in the order of their names.

  A record is an array of exactly its fields, or an object
  that has each field once.  Further members are ignored, as
  long as their names are texts.
-/
def body? (names : List String) : Json → Option (List Json)
| .arr items =>
    if items.length = names.length then
      some items
    else
      none
| .obj ms =>
    if ms.all (fun m => (text? m.1).isSome) then
      names.mapM (field? ms)
    else
      none
| _ => none

end Json

end OverlayCache
