import OverlayCache.Text.Unprinted

/-
  Quoted text, as debug forms show it.

  A quote, a backslash and the common controls have a short
  escape.  Every other unprinted character is written by its
  code point in braces, and all else stands for itself.

  Key definitions include:
    * `Quoted.escape`
    * `Quoted.ofString`
-/

namespace OverlayCache

namespace Quoted

/- The letter of a short escape. -/
def letter? : Char → Option Char
| '"' => some '"'
| '\\' => some '\\'
| '\n' => some 'n'
| '\r' => some 'r'
| '\t' => some 't'
| '\x00' => some '0'
| _ => none

/- A code point in lower-case hexadecimal, unpadded. -/
def codePoint (c : Char) : List Char :=
  '{' :: Nat.toDigits 16 c.toNat ++ ['}']

/- The written form of one character inside the quotes. -/
def escape (c : Char) : List Char :=
  match letter? c with
  | some l => ['\\', l]
  | none =>
      if isUnprinted c then
        '\\' :: 'u' :: codePoint c
      else
        [c]

/- A text between quotes. -/
def ofString (s : String) : String :=
  String.ofList ('"' :: s.toList.flatMap escape ++ ['"'])

end Quoted

end OverlayCache
