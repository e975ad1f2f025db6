import OverlayCache.Json.Basic

/-
  Writing JSON texts.

  A text is written without blanks.  In strings only quotes,
  backslashes and controls are escaped, the common controls
  by a letter and the others by four hexadecimal digits.

  Key definitions include:
    * `Json.Writer.glyph`
    * `Json.Writer.value`
    * `Json.write`
-/

------------------------------------------------------------
-- Strings And Integers
------------------------------------------------------------

namespace OverlayCache

namespace Json

namespace Writer

/- The letter of a one-letter escape. -/
def letter? : Char → Option Char
| '"' => some '"'
| '\\' => some '\\'
| '\x08' => some 'b'
| '\x0c' => some 'f'
| '\n' => some 'n'
| '\r' => some 'r'
| '\t' => some 't'
| _ => none

/- An escape by four hexadecimal digits. -/
def unit (n : Nat) : List Char :=
  ['\\', 'u', Nat.digitChar (n / 0x1000 % 16),
    Nat.digitChar (n / 0x100 % 16),
    Nat.digitChar (n / 0x10 % 16), Nat.digitChar (n % 16)]

/- The written form of one glyph. -/
def glyph : Glyph → List Char
| .surrogate n => unit n
| .char c =>
    match letter? c with
    | some l => ['\\', l]
    | none => if c.toNat < 0x20 then unit c.toNat else [c]

/- A string between quotes. -/
def string (gs : List Glyph) : List Char :=
  '"' :: gs.flatMap glyph ++ ['"']

/- The decimal digits of an integer after its sign. -/
def integer : Int → List Char
| .ofNat n => Nat.toDigits 10 n
| .negSucc n => '-' :: Nat.toDigits 10 (n + 1)

end Writer

end Json

end OverlayCache

------------------------------------------------------------
-- Values
------------------------------------------------------------

namespace OverlayCache

namespace Json

namespace Writer

mutual

/- The written form of a value. -/
def value : Json → List Char
| .null => ['n', 'u', 'l', 'l']
| .bool true => ['t', 'r', 'u', 'e']
| .bool false => ['f', 'a', 'l', 's', 'e']
| .int n => integer n
| .real token => token
| .str gs => string gs
| .arr [] => ['[', ']']
| .arr (item :: items) =>
    '[' :: value item ++ moreItems items
| .obj [] => ['{', '}']
| .obj ((name, item) :: ms) =>
    '{' :: string name ++ ':' :: value item ++
      moreMembers ms

/- The items after the first and the closing bracket. -/
def moreItems : List Json → List Char
| [] => [']']
| item :: items => ',' :: value item ++ moreItems items

/- The members after the first and the closing brace. -/
def moreMembers : Members → List Char
| [] => ['}']
| (name, item) :: ms =>
    ',' :: string name ++ ':' :: value item ++
      moreMembers ms

end

end Writer

/- The text that writes a value. -/
def write (j : Json) : String :=
  String.ofList (Writer.value j)

end Json

end OverlayCache
