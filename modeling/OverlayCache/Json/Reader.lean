import OverlayCache.Json.Basic

/-
  Reading JSON texts.

  A text is one value with blanks around its tokens and with
  nothing after it.  Numbers and strings follow the standard
  grammar, and escapes that form a surrogate pair are joined.

  Key definitions include:
    * `Json.Reader.string`
    * `Json.Reader.number`
    * `Json.Reader.value`
    * `Json.read?`
-/

------------------------------------------------------------
-- Blanks And Digits
------------------------------------------------------------

namespace OverlayCache

namespace Json

namespace Reader

/- The characters that may stand around tokens. -/
def isBlank (c : Char) : Bool :=
  c = ' ' || c = '\t' || c = '\n' || c = '\r'

/- Drop the blanks in front. -/
def skip (s : List Char) : List Char :=
  s.dropWhile isBlank

/- The value of a hexadecimal digit. -/
def hexDigit? (c : Char) : Option Nat :=
  if '0' ≤ c ∧ c ≤ '9' then
    some (c.toNat - '0'.toNat)
  else if 'a' ≤ c ∧ c ≤ 'f' then
    some (c.toNat - 'a'.toNat + 10)
  else if 'A' ≤ c ∧ c ≤ 'F' then
    some (c.toNat - 'A'.toNat + 10)
  else
    none

/- The value of four hexadecimal digits. -/
def hex4? (a b c d : Char) : Option Nat := do
  let w ← hexDigit? a
  let x ← hexDigit? b
  let y ← hexDigit? c
  let z ← hexDigit? d
  some (((w * 16 + x) * 16 + y) * 16 + z)

/- The number that decimal digits write. -/
def decimal (ds : List Char) : Nat :=
  ds.foldl (fun n c => 10 * n + (c.toNat - '0'.toNat)) 0

end Reader

end Json

end OverlayCache

------------------------------------------------------------
-- Strings
------------------------------------------------------------

namespace OverlayCache

namespace Json

namespace Reader

/- The first unit of a surrogate pair. -/
def isHigh (unit : Nat) : Bool :=
  0xD800 ≤ unit && unit ≤ 0xDBFF

/- The second unit of a surrogate pair. -/
def isLow (unit : Nat) : Bool :=
  0xDC00 ≤ unit && unit ≤ 0xDFFF

/- The glyph of a 16-bit unit. -/
def ofUnit (unit : Nat) : Glyph :=
  if isHigh unit || isLow unit then
    .surrogate unit
  else
    .char (Char.ofNat unit)

/- The character of a surrogate pair. -/
def ofPair (high low : Nat) : Char :=
  Char.ofNat
    (0x10000 + (high - 0xD800) * 0x400 + (low - 0xDC00))

/- Put a glyph in front, joined with the next if they pair. -/
def joinFront (g : Glyph) (gs : List Glyph) : List Glyph :=
  match g, gs with
  | .surrogate high, .surrogate low :: rest =>
      if isHigh high && isLow low then
        .char (ofPair high low) :: rest
      else
        g :: gs
  | _, _ => g :: gs

/- Join the surrogates that form pairs. -/
def join (gs : List Glyph) : List Glyph :=
  gs.foldr joinFront []

/- The character of a one-letter escape. -/
def letter? : Char → Option Char
| '"' => some '"'
| '\\' => some '\\'
| '/' => some '/'
| 'b' => some '\x08'
| 'f' => some '\x0c'
| 'n' => some '\n'
| 'r' => some '\r'
| 't' => some '\t'
| _ => none

/-
  The glyphs up to the closing quote, with every escape by
  itself, and what follows the quote.
-/
def units : List Char → Option (List Glyph × List Char)
| [] => none
| '"' :: rest => some ([], rest)
| '\\' :: 'u' :: a :: b :: c :: d :: rest => do
    let unit ← hex4? a b c d
    let (gs, rest') ← units rest
    some (ofUnit unit :: gs, rest')
| '\\' :: l :: rest => do
    let c ← letter? l
    let (gs, rest') ← units rest
    some (.char c :: gs, rest')
| c :: rest =>
    if c = '\\' ∨ c.toNat < 0x20 then
      none
    else do
      let (gs, rest') ← units rest
      some (.char c :: gs, rest')

/- A string after its opening quote. -/
def string (s : List Char) :
    Option (List Glyph × List Char) := do
  let (gs, rest) ← units s
  some (join gs, rest)

end Reader

end Json

end OverlayCache

------------------------------------------------------------
-- Numbers
------------------------------------------------------------

namespace OverlayCache

namespace Json

namespace Reader

/- A nonempty run of decimal digits in front. -/
def digits? (s : List Char) :
    Option (List Char × List Char) :=
  match s.takeWhile Char.isDigit with
  | [] => none
  | ds => some (ds, s.dropWhile Char.isDigit)

/- The sign in front, if there is one. -/
def sign (s : List Char) : List Char × List Char :=
  match s with
  | '-' :: rest => (['-'], rest)
  | _ => ([], s)

/- The digits before a point.  A leading zero is alone. -/
def whole? (s : List Char) :
    Option (List Char × List Char) :=
  match s with
  | '0' :: rest => some (['0'], rest)
  | _ => digits? s

/- The point and the digits after it, if there is a point. -/
def fraction? (s : List Char) :
    Option (List Char × List Char) :=
  match s with
  | '.' :: rest => do
      let (ds, rest') ← digits? rest
      some ('.' :: ds, rest')
  | _ => some ([], s)

/- The exponent, if there is one. -/
def exponent? (s : List Char) :
    Option (List Char × List Char) :=
  match s with
  | e :: rest =>
      if e = 'e' ∨ e = 'E' then
        let (mark, rest') :=
          match rest with
          | '+' :: r => (['+'], r)
          | r => sign r
        do
          let (ds, rest'') ← digits? rest'
          some (e :: mark ++ ds, rest'')
      else
        some ([], s)
  | [] => some ([], s)

/- The value of an integer token. -/
def integer (mark ds : List Char) : Int :=
  if mark = [] then
    (decimal ds : Int)
  else
    -(decimal ds : Int)

/- A number in front. -/
def number (s : List Char) :
    Option (Json × List Char) := do
  let (mark, rest₁) := sign s
  let (ds, rest₂) ← whole? rest₁
  let (frac, rest₃) ← fraction? rest₂
  let (exp, rest₄) ← exponent? rest₃
  if frac = [] ∧ exp = [] ∧ (mark = [] ∨ ds ≠ ['0']) then
    some (.int (integer mark ds), rest₄)
  else
    some (.real (mark ++ ds ++ frac ++ exp), rest₄)

end Reader

end Json

end OverlayCache

------------------------------------------------------------
-- Values
------------------------------------------------------------

namespace OverlayCache

namespace Json

namespace Reader

mutual

/-
  A value in front, and what follows it.  Each level of
  nesting and each further item spends fuel.
-/
def value : Nat → List Char → Option (Json × List Char)
| 0, _ => none
| fuel + 1, s =>
    match skip s with
    | 'n' :: 'u' :: 'l' :: 'l' :: rest => some (.null, rest)
    | 't' :: 'r' :: 'u' :: 'e' :: rest =>
        some (.bool true, rest)
    | 'f' :: 'a' :: 'l' :: 's' :: 'e' :: rest =>
        some (.bool false, rest)
    | '"' :: rest => do
        let (gs, rest') ← string rest
        some (.str gs, rest')
    | '[' :: rest =>
        match skip rest with
        | ']' :: rest' => some (.arr [], rest')
        | rest' => do
            let (items, rest'') ← items fuel rest'
            some (.arr items, rest'')
    | '{' :: rest =>
        match skip rest with
        | '}' :: rest' => some (.obj [], rest')
        | rest' => do
            let (ms, rest'') ← members fuel rest'
            some (.obj ms, rest'')
    | rest => number rest

/- The items of an array up to its closing bracket. -/
def items :
    Nat → List Char → Option (List Json × List Char)
| 0, _ => none
| fuel + 1, s => do
    let (item, rest) ← value fuel s
    match skip rest with
    | ']' :: rest' => some ([item], rest')
    | ',' :: rest' => do
        let (more, rest'') ← items fuel rest'
        some (item :: more, rest'')
    | _ => none

/- The members of an object up to its closing brace. -/
def members :
    Nat → List Char → Option (Members × List Char)
| 0, _ => none
| fuel + 1, s =>
    match skip s with
    | '"' :: rest => do
        let (name, rest₁) ← string rest
        match skip rest₁ with
        | ':' :: rest₂ => do
            let (item, rest₃) ← value fuel rest₂
            match skip rest₃ with
            | '}' :: rest₄ => some ([(name, item)], rest₄)
            | ',' :: rest₄ => do
                let (more, rest₅) ← members fuel rest₄
                some ((name, item) :: more, rest₅)
            | _ => none
        | _ => none
    | _ => none

end

end Reader

/- The value that a text writes.  The fuel covers any text. -/
def read? (s : String) : Option Json := do
  let cs := s.toList
  let (j, rest) ← Reader.value (2 * cs.length + 2) cs
  if Reader.skip rest = [] then some j else none

end Json

end OverlayCache
