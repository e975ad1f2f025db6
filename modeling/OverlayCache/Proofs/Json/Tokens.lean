import OverlayCache.Json.Reader
import OverlayCache.Json.Writer

/-
  Written strings and integers are read back.

  Each character of a text has one written form, by itself or
  as an escape, and the reader takes exactly that form from
  the front of what it is given.  An integer is read up to the
  first character that cannot belong to a number.

  Key definitions include:
    * `Json.EndsNumber`

  The main statements are:
    * `Json.Reader.units_glyph`
    * `Json.Reader.string_text`
    * `Json.Reader.number_integer`
-/

------------------------------------------------------------
-- Escapes
------------------------------------------------------------

namespace OverlayCache

namespace Json

namespace Reader

/- A hexadecimal digit has the value that it was written for. -/
theorem hexDigit?_digitChar
    {d : Nat}
    (hLt : d < 16) :
    hexDigit? (Nat.digitChar d) = some d := by
  revert d
  decide

/- Four digits write a unit of 16 bits. -/
theorem hex4?_digitChar
    {n : Nat}
    (hLt : n < 0x10000) :
    hex4? (Nat.digitChar (n / 0x1000 % 16))
        (Nat.digitChar (n / 0x100 % 16))
        (Nat.digitChar (n / 0x10 % 16))
        (Nat.digitChar (n % 16)) =
      some n := by
  have hDigit :
      ∀ k : Nat, hexDigit? (Nat.digitChar (k % 16)) =
        some (k % 16) :=
    fun k => hexDigit?_digitChar (Nat.mod_lt k (by decide))
  simp only [hex4?, hDigit, Option.bind_eq_bind,
    Option.bind_some, Option.some.injEq]
  omega

/- A unit below the surrogates is a character. -/
theorem ofUnit_toNat
    {c : Char}
    (hLt : c.toNat < 0xD800) :
    ofUnit c.toNat = .char c := by
  have hHigh : isHigh c.toNat = false := by
    simp [isHigh]
    omega
  have hLow : isLow c.toNat = false := by
    simp [isLow]
    omega
  simp [ofUnit, hHigh, hLow, Char.ofNat_toNat]

/- The letter of an escape stands for its character. -/
theorem letter?_of_letter?
    {c l : Char}
    (hLetter : Writer.letter? c = some l) :
    letter? l = some c ∧ l ≠ 'u' := by
  unfold Writer.letter? at hLetter
  split at hLetter <;> cases hLetter <;> decide

/- A character without a letter is no quote or backslash. -/
theorem ne_of_letter?_eq_none
    {c : Char}
    (hNone : Writer.letter? c = none) :
    c ≠ '"' ∧ c ≠ '\\' := by
  constructor
  · rintro rfl
    cases hNone
  · rintro rfl
    cases hNone

end Reader

end Json

end OverlayCache

------------------------------------------------------------
-- Strings
------------------------------------------------------------

namespace OverlayCache

namespace Json

namespace Reader

/- An escape by a letter is read as its character. -/
theorem units_letter
    {c l : Char}
    (hLetter : Writer.letter? c = some l)
    (rest : List Char) :
    units ('\\' :: l :: rest) =
      (units rest).map (fun r => (.char c :: r.1, r.2)) := by
  rcases letter?_of_letter? hLetter with ⟨hRead, hNe⟩
  rw [units.eq_4 l rest (fun _ _ _ _ _ hEq _ => hNe hEq),
    hRead]
  cases units rest <;> rfl

/- An escape by digits is read as its unit. -/
theorem units_unit
    {n : Nat}
    (hLt : n < 0x10000)
    (rest : List Char) :
    units (Writer.unit n ++ rest) =
      (units rest).map (fun r => (ofUnit n :: r.1, r.2)) := by
  simp only [Writer.unit, List.cons_append, List.nil_append]
  rw [units.eq_3, hex4?_digitChar hLt]
  cases units rest <;> rfl

/- Any other character is read as it stands. -/
theorem units_cons
    {c : Char}
    (hQuote : c ≠ '"')
    (hSlash : c ≠ '\\')
    (hText : 0x20 ≤ c.toNat)
    (rest : List Char) :
    units (c :: rest) =
      (units rest).map (fun r => (.char c :: r.1, r.2)) := by
  have hPlain : ¬ (c = '\\' ∨ c.toNat < 0x20) := by
    simp only [hSlash, false_or]
    omega
  rw [units.eq_5 c rest (fun h => hQuote h)
    (fun _ _ _ _ _ h _ => hSlash h)
    (fun _ _ h _ => hSlash h), if_neg hPlain]
  cases units rest <;> rfl

/- The written form of a character is read as this character. -/
theorem units_glyph
    (c : Char)
    (rest : List Char) :
    units (Writer.glyph (.char c) ++ rest) =
      (units rest).map (fun r => (.char c :: r.1, r.2)) := by
  simp only [Writer.glyph]
  cases hLetter : Writer.letter? c with
  | some l => exact units_letter hLetter rest
  | none =>
      rcases ne_of_letter?_eq_none hLetter with
        ⟨hQuote, hSlash⟩
      by_cases hControl : c.toNat < 0x20
      · simp only [if_pos hControl]
        rw [units_unit (by omega), ofUnit_toNat (by omega)]
      · simp only [if_neg hControl]
        exact units_cons hQuote hSlash (by omega) rest

/- So is a whole text, up to the quote that closes it. -/
theorem units_text
    (cs rest : List Char) :
    units ((cs.map Glyph.char).flatMap Writer.glyph ++
        '"' :: rest) =
      some (cs.map .char, rest) := by
  induction cs with
  | nil => rfl
  | cons c cs ih =>
      rw [List.map_cons, List.flatMap_cons, List.append_assoc,
        units_glyph, ih]
      rfl

/- There are no surrogates in a text to be joined. -/
theorem join_text (cs : List Char) :
    join (cs.map .char) = cs.map .char := by
  induction cs with
  | nil => rfl
  | cons c cs ih =>
      rw [List.map_cons, join, List.foldr_cons]
      change joinFront (.char c) (join (cs.map .char)) = _
      rw [ih]
      rfl

/- A written string is read back after its opening quote. -/
theorem string_text
    (cs rest : List Char) :
    string ((cs.map Glyph.char).flatMap Writer.glyph ++
        '"' :: rest) =
      some (cs.map .char, rest) := by
  simp [string, units_text, join_text]

end Reader

end Json

end OverlayCache

------------------------------------------------------------
-- Integers
------------------------------------------------------------

namespace OverlayCache

namespace Json

/- No number can go on with what follows. -/
def EndsNumber (rest : List Char) : Prop :=
  ∀ c : Char,
    rest.head? = some c →
      c.isDigit = false ∧ c ≠ '.' ∧ c ≠ 'e' ∧ c ≠ 'E'

namespace Reader

/- The digits of a number write it. -/
theorem decimal_toDigits (n : Nat) :
    decimal (Nat.toDigits 10 n) = n := by
  rw [decimal, ← Nat.ofDigitChars_eq_foldl]
  exact Nat.ofDigitChars_ten_toDigits

/- There is a first digit, whatever follows the digits. -/
theorem head?_toDigits_append
    (n : Nat)
    (rest : List Char) :
    (Nat.toDigits 10 n ++ rest).head? =
      (Nat.toDigits 10 n).head? := by
  cases hDigits : Nat.toDigits 10 n with
  | nil => exact absurd hDigits Nat.toDigits_ne_nil
  | cons d ds => rfl

/- Only the digits of zero begin with a zero. -/
theorem eq_zero_of_head?_toDigits
    {n : Nat}
    (hZero : (Nat.toDigits 10 n).head? = some '0') :
    n = 0 := by
  induction n using Nat.strongRecOn with
  | ind n ih =>
      by_cases hLt : n < 10
      · rw [Nat.toDigits_of_lt_base hLt] at hZero
        exact Nat.digitChar_eq_zero.mp
          (Option.some.inj hZero)
      · rw [Nat.toDigits_of_base_le (by decide) (by omega),
          head?_toDigits_append] at hZero
        have hTens := ih (n / 10) (by omega) hZero
        omega

variable {rest : List Char}

/- The digits in front are those of the number. -/
theorem digits?_toDigits
    (hEnds : EndsNumber rest)
    (n : Nat) :
    digits? (Nat.toDigits 10 n ++ rest) =
      some (Nat.toDigits 10 n, rest) := by
  have hDigits :
      ∀ c ∈ Nat.toDigits 10 n, c.isDigit = true :=
    fun c hMem =>
      Nat.isDigit_of_mem_toDigits (by decide) (by decide) hMem
  have hStop : rest.takeWhile Char.isDigit = [] := by
    cases rest with
    | nil => rfl
    | cons c rest =>
        simp [(hEnds c rfl).1]
  have hAll : rest.dropWhile Char.isDigit = rest := by
    cases rest with
    | nil => rfl
    | cons c rest =>
        simp [(hEnds c rfl).1]
  unfold digits?
  rw [List.takeWhile_append_of_pos hDigits,
    List.dropWhile_append_of_pos hDigits, hStop, hAll,
    List.append_nil]
  split
  · next hNil => exact absurd hNil Nat.toDigits_ne_nil
  · rfl

/- So is the whole part, as a leading zero stands alone. -/
theorem whole?_toDigits
    (hEnds : EndsNumber rest)
    (n : Nat) :
    whole? (Nat.toDigits 10 n ++ rest) =
      some (Nat.toDigits 10 n, rest) := by
  unfold whole?
  split
  · next rest' hFront =>
      have hHead :
          (Nat.toDigits 10 n).head? = some '0' := by
        rw [← head?_toDigits_append n rest, hFront]
        rfl
      have hZero := eq_zero_of_head?_toDigits hHead
      subst hZero
      rw [Nat.toDigits_zero] at hFront ⊢
      cases hFront
      rfl
  · exact digits?_toDigits hEnds n

theorem fraction?_of_ends
    (hEnds : EndsNumber rest) :
    fraction? rest = some ([], rest) := by
  cases rest with
  | nil => rfl
  | cons c rest =>
      unfold fraction?
      split
      · next hPoint =>
          cases hPoint
          exact absurd rfl (hEnds '.' rfl).2.1
      · rfl

theorem exponent?_of_ends
    (hEnds : EndsNumber rest) :
    exponent? rest = some ([], rest) := by
  cases rest with
  | nil => rfl
  | cons c rest =>
      have hNone : ¬ (c = 'e' ∨ c = 'E') := by
        rintro (hSmall | hLarge)
        · exact (hEnds c rfl).2.2.1 hSmall
        · exact (hEnds c rfl).2.2.2 hLarge
      simp only [exponent?, if_neg hNone]

/- The digits of a number are no sign. -/
theorem sign_toDigits
    (n : Nat)
    (rest : List Char) :
    sign (Nat.toDigits 10 n ++ rest) =
      ([], Nat.toDigits 10 n ++ rest) := by
  unfold sign
  split
  · next rest' hFront =>
      have hMem : '-' ∈ Nat.toDigits 10 n := by
        apply List.mem_of_head? (l := Nat.toDigits 10 n)
        rw [← head?_toDigits_append n rest, hFront]
        rfl
      have hDigit :=
        Nat.isDigit_of_mem_toDigits (by decide) (by decide)
          hMem
      exact absurd hDigit (by decide)
  · rfl

/- A written integer is read back. -/
theorem number_integer
    (hEnds : EndsNumber rest)
    (n : Int) :
    number (Writer.integer n ++ rest) =
      some (.int n, rest) := by
  cases n with
  | ofNat n =>
      simp [number, Writer.integer, sign_toDigits,
        whole?_toDigits hEnds, fraction?_of_ends hEnds,
        exponent?_of_ends hEnds, integer, decimal_toDigits]
  | negSucc n =>
      have hNe : Nat.toDigits 10 (n + 1) ≠ ['0'] := by
        intro hZero
        have hHead : n + 1 = 0 :=
          eq_zero_of_head?_toDigits (by rw [hZero]; rfl)
        omega
      simp [number, Writer.integer, sign,
        whole?_toDigits hEnds, fraction?_of_ends hEnds,
        exponent?_of_ends hEnds, integer, decimal_toDigits,
        hNe]
      omega

end Reader

end Json

end OverlayCache
