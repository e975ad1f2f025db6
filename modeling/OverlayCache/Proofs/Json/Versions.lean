import Mathlib.Data.List.TakeWhile
import Mathlib.Data.Nat.Digits.Defs
import OverlayCache.Json.VersionForm
import OverlayCache.Proofs.Json.Values

/-
  The texts that versions are read from.

  A number has one numeral, which is its digits without a zero
  in front.  An integer is read from no other token than the
  one it is written as, so that a version is read from the
  numeral of its number with blanks on both sides, and from
  nothing else.

  Key definitions include:
    * `Json.Numeral`
    * `Json.Blanks`
    * `Json.Spells`

  The main statements are:
    * `Json.numeral_iff`
    * `Json.Reader.eq_integer_of_number`
    * `Json.read?_eq_some_int_iff`
    * `Version.reads_numerals_that_fit`
-/

------------------------------------------------------------
-- Numerals
------------------------------------------------------------

namespace OverlayCache

namespace Json

/- The number that one digit stands for. -/
def digit (c : Char) : Nat :=
  c.toNat - '0'.toNat

/-
  Digits write a number.  The last of them counts ones, the one
  before it tens, and so on.  Zero alone begins with a zero.
-/
structure Numeral (ds : List Char) (n : Nat) : Prop where
  ne_nil : ds ≠ []
  isDigit : ∀ c ∈ ds, c.isDigit = true
  leading : ds.head? = some '0' → ds = ['0']
  value : Nat.ofDigits 10 (ds.reverse.map digit) = n

variable {c : Char}

theorem digit_lt
    (hDigit : c.isDigit = true) :
    digit c < 10 := by
  have hRange := Char.isDigit_iff_toNat.mp hDigit
  simp only [digit, Char.reduceToNat] at hRange ⊢
  omega

/- A digit is written as itself. -/
theorem toDigits_digit
    (hDigit : c.isDigit = true) :
    Nat.toDigits 10 (digit c) = [c] := by
  have hRange := Char.isDigit_iff_toNat.mp hDigit
  have hChar : Nat.digitChar (digit c) = c := by
    apply Char.toNat_inj.mp
    rw [Nat.toNat_digitChar_of_lt_ten (digit_lt hDigit), digit]
    simp only [Char.reduceToNat] at hRange ⊢
    omega
  rw [Nat.toDigits_of_lt_base (digit_lt hDigit), hChar]

/- Only a zero stands for zero. -/
theorem digit_pos
    (hDigit : c.isDigit = true)
    (hNe : c ≠ '0') :
    0 < digit c := by
  apply Nat.pos_of_ne_zero
  intro hZero
  have hWritten := toDigits_digit hDigit
  rw [hZero, Nat.toDigits_zero] at hWritten
  exact hNe (List.cons.inj hWritten).1.symm

/- Place values add up to what the reader accumulates. -/
theorem ofDigits_reverse (ds : List Char) :
    Nat.ofDigits 10 (ds.reverse.map digit) =
      Reader.decimal ds := by
  rw [Nat.ofDigits_eq_foldr, List.map_reverse,
    List.foldr_reverse, List.foldl_map, Reader.decimal]
  simp only [digit, Nat.cast_id, Nat.add_comm]

/-
  Further digits go on with a number that is not zero.  They
  are read from the left, as they are accumulated.
-/
theorem toDigits_append_digits
    {n : Nat}
    {ds : List Char}
    (hPos : 0 < n)
    (hDigits : ∀ c ∈ ds, c.isDigit = true) :
    Nat.toDigits 10 n ++ ds =
      Nat.toDigits 10 (Nat.ofDigitChars 10 ds n) := by
  induction ds generalizing n with
  | nil => rw [List.append_nil, Nat.ofDigitChars_nil]
  | cons c ds ih =>
      have hFirst : c.isDigit = true :=
        hDigits c List.mem_cons_self
      have hRest : ∀ d ∈ ds, d.isDigit = true :=
        fun d hMem => hDigits d (List.mem_cons_of_mem c hMem)
      have hMore :
          Nat.toDigits 10 n ++ [c] =
            Nat.toDigits 10 (10 * n + digit c) := by
        rw [← Nat.toDigits_append_toDigits (by decide) hPos
            (digit_lt hFirst),
          toDigits_digit hFirst]
      calc
        Nat.toDigits 10 n ++ c :: ds =
            Nat.toDigits 10 n ++ [c] ++ ds := by simp
        _ = Nat.toDigits 10 (10 * n + digit c) ++ ds := by
            rw [hMore]
        _ = Nat.toDigits 10
              (Nat.ofDigitChars 10 (c :: ds) n) :=
            ih (by omega) hRest

/- Without a leading zero, digits are those of their number. -/
theorem toDigits_decimal
    {ds : List Char}
    (hNe : ds ≠ [])
    (hDigits : ∀ c ∈ ds, c.isDigit = true)
    (hLeading : ds.head? = some '0' → ds = ['0']) :
    Nat.toDigits 10 (Reader.decimal ds) = ds := by
  cases ds with
  | nil => exact absurd rfl hNe
  | cons c ds =>
      have hFirst : c.isDigit = true :=
        hDigits c List.mem_cons_self
      -- After any other digit the accumulated number is positive.
      by_cases hZero : c = '0'
      · subst hZero
        rw [hLeading rfl]
        rfl
      · have hAll :
            [c] ++ ds =
              Nat.toDigits 10
                (Nat.ofDigitChars 10 ds (digit c)) := by
          rw [← toDigits_append_digits
              (digit_pos hFirst hZero)
              (fun d hMem =>
                hDigits d (List.mem_cons_of_mem c hMem)),
            toDigits_digit hFirst]
        rw [Nat.ofDigitChars_eq_foldl] at hAll
        rw [Reader.decimal, List.foldl_cons, Nat.mul_zero,
          Nat.zero_add]
        exact hAll.symm

/- Each number has one numeral, which it is written as. -/
theorem numeral_iff
    {ds : List Char}
    {n : Nat} :
    Numeral ds n ↔ ds = Nat.toDigits 10 n := by
  constructor
  · rintro ⟨hNe, hDigits, hLeading, rfl⟩
    rw [ofDigits_reverse]
    exact (toDigits_decimal hNe hDigits hLeading).symm
  · rintro rfl
    constructor
    · exact Nat.toDigits_ne_nil
    · intro c hMem
      exact
        Nat.isDigit_of_mem_toDigits (by decide) (by decide)
          hMem
    · intro hZero
      rw [Reader.eq_zero_of_head?_toDigits hZero,
        Nat.toDigits_zero]
    · rw [ofDigits_reverse, Reader.decimal_toDigits]

end Json

end OverlayCache

------------------------------------------------------------
-- Integers In Front
------------------------------------------------------------

namespace OverlayCache

namespace Json

namespace Reader

variable {s ds rest : List Char}

theorem append_of_digits?
    (hDigits : digits? s = some (ds, rest)) :
    s = ds ++ rest ∧ ds ≠ [] ∧
      ∀ c ∈ ds, c.isDigit = true := by
  unfold digits? at hDigits
  split at hDigits
  · cases hDigits
  · next hNe =>
      cases hDigits
      refine ⟨List.takeWhile_append_dropWhile.symm,
        hNe, ?_⟩
      intro c hMem
      exact List.mem_takeWhile_imp hMem

/- The digits before a point are a numeral. -/
theorem append_of_whole?
    (hWhole : whole? s = some (ds, rest)) :
    s = ds ++ rest ∧ Numeral ds (decimal ds) := by
  unfold whole? at hWhole
  split at hWhole
  · cases hWhole
    exact ⟨rfl, numeral_iff.mpr rfl⟩
  · next hNoZero =>
      rcases append_of_digits? hWhole with
        ⟨rfl, hNe, hDigits⟩
      refine ⟨rfl, hNe, hDigits, ?_, ofDigits_reverse ds⟩
      intro hZero
      rcases List.head?_eq_some_iff.mp hZero with
        ⟨ds', rfl⟩
      exact absurd rfl (hNoZero (ds' ++ rest))

theorem eq_of_fraction?
    (hNone : fraction? s = some ([], rest)) :
    s = rest := by
  unfold fraction? at hNone
  split at hNone
  · simp [Option.bind_eq_some_iff] at hNone
  · cases hNone
    rfl

theorem eq_of_exponent?
    (hNone : exponent? s = some ([], rest)) :
    s = rest := by
  unfold exponent? at hNone
  split at hNone
  · split at hNone
    · simp [Option.bind_eq_some_iff] at hNone
    · cases hNone
      rfl
  · cases hNone
    rfl

theorem sign_cases (s : List Char) :
    sign s = ([], s) ∨
      ∃ rest : List Char,
        s = '-' :: rest ∧ sign s = (['-'], rest) := by
  unfold sign
  split
  · next rest => exact .inr ⟨rest, rfl, rfl⟩
  · exact .inl rfl

/- A numeral is what its number is written as. -/
theorem integer_unsigned
    (hDigits : Numeral ds (decimal ds)) :
    Writer.integer (integer [] ds) = ds :=
  (numeral_iff.mp hDigits).symm

/- A minus stands before a numeral that is not zero. -/
theorem integer_minus
    (hDigits : Numeral ds (decimal ds))
    (hNe : ds ≠ ['0']) :
    Writer.integer (integer ['-'] ds) = '-' :: ds := by
  have hWritten := numeral_iff.mp hDigits
  cases hValue : decimal ds with
  | zero =>
      rw [hValue, Nat.toDigits_zero] at hWritten
      exact absurd hWritten hNe
  | succ n =>
      have hInteger :
          integer ['-'] ds = .negSucc n := by
        simp [integer, hValue, Int.negSucc_eq]
      rw [hInteger, Writer.integer, ← hValue, ← hWritten]

/-
  An integer is read from the token that it is written as,
  whatever follows.
-/
theorem eq_integer_of_number
    {n : Int}
    (hNumber : number s = some (.int n, rest)) :
    s = Writer.integer n ++ rest := by
  simp only [number, Option.bind_eq_bind,
    Option.bind_eq_some_iff, Prod.exists] at hNumber
  rcases hNumber with
    ⟨ds, rest₂, hWhole, frac, rest₃, hFrac, exp, rest₄,
      hExp, hToken⟩
  split at hToken
  · next hInteger =>
      rcases hInteger with ⟨rfl, rfl, hSign⟩
      cases hToken
      rcases append_of_whole? hWhole with ⟨hRest, hDigits⟩
      rw [eq_of_fraction? hFrac, eq_of_exponent? hExp]
        at hRest
      -- A minus before a lone zero is no integer token.
      rcases sign_cases s with hNone | ⟨rest₁, rfl, hMinus⟩
      · rw [hNone] at hRest ⊢
        rw [integer_unsigned hDigits]
        exact hRest
      · rw [hMinus] at hRest hSign ⊢
        rw [integer_minus hDigits (by simpa using hSign),
          List.cons_append, ← hRest]
  · cases hToken

end Reader

end Json

end OverlayCache

------------------------------------------------------------
-- Integers Between Blanks
------------------------------------------------------------

namespace OverlayCache

namespace Json

/- Nothing but spaces, tabs and ends of lines. -/
def Blanks (cs : List Char) : Prop :=
  ∀ c ∈ cs, c = ' ' ∨ c = '\t' ∨ c = '\n' ∨ c = '\r'

/- A text is the numeral of a number with blanks around it. -/
def Spells (s : String) (n : Nat) : Prop :=
  ∃ before ds after : List Char,
    s.toList = before ++ ds ++ after ∧
      Blanks before ∧ Numeral ds n ∧ Blanks after

namespace Reader

variable {cs s rest : List Char}

theorem blanks_iff :
    Blanks cs ↔ ∀ c ∈ cs, isBlank c = true := by
  simp [Blanks, isBlank, or_assoc]

theorem skip_append_of_blanks
    (hBlanks : Blanks cs)
    (s : List Char) :
    skip (cs ++ s) = skip s :=
  List.dropWhile_append_of_pos (blanks_iff.mp hBlanks)

theorem skip_eq_nil_iff :
    skip cs = [] ↔ Blanks cs := by
  rw [skip, List.dropWhile_eq_nil_iff, blanks_iff]

theorem exists_blanks_skip (s : List Char) :
    ∃ cs : List Char, Blanks cs ∧ s = cs ++ skip s := by
  refine ⟨s.takeWhile isBlank, blanks_iff.mpr ?_,
    List.takeWhile_append_dropWhile.symm⟩
  intro c hMem
  exact List.mem_takeWhile_imp hMem

/- A blank ends a number. -/
theorem endsNumber_of_blanks
    (hBlanks : Blanks cs) :
    EndsNumber cs := by
  intro c hHead
  rcases hBlanks c (List.mem_of_head? hHead) with
    rfl | rfl | rfl | rfl <;> decide

/- No value but a number is an integer. -/
theorem number_of_value
    {fuel : Nat}
    {n : Int}
    (hValue : value fuel s = some (.int n, rest)) :
    number (skip s) = some (.int n, rest) := by
  cases fuel with
  | zero => cases hValue
  | succ fuel =>
      rw [value] at hValue
      -- Words, strings, arrays and objects, then numbers.
      split at hValue
      · cases hValue
      · cases hValue
      · cases hValue
      · simp [Option.bind_eq_some_iff] at hValue
      · split at hValue <;>
          simp [Option.bind_eq_some_iff] at hValue
      · split at hValue <;>
          simp [Option.bind_eq_some_iff] at hValue
      · exact hValue

theorem value_append_of_blanks
    (hBlanks : Blanks cs)
    (fuel : Nat)
    (s : List Char) :
    value fuel (cs ++ s) = value fuel s := by
  cases fuel with
  | zero => rfl
  | succ fuel =>
      rw [value, value, skip_append_of_blanks hBlanks]

end Reader

/-
  An integer is read from the text that it is written as, with
  blanks around it, and from no other text.
-/
theorem read?_eq_some_int_iff
    {s : String}
    {n : Int} :
    read? s = some (.int n) ↔
      ∃ before after : List Char,
        s.toList = before ++ Writer.integer n ++ after ∧
          Blanks before ∧ Blanks after := by
  constructor
  · intro hRead
    simp only [read?, Option.bind_eq_bind,
      Option.bind_eq_some_iff, Prod.exists,
      Option.ite_none_right_eq_some, Option.some.injEq]
      at hRead
    rcases hRead with ⟨_, rest, hValue, hEnd, rfl⟩
    rcases Reader.exists_blanks_skip s.toList with
      ⟨before, hBefore, hSplit⟩
    have hToken :
        Reader.skip s.toList = Writer.integer n ++ rest :=
      Reader.eq_integer_of_number
        (Reader.number_of_value hValue)
    refine ⟨before, rest, ?_, hBefore,
      Reader.skip_eq_nil_iff.mp hEnd⟩
    rw [List.append_assoc, ← hToken]
    exact hSplit
  · rintro ⟨before, after, hSplit, hBefore, hAfter⟩
    have hLength :
        (Writer.integer n).length ≤ s.toList.length := by
      rw [hSplit]
      simp only [List.length_append]
      omega
    have hValue (fuel : Nat)
        (hFuel : (Writer.integer n).length < fuel) :
        Reader.value fuel s.toList = some (.int n, after) := by
      rw [hSplit, List.append_assoc,
        Reader.value_append_of_blanks hBefore]
      exact
        Reader.value_written (.int n) trivial
          (by rw [Writer.value]; exact hFuel)
          (Reader.endsNumber_of_blanks hAfter)
    rw [read?, hValue _ (by omega)]
    exact if_pos (Reader.skip_eq_nil_iff.mpr hAfter)

/- Without a sign, that text is the numeral of the number. -/
theorem read?_eq_some_nat_iff
    {s : String}
    {n : Nat} :
    read? s = some (.int n) ↔ Spells s n := by
  rw [read?_eq_some_int_iff]
  constructor
  · rintro ⟨before, after, hSplit, hBefore, hAfter⟩
    exact
      ⟨before, Nat.toDigits 10 n, after, hSplit, hBefore,
        numeral_iff.mpr rfl, hAfter⟩
  · rintro ⟨before, ds, after, hSplit, hBefore, hDigits,
      hAfter⟩
    rw [numeral_iff.mp hDigits] at hSplit
    exact ⟨before, after, hSplit, hBefore, hAfter⟩

end Json

end OverlayCache

------------------------------------------------------------
-- Versions
------------------------------------------------------------

namespace OverlayCache

namespace Version

/- A version is read from its own form only. -/
theorem ofJson?_eq_some_iff
    {j : Json}
    {v : Version} :
    ofJson? j = some v ↔ j = v.toJson := by
  constructor
  · intro hRead
    cases j with
    | int n =>
        simp only [ofJson?] at hRead
        split at hRead
        · next hFits =>
            cases hRead
            have hNat : n.toNat < UInt64.size := by omega
            have hInt : (n.toNat : Int) = n :=
              Int.toNat_of_nonneg hFits.1
            rw [toJson, UInt64.toNat_ofNat_of_lt' hNat, hInt]
        · cases hRead
    | _ => cases hRead
  · rintro rfl
    have hFits := v.number.toNat_lt_size
    simp only [toJson, ofJson?]
    rw [if_pos (by omega), Int.toNat_natCast,
      UInt64.ofNat_toNat]

/- Its text is the numeral of its number, between blanks. -/
theorem read?_eq_some_iff
    {s : String}
    {v : Version} :
    read? s = some v ↔ Json.Spells s v.number.toNat := by
  rw [read?, Option.bind_eq_bind, Option.bind_eq_some_iff]
  simp only [ofJson?_eq_some_iff, exists_eq_right, toJson]
  exact Json.read?_eq_some_nat_iff

theorem read?_eq_none_iff
    {s : String} :
    read? s = none ↔
      ¬ ∃ n : Nat, n < UInt64.size ∧ Json.Spells s n := by
  rw [Option.eq_none_iff_forall_ne_some]
  constructor
  · rintro hNone ⟨n, hLt, hSpells⟩
    apply hNone ⟨UInt64.ofNat n⟩
    rw [read?_eq_some_iff, UInt64.toNat_ofNat_of_lt' hLt]
    exact hSpells
  · intro hNone v hRead
    exact
      hNone ⟨v.number.toNat, v.number.toNat_lt_size,
        read?_eq_some_iff.mp hRead⟩

/- A version is written as the numeral of its number. -/
theorem numeral_write (v : Version) :
    Json.Numeral v.write.toList v.number.toNat := by
  rw [Json.numeral_iff, write, Json.write,
    String.toList_ofList, toJson, Json.Writer.value]
  rfl

/- So its text is read back, with no blanks in it. -/
theorem read?_write (v : Version) :
    read? v.write = some v := by
  have hSpells : Json.Spells v.write v.number.toNat :=
    ⟨[], v.write.toList, [], by simp, by simp [Json.Blanks],
      v.numeral_write, by simp [Json.Blanks]⟩
  exact read?_eq_some_iff.mpr hSpells

/-
  A version is read from the numeral of a number that fits,
  with blanks around it, and all other texts are refused.  The
  version itself is written as this numeral alone, from which
  it is read back.
-/
theorem reads_numerals_that_fit :
    (∀ (s : String) (n : UInt64),
      read? s = some ⟨n⟩ ↔ Json.Spells s n.toNat) ∧
    (∀ s : String,
      read? s = none ↔
        ¬ ∃ n : Nat, n < UInt64.size ∧ Json.Spells s n) ∧
    (∀ n : UInt64,
      Json.Numeral (write ⟨n⟩).toList n.toNat ∧
        read? (write ⟨n⟩) = some ⟨n⟩) :=
  ⟨fun _ _ => read?_eq_some_iff, fun _ => read?_eq_none_iff,
    fun n => ⟨numeral_write ⟨n⟩, read?_write ⟨n⟩⟩⟩

/- The largest version ends what is read. -/
example :
    read? "\t18446744073709551615 \n" =
        some ⟨18446744073709551615⟩ ∧
      read? "18446744073709551616" = none ∧
      read? "018446744073709551615" = none := by
  decide +kernel

end Version

end OverlayCache
