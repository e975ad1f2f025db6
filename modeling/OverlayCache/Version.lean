import OverlayCache.Text.Outline

/-
  Version tokens of stored values.

  Versions are 64-bit numbers, ordered as numbers.  The last
  one has no successor.

  Key definitions include:
    * `Version`
    * `Version.next?`
    * `Version.display`
-/

namespace OverlayCache

/- A version token. -/
structure Version where
  number : UInt64
deriving DecidableEq, Repr

namespace Version

instance : Ord Version where
  compare a b := compare a.number b.number

instance : Max Version where
  max a b := if a.number ≤ b.number then b else a

/- The following version, if the numbers have not run out. -/
def next? (v : Version) : Option Version :=
  if v.number = 0xFFFFFFFFFFFFFFFF then
    none
  else
    some ⟨v.number + 1⟩

/- The text of a version for readers. -/
def display (v : Version) : String :=
  "v:" ++ toString v.number.toNat

instance : Outlined Version where
  outline v := .wrapper "EntryVersion" (outline v.number)

/- A successor counts one further, without wrapping. -/
theorem toNat_number_of_next?
    {v w : Version}
    (h : v.next? = some w) :
    w.number.toNat = v.number.toNat + 1 := by
  unfold next? at h
  split at h
  · cases h
  · next hMax =>
      cases h
      have hLt := v.number.toNat_lt
      have hNe :
          v.number.toNat ≠ 18446744073709551615 :=
        fun hEq => hMax (UInt64.toNat_inj.mp hEq)
      simp only [UInt64.toNat_add, UInt64.toNat_one]
      omega

end Version

end OverlayCache
