import Resolvd.Lib.Bytes

/-!
# ASCII case

Octets seen as ASCII: upper and lower case, comparison that ignores case, and the 0x20 flip of a
letter, which is invisible to that comparison (`toLower_flip`).
-/

namespace Resolvd.Lib

def isAsciiUpper (b : UInt8) : Bool := 0x41 ≤ b && b ≤ 0x5A

def isAsciiLower (b : UInt8) : Bool := 0x61 ≤ b && b ≤ 0x7A

def isAsciiAlphabetic (b : UInt8) : Bool := isAsciiUpper b || isAsciiLower b

/-- The lower-case form of an octet: an upper-case letter gets its 0x20 bit set. -/
def toAsciiLower (b : UInt8) : UInt8 := if isAsciiUpper b then b ||| 0x20 else b

/-- Equality of octet strings up to the case of ASCII letters. -/
def eqIgnoreAsciiCase (a b : Bytes) : Bool := a.map toAsciiLower == b.map toAsciiLower

/-- The octets of an ASCII text. -/
def ascii (s : String) : Bytes := s.toList.map fun c => UInt8.ofNat c.toNat

theorem eqIgnoreAsciiCase_iff {a b : Bytes} :
    eqIgnoreAsciiCase a b = true ↔ a.map toAsciiLower = b.map toAsciiLower := by
  simp [eqIgnoreAsciiCase]

/-- The table of the octets: what lower case does to itself, to a flip and to a full stop. -/
theorem toAsciiLower_table : ∀ b, toAsciiLower (toAsciiLower b) = toAsciiLower b ∧
    (isAsciiAlphabetic b = true → toAsciiLower (b ^^^ 0x20) = toAsciiLower b) ∧
      (toAsciiLower b = 0x2E ↔ b = 0x2E) :=
  forall_byte (by decide +kernel)

theorem toAsciiLower_idem (b : UInt8) : toAsciiLower (toAsciiLower b) = toAsciiLower b :=
  (toAsciiLower_table b).1

theorem map_toAsciiLower_idem (bs : Bytes) :
    (bs.map toAsciiLower).map toAsciiLower = bs.map toAsciiLower := by
  rw [List.map_map]
  exact List.map_congr_left fun b _ => toAsciiLower_idem b

/-- Flipping the 0x20 bit of a letter changes its case only. -/
theorem toAsciiLower_flip {b : UInt8} (h : isAsciiAlphabetic b = true) :
    toAsciiLower (b ^^^ 0x20) = toAsciiLower b :=
  (toAsciiLower_table b).2.1 h

theorem toAsciiLower_eq_stop {b : UInt8} : toAsciiLower b = 0x2E ↔ b = 0x2E :=
  (toAsciiLower_table b).2.2

end Resolvd.Lib
