/-! Whole numbers written in decimal digits. -/

namespace ClassicAsp.Text

/-- The largest number that fits a word of 64 bits. -/
def maxWord : Nat := 0xFFFFFFFFFFFFFFFF

/-- The digits of a number. -/
def decimal (n : Nat) : List Char := Nat.toDigits 10 n

/-- The value of a run of ASCII digits. -/
def digitsValue (ds : List Char) : Nat :=
  ds.foldl (fun n d => n * 10 + (d.toNat - '0'.toNat)) 0

/-- The value of a run of ASCII digits, or the limit if that is less. -/
def cappedValue (limit : Nat) (ds : List Char) : Nat :=
  ds.foldl (fun n d => min limit (n * 10 + (d.toNat - '0'.toNat))) 0

/-- Reads ASCII digits, after an optional plus sign, as a number of at most 64 bits. -/
def readWord? (cs : List Char) : Option Nat :=
  let ds := match cs with
    | '+' :: ds => ds
    | ds => ds
  let n := cappedValue (maxWord + 1) ds
  if ds.isEmpty || !ds.all Char.isDigit || maxWord < n then none else some n

end ClassicAsp.Text
