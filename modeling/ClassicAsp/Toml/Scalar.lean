import ClassicAsp.Text.Blank
import ClassicAsp.Text.Numeral
import ClassicAsp.Toml.Value

/-! Scalars of the TOML format: strings, numbers, dates and times. A reader gives what it read and
the rest of the text. -/

namespace ClassicAsp.Toml

/-- Is the character a blank within a line? -/
def isSpace (c : Char) : Bool := c == ' ' || c == '\t'

/-- Can the character stand in a comment or a literal string? -/
def isPlain (c : Char) : Bool :=
  c == '\t' || (0x20 ≤ c.toNat && c.toNat ≤ 0x7E) || 0x80 ≤ c.toNat

/-- Drops the blanks at the front. -/
def skipSpaces (cs : List Char) : List Char := cs.dropWhile isSpace

/-- The number of characters of a line break at the front. -/
def newlineLength? : List Char → Option Nat
  | '\n' :: _ => some 1
  | '\r' :: '\n' :: _ => some 2
  | _ => none

/-- What follows a line break at the front. -/
def newline? (cs : List Char) : Option (List Char) := (newlineLength? cs).map cs.drop

/-- Drops a comment at the front, up to the end of its line. -/
def skipComment : List Char → List Char
  | '#' :: rest => rest.dropWhile isPlain
  | cs => cs

/-- The value of a hexadecimal digit. -/
def hexValue? (c : Char) : Option Nat :=
  if c.isDigit then some (c.toNat - '0'.toNat)
  else if 'a'.toNat ≤ c.toLower.toNat && c.toLower.toNat ≤ 'f'.toNat then
    some (c.toLower.toNat - 'a'.toNat + 10)
  else none

/-- The value of digits in a base, or the limit if that is less, unless one of them is not a digit
of that base. -/
def digitsIn? (limit base : Nat) (ds : List Char) : Option Nat :=
  ds.foldl (fun n d => n.bind fun n =>
    ((hexValue? d).filter (· < base)).map fun v => min limit (n * base + v)) (some 0)

/-- The largest code point. -/
def maxCodePoint : Nat := 0x10FFFF

/-- The character with a code point written in so many hexadecimal digits. -/
def scalar? (count : Nat) (cs : List Char) : Option Char :=
  let ds := cs.take count
  if ds.length < count then none
  else (digitsIn? (maxCodePoint + 1) 16 ds).bind fun n =>
    if h : n.isValidChar then some (Char.ofNatAux n h) else none

/-- The character that an escape stands for, given what follows the backslash, and the number of
characters that it takes there. -/
def escape? : List Char → Option (Char × Nat)
  | 'b' :: _ => some ('\x08', 1)
  | 't' :: _ => some ('\t', 1)
  | 'n' :: _ => some ('\n', 1)
  | 'f' :: _ => some ('\x0c', 1)
  | 'r' :: _ => some ('\r', 1)
  | '"' :: _ => some ('"', 1)
  | '\\' :: _ => some ('\\', 1)
  | 'u' :: rest => (scalar? 4 rest).map (·, 5)
  | 'U' :: rest => (scalar? 8 rest).map (·, 9)
  | _ => none

/-- Reads a basic string after its opening quote, passing over `skip` characters first; `done` is
its text so far, reversed. -/
def basicAfter (skip : Nat) (done : List Char) : List Char → Option (List Char × List Char)
  | [] => none
  | c :: rest =>
    match skip with
    | skip + 1 => basicAfter skip done rest
    | 0 =>
      if c == '"' then some (done.reverse, rest)
      else if c == '\\' then
        match escape? rest with
        | some (e, n) => basicAfter n (e :: done) rest
        | none => none
      else if isPlain c then basicAfter 0 (c :: done) rest
      else none

/-- Counts the blanks and the characters of line breaks at the front, after `n` characters. -/
def breaksLength (n : Nat) : List Char → Nat
  | '\r' :: '\n' :: rest => breaksLength (n + 2) rest
  | c :: rest => if isSpace c || c == '\n' then breaksLength (n + 1) rest else n
  | [] => n

/-- The number of characters after a backslash that joins lines: blanks, a line break, and all
blanks and line breaks after it. -/
def joinLength? (cs : List Char) : Option Nat :=
  let spaces := (cs.takeWhile isSpace).length
  (newlineLength? (cs.drop spaces)).map fun n => breaksLength (spaces + n) (cs.drop (spaces + n))

/-- The quotes that a run of them adds to the text of a string of several lines, and whether it
closes the string. Three quotes close it, and up to two more before them belong to its text. -/
def quoteRun (run : Nat) : Nat × Bool :=
  if run < 3 then (run, false) else (min (run - 3) 2, true)

/-- Reads a string of several lines after its opening quotes, passing over `skip` characters
first; `done` is its text so far, reversed. Only a basic one has escapes. -/
def linesAfter (quote : Char) (skip : Nat) (done : List Char) :
    List Char → Option (List Char × List Char)
  | [] => none
  | c :: rest =>
    match skip with
    | skip + 1 => linesAfter quote skip done rest
    | 0 =>
      if c == quote then
        let run := (rest.takeWhile (· == quote)).length + 1
        let (inner, closed) := quoteRun run
        let text := List.replicate inner quote ++ done
        if closed then some (text.reverse, rest.drop (inner + 2))
        else linesAfter quote (run - 1) text rest
      else if c == '\\' && quote == '"' then
        match joinLength? rest, escape? rest with
        | some n, _ => linesAfter quote n done rest
        | none, some (e, n) => linesAfter quote n (e :: done) rest
        | none, none => none
      else
        match newlineLength? (c :: rest) with
        | some n => linesAfter quote (n - 1) ('\n' :: done) rest
        | none => if isPlain c then linesAfter quote 0 (c :: done) rest else none

/-- Reads a literal string after its opening apostrophe. -/
def literal? (cs : List Char) : Option (List Char × List Char) :=
  let text := cs.takeWhile fun c => isPlain c && c != '\x27'
  match cs.drop text.length with
  | '\x27' :: rest => some (text, rest)
  | _ => none

/-- Drops the line break that may follow the opening quotes of a string of several lines. -/
def dropFirstBreak (cs : List Char) : List Char := (newline? cs).getD cs

/-- Reads a string of any form. -/
def string? : List Char → Option (List Char × List Char)
  | '"' :: '"' :: '"' :: rest => linesAfter '"' 0 [] (dropFirstBreak rest)
  | '"' :: rest => basicAfter 0 [] rest
  | '\x27' :: '\x27' :: '\x27' :: rest => linesAfter '\x27' 0 [] (dropFirstBreak rest)
  | '\x27' :: rest => literal? rest
  | _ => none

/-- Are these digits of a base with single underscores between them, and at least one? -/
def isDigitGroup (isDigit : Char → Bool) : List Char → Bool
  | [] => false
  | [d] => isDigit d
  | d :: '_' :: rest => isDigit d && isDigitGroup isDigit rest
  | d :: rest => isDigit d && isDigitGroup isDigit rest

/-- Is this a decimal number without leading zeros? -/
def isWhole (ds : List Char) : Bool :=
  ds == ['0'] || (isDigitGroup Char.isDigit ds && ds.head? != some '0')

/-- Splits a sign off. -/
def splitSign : List Char → Bool × List Char
  | '-' :: rest => (true, rest)
  | '+' :: rest => (false, rest)
  | cs => (false, cs)

/-- The largest number within 64 bits with a sign. -/
def maxSigned : Nat := 0x7FFFFFFFFFFFFFFF

/-- A number within 64 bits with a sign. -/
def signed? (negative : Bool) (n : Nat) : Option Int :=
  if negative then (if n ≤ maxSigned + 1 then some (-Int.ofNat n) else none)
  else if n ≤ maxSigned then some (Int.ofNat n) else none

/-- The value of digits without their underscores, or one that does not fit if it is too large. -/
def wordIn? (base : Nat) (ds : List Char) : Option Nat :=
  digitsIn? (maxSigned + 2) base (ds.filter (· != '_'))

/-- The value of grouped digits. -/
def groupValue? (base : Nat) (ds : List Char) : Option Nat :=
  if isDigitGroup (fun c => ((hexValue? c).filter (· < base)).isSome) ds then wordIn? base ds
  else none

/-- An integer: decimal with a sign, or hexadecimal, octal or binary with a mark. -/
def integer? : List Char → Option Int
  | '0' :: 'x' :: ds => (groupValue? 16 ds).bind (signed? false)
  | '0' :: 'o' :: ds => (groupValue? 8 ds).bind (signed? false)
  | '0' :: 'b' :: ds => (groupValue? 2 ds).bind (signed? false)
  | cs =>
    let (negative, ds) := splitSign cs
    if isWhole ds then (wordIn? 10 ds).bind (signed? negative) else none

/-- The least number that is too large for a floating-point number of 64 bits. -/
def floatBound : Nat := Nat.pow 2 1024 - Nat.pow 2 970

/-- The number of digits of that number. -/
def floatBoundDigits : Nat := 309

/-- Is the number of these digits times ten to the power `exponent` too large for a
floating-point number of 64 bits? A number with as many digits before the point as the bound is
compared by them. -/
def overflows (digits : List Char) (exponent : Int) : Bool :=
  let digits := digits.dropWhile (· == '0')
  let size := Int.ofNat digits.length + exponent
  if digits.isEmpty || size < floatBoundDigits then false
  else if floatBoundDigits < size then true
  else
    let zeros := List.replicate (floatBoundDigits - digits.length) '0'
    floatBound ≤ Text.digitsValue (digits.take floatBoundDigits ++ zeros)

/-- Splits digits and underscores off the front. -/
def splitDigits (cs : List Char) : List Char × List Char :=
  let ds := cs.takeWhile fun c => c.isDigit || c == '_'
  (ds, cs.drop ds.length)

/-- Digits without the underscores among them. -/
def ungrouped (ds : List Char) : List Char := ds.filter (· != '_')

/-- Splits a fraction off: a point and digits. -/
def splitFraction : List Char → Option (List Char) × List Char
  | '.' :: rest => (some (splitDigits rest).1, (splitDigits rest).2)
  | rest => (none, rest)

/-- The sign and digits of an exponent that is all of the text. -/
def exponent? : List Char → Option (Bool × List Char)
  | e :: rest => if e == 'e' || e == 'E' then some (splitSign rest) else none
  | [] => none

/-- An exponent that has reached this size takes in no further digits. -/
def exponentReach : Nat := 0x10000

/-- The size of an exponent with these digits. -/
def exponentSize (ds : List Char) : Nat :=
  ds.foldl (fun n d => if n < exponentReach then n * 10 + (d.toNat - '0'.toNat) else n) 0

/-- Is this a number with a fraction or an exponent, or one of the special ones? A number above
zero has to be finite. -/
def isFloat (cs : List Char) : Bool :=
  let (negative, body) := splitSign cs
  let (whole, rest) := splitDigits body
  let (fraction, rest) := splitFraction rest
  let exponent := exponent? rest
  let shown := fraction.getD []
  let scale : Int := match exponent with
    | some (true, ds) => -Int.ofNat (exponentSize (ungrouped ds))
    | some (false, ds) => Int.ofNat (exponentSize (ungrouped ds))
    | none => 0
  let places := (ungrouped shown).length
  body == "inf".toList || body == "nan".toList ||
    ((rest.isEmpty || exponent.isSome) && (fraction.isSome || exponent.isSome) &&
      isWhole whole && fraction.all (isDigitGroup Char.isDigit) &&
      exponent.all (fun (e : Bool × List Char) => isDigitGroup Char.isDigit e.2) &&
      (negative || !overflows (ungrouped (whole ++ shown)) (scale - Int.ofNat places)))

/-- Two digits with a value in a range. -/
def isPair (low high : Nat) (ds : List Char) : Bool :=
  ds.length == 2 && ds.all Char.isDigit &&
    low ≤ Text.digitsValue ds && Text.digitsValue ds ≤ high

/-- The number of days of a month. -/
def daysIn (year month : Nat) : Nat :=
  if month = 2 then
    if year % 4 = 0 && (year % 100 != 0 || year % 400 = 0) then 29 else 28
  else if [4, 6, 9, 11].contains month then 30
  else 31

/-- Is this a date? -/
def isDate (cs : List Char) : Bool :=
  let year := cs.take 4
  let month := (cs.drop 5).take 2
  let day := cs.drop 8
  cs.length == 10 && year.all Char.isDigit && cs[4]? == some '-' && cs[7]? == some '-' &&
    isPair 1 12 month &&
    isPair 1 (daysIn (Text.digitsValue year) (Text.digitsValue month)) day

/-- An offset from universal time, or nothing, in its normal form: a capital letter for none, and
no minus sign for zero. -/
def offset? : List Char → Option (List Char)
  | [] => some []
  | ['Z'] => some ['Z']
  | ['z'] => some ['Z']
  | sign :: rest =>
    if (sign == '+' || sign == '-') && isPair 0 23 (rest.take 2) && rest[2]? == some ':' &&
        isPair 0 59 (rest.drop 3) then
      some ((if rest == "00:00".toList then '+' else sign) :: rest)
    else none

/-- A fraction of a second in its normal form: nine digits at most, and no zeros at the end. -/
def fractionText (ds : List Char) : List Char :=
  let ds := Text.dropEndWhile (· == '0') (ds.take 9)
  if ds.isEmpty then [] else '.' :: ds

/-- A time at the front in its normal form, and what follows it. -/
def time? (cs : List Char) : Option (List Char × List Char) :=
  if isPair 0 23 (cs.take 2) && cs[2]? == some ':' && isPair 0 59 ((cs.drop 3).take 2) &&
      cs[5]? == some ':' && isPair 0 60 ((cs.drop 6).take 2) then
    match cs.drop 8 with
    | '.' :: rest =>
      let ds := rest.takeWhile Char.isDigit
      if ds.isEmpty then none else some (cs.take 8 ++ fractionText ds, rest.drop ds.length)
    | rest => some (cs.take 8, rest)
  else none

/-- A time with an optional offset, in its normal form. -/
def zonedTime? (cs : List Char) : Option (List Char) :=
  (time? cs).bind fun (text, rest) => (offset? rest).map (text ++ ·)

/-- A date and a time that a character divides, in their normal form. -/
def dated? (date time : List Char) : Option (List Char) :=
  if isDate date then (zonedTime? time).map (date ++ 'T' :: ·) else none

/-- A date, a time, or both, in the normal form. -/
def moment? (cs : List Char) : Option (List Char) :=
  match time? cs with
  | some (text, []) => some text
  | _ =>
    if isDate cs then some cs
    else if cs[10]? == some 'T' || cs[10]? == some 't' then dated? (cs.take 10) (cs.drop 11)
    else none

/-- Can the character be part of a number, date or keyword? -/
def isAtomChar (c : Char) : Bool :=
  c.isAlphanum || c == '+' || c == '-' || c == '_' || c == '.' || c == ':'

/-- The value that an atom stands for. -/
def atom? (text : List Char) : Option Value :=
  if text == "true".toList then some (.boolean true)
  else if text == "false".toList then some (.boolean false)
  else
    match moment? text with
    | some moment => some (.moment moment)
    | none => if isFloat text then some .float else (integer? text).map .integer

/-- Reads a number, date or keyword. A space may divide a date and a time. -/
def readAtom? (cs : List Char) : Option (Value × List Char) :=
  let text := cs.takeWhile isAtomChar
  let rest := cs.drop text.length
  match rest with
  | ' ' :: more =>
    if isDate text && more.head?.any Char.isDigit then
      let time := more.takeWhile isAtomChar
      (dated? text time).map fun moment => (.moment moment, more.drop time.length)
    else (atom? text).map (·, rest)
  | _ => (atom? text).map (·, rest)

end ClassicAsp.Toml
