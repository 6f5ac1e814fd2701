import ClassicAsp.Toml.Scalar

/-! Reading of TOML documents, as a library for the format does it. -/

namespace ClassicAsp.Toml

/-- How deep values and keys may be nested. -/
def maxDepth : Nat := 80

/-- Can the character stand in a key without quotes? -/
def isBareChar (c : Char) : Bool := c.isAlphanum || c == '_' || c == '-'

/-- Reads one part of a key. -/
def keyPart? : List Char → Option (List Char × List Char)
  | '"' :: rest => basicAfter 0 [] rest
  | '\x27' :: rest => literal? rest
  | cs =>
    let name := cs.takeWhile isBareChar
    if name.isEmpty then none else some (name, cs.drop name.length)

/-- Reads a key of at most so many parts, which are divided by dots, with blanks around them. -/
def keyAfter : Nat → List (List Char) → List Char → Option (List (List Char) × List Char)
  | 0, _, _ => none
  | fuel + 1, done, cs =>
    (keyPart? (skipSpaces cs)).bind fun (part, rest) =>
      match skipSpaces rest with
      | '.' :: rest => keyAfter fuel (part :: done) rest
      | rest => some ((part :: done).reverse, rest)

/-- Reads a key of a depth that is allowed. -/
def key? (cs : List Char) : Option (List (List Char) × List Char) :=
  keyAfter (maxDepth - 1) [] cs

/-- Drops blanks, line breaks and comments; the text may start inside a comment. -/
def skipLayout (inComment : Bool) : List Char → List Char
  | '\r' :: '\n' :: rest => skipLayout false rest
  | c :: rest =>
    if c == '\n' then skipLayout false rest
    else if inComment then (if isPlain c then skipLayout true rest else c :: rest)
    else if isSpace c then skipLayout false rest
    else if c == '#' then skipLayout true rest
    else c :: rest
  | [] => []

/-- Drops blanks, line breaks and comments. -/
def skip (cs : List Char) : List Char := skipLayout false cs

mutual

/-- Reads a value at a depth of nesting. -/
def valueAt : Nat → Nat → List Char → Option (Value × List Char)
  | 0, _, _ => none
  | fuel + 1, depth, cs =>
    match cs with
    | '[' :: rest =>
      if maxDepth ≤ depth + 1 then none
      else (itemsAt fuel (depth + 1) [] (skip rest)).map fun (items, rest) => (.array items, rest)
    | '\x7b' :: rest =>
      if maxDepth ≤ depth + 1 then none
      else
        match skipSpaces rest with
        | '\x7d' :: rest => some (.table .inline [], rest)
        | rest =>
          (fieldsAt fuel (depth + 1) [] rest).map fun (fields, rest) =>
            (.table .inline fields, rest)
    | c :: _ =>
      if c == '"' || c == '\x27' then
        (string? cs).map fun (text, rest) => (.string text, rest)
      else readAtom? cs
    | [] => none

/-- Reads the items of an array up to its closing bracket, after the reversed items `done`. -/
def itemsAt : Nat → Nat → List Value → List Char → Option (List Value × List Char)
  | 0, _, _, _ => none
  | fuel + 1, depth, done, cs =>
    match cs with
    | ']' :: rest => some (done.reverse, rest)
    | cs =>
      match valueAt fuel depth cs with
      | none => none
      | some (item, rest) =>
        match skip rest with
        | ',' :: rest => itemsAt fuel depth (item :: done) (skip rest)
        | ']' :: rest => some ((item :: done).reverse, rest)
        | _ => none

/-- Reads the fields of a table in braces up to the closing one, after the fields `done`. -/
def fieldsAt : Nat → Nat → Entries → List Char → Option (Entries × List Char)
  | 0, _, _, _ => none
  | fuel + 1, depth, done, cs =>
    match key? cs with
    | some (key, '=' :: rest) =>
      match valueAt fuel depth (skipSpaces rest) with
      | none => none
      | some (value, rest) =>
        match Entries.addKey done key value with
        | none => none
        | some done =>
          match skipSpaces rest with
          | ',' :: rest => fieldsAt fuel depth done rest
          | '\x7d' :: rest => some (done, rest)
          | _ => none
    | _ => none

end

/-- A statement of a document. -/
inductive Item where
  | assign (key : List (List Char)) (value : Value)
  | header (key : List (List Char))
  | elementHeader (key : List (List Char))
  deriving Repr

/-- What follows the end of a line: blanks, a comment, and a line break or the end of the text. -/
def lineEnd? (cs : List Char) : Option (List Char) :=
  match skipComment (skipSpaces cs) with
  | [] => some []
  | rest => newline? rest

/-- Reads a statement, with enough fuel for a value. -/
def item? (fuel : Nat) : List Char → Option (Item × List Char)
  | '[' :: '[' :: rest =>
    match key? rest with
    | some (key, ']' :: ']' :: rest) => some (.elementHeader key, rest)
    | _ => none
  | '[' :: rest =>
    match key? rest with
    | some (key, ']' :: rest) => some (.header key, rest)
    | _ => none
  | cs =>
    match key? cs with
    | some (key, '=' :: rest) =>
      (valueAt fuel 0 (skipSpaces rest)).map fun (value, rest) => (.assign key value, rest)
    | _ => none

/-- Reads the statements of a document, one a line, after the reversed statements `done`. -/
def itemsAfter : Nat → List Item → List Char → Option (List Item)
  | 0, _, _ => none
  | fuel + 1, done, cs =>
    match skip cs with
    | [] => some done.reverse
    | cs =>
      (item? fuel cs).bind fun (item, rest) =>
        (lineEnd? rest).bind fun rest => itemsAfter fuel (item :: done) rest

/-- A document being built: all entries, and the path of the table that is being filled. -/
structure Building where
  root : Entries := []
  current : List (List Char) := []

/-- Opens the table at the end of a path. -/
def Building.openAt (b : Building) (key : List (List Char))
    (opener : List Char → Entries → Option Entries) : Option Building :=
  match key.reverse with
  | [] => none
  | last :: front =>
    (Entries.update (opener last) front.reverse b.root).map fun root => ⟨root, key⟩

/-- Adds a statement. -/
def Building.add (b : Building) : Item → Option Building
  | .assign key value =>
    (Entries.update (Entries.addKey · key value) b.current b.root).map fun root =>
      { b with root }
  | .header key => b.openAt key Entries.openTable
  | .elementHeader key => b.openAt key Entries.openElement

/-- Drops a byte order mark. -/
def dropMark : List Char → List Char
  | '\uFEFF' :: rest => rest
  | cs => cs

/-- Reads a document. This is where a library stands in the program, so that what only needs some
reader of the format takes it as a parameter. -/
def read? (text : List Char) : Option Entries :=
  let text := dropMark text
  (itemsAfter (2 * text.length + 2) [] text).bind fun items =>
    (items.foldlM Building.add {}).map Building.root

end ClassicAsp.Toml
