import ClassicAsp.Text.Blank
import ClassicAsp.Text.Folding
import ClassicAsp.Text.Word

/-! The forms of VBScript statements that shape a script: what opens, divides and closes a
block, comments, and the mark that joins a line to the next one.

A form is recognised on code whose literals are masked and whose comment is gone. Keywords are
compared up to case. -/

namespace ClassicAsp.Statement

open Text

/-- What follows at least one blank. -/
def gap? : List Char → Option (List Char)
  | [] => none
  | c :: cs => if isBlank c then some (trimStart cs) else none

/-- What follows the keywords at the start, which stand with blanks between them. -/
def phrase? : List String → List Char → Option (List Char)
  | [], cs => some cs
  | [w], cs => dropFolded? w.toList cs
  | w :: ws, cs => ((dropFolded? w.toList cs).bind gap?).bind (phrase? ws)

/-- Does the code start with these keywords, the last one a whole word? -/
def startsWith (keywords : List String) (cs : List Char) : Bool :=
  (phrase? keywords cs).any endsWord

/-- Does the code start with these keywords, blanks and then a name? -/
def declares (keywords : List String) (cs : List Char) : Bool :=
  ((phrase? keywords cs).bind gap?).any fun rest => rest.head?.any isWordChar

/-- The code itself, and what follows an access modifier at its start. -/
def afterAccess (cs : List Char) : List (List Char) :=
  cs :: [["public", "default"], ["public"], ["private"]].filterMap fun modifier =>
    (phrase? modifier cs).bind gap?

/-- The condition between `If` and a `Then` that ends the code. -/
def condition? (cs : List Char) : Option (List Char) :=
  (dropFolded? "if".toList cs).bind fun rest =>
    let body := trimEnd rest
    let split := body.length - "then".length
    if (dropFolded? "then".toList (body.drop split)) == some [] then some (body.take split)
    else none

/-- The forms. -/
inductive Form where
  | ifBlock
  | elseIf
  | elseBranch
  | forLoop
  | whileLoop
  | doLoop
  | functionHead
  | subHead
  | propertyHead
  | selectHead
  | caseBranch
  | classHead
  | endIf
  | next
  | wend
  | loop
  | endFunction
  | endSub
  | endProperty
  | endSelect
  | endClass
  | comment
  | continuation
  | bareOpening
  deriving DecidableEq, Repr

/-- Does the code have the form? -/
def Form.holds : Form → List Char → Bool
  | .ifBlock, cs => (condition? cs).any fun between =>
      !between.contains '\n' && !between.head?.all isWordChar && !between.getLast?.all isWordChar
  | .elseIf, cs => startsWith ["elseif"] cs || startsWith ["else", "if"] cs
  | .elseBranch, cs => (phrase? ["else"] cs).any fun rest =>
      rest.head?.all fun c => isBlank c || c == ':'
  | .forLoop, cs => ((phrase? ["for"] cs).bind gap?).any (! ·.isEmpty)
  | .whileLoop, cs => startsWith ["while"] cs
  | .doLoop, cs =>
      (phrase? ["do"] cs).any allBlank ||
        [["do", "while"], ["do", "until"]].any fun keywords =>
          (phrase? keywords cs).any fun rest => endsWord rest && !(trimEnd rest).contains '\n'
  | .functionHead, cs => (afterAccess cs).any (declares ["function"])
  | .subHead, cs => (afterAccess cs).any (declares ["sub"])
  | .propertyHead, cs => (afterAccess cs).any fun rest =>
      [["property", "get"], ["property", "let"], ["property", "set"]].any (declares · rest)
  | .selectHead, cs => startsWith ["select", "case"] cs
  | .caseBranch, cs => startsWith ["case"] cs
  | .classHead, cs => declares ["class"] cs
  | .endIf, cs => startsWith ["end", "if"] cs
  | .next, cs => startsWith ["next"] cs
  | .wend, cs => startsWith ["wend"] cs
  | .loop, cs => startsWith ["loop"] cs
  | .endFunction, cs => startsWith ["end", "function"] cs
  | .endSub, cs => startsWith ["end", "sub"] cs
  | .endProperty, cs => startsWith ["end", "property"] cs
  | .endSelect, cs => startsWith ["end", "select"] cs
  | .endClass, cs => startsWith ["end", "class"] cs
  | .comment, cs =>
      cs.head? == some '\x27' || (phrase? ["rem"] cs).any fun rest => rest.head?.all isBlank
  | .continuation, cs =>
      match cs.reverse with
      | '_' :: before => before.head?.all isBlank
      | _ => false
  | .bareOpening, cs => (dropFolded? "<%".toList cs).any allBlank

end ClassicAsp.Statement
