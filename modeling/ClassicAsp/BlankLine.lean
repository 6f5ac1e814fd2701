import ClassicAsp.Outline

/-! Blank lines that formatting puts above declarations of procedures. -/

namespace ClassicAsp

namespace BlankLine

/-- Does the line above keep a declaration from getting a blank line? -/
def isSettledBelow (line : OwnedLine) : Bool :=
  line.isBlank || line.isComment || line.isMarker || line.frozen

/-- Does the line declare a procedure? -/
def isDeclaration (line : OwnedLine) (o : Outline) : Bool :=
  line.isCode && o.opens && o.kind == some .procedure

/-- Which lines get a blank line above them, given the line above the first of them. -/
def planAfter (done : List Bool) (above : Option OwnedLine) :
    List (OwnedLine × Outline) → List Bool
  | [] => done.reverse
  | (line, o) :: rest =>
    let insert := isDeclaration line o && above.any (!isSettledBelow ·)
    planAfter (insert :: done) (some line) rest

/-- Which lines get a blank line above them: declarations of procedures, unless the line above
is blank, a comment, a marker line or frozen. -/
def plan (lines : List (OwnedLine × Outline)) : List Bool := planAfter [] none lines

end BlankLine

end ClassicAsp
