/-! Positions in a text are counted in bytes of its UTF-8 form. -/

namespace ClassicAsp.Text

/-- The number of bytes of the UTF-8 form. -/
def byteLength (cs : List Char) : Nat := cs.foldl (fun n c => n + c.utf8Size) 0

/-- Moves characters from `cs` to the reversed start `front` while bytes are left to take. -/
def cutBytesFrom (front : List Char) : Nat → List Char → List Char × List Char
  | _, [] => (front.reverse, [])
  | n, c :: cs =>
    if n = 0 then (front.reverse, c :: cs) else cutBytesFrom (c :: front) (n - c.utf8Size) cs

/-- The text before and from byte `n` on, for an `n` at a character boundary. -/
def cutBytes (n : Nat) (cs : List Char) : List Char × List Char := cutBytesFrom [] n cs

/-- The text from byte `start` up to byte `stop`. -/
def byteSlice (start stop : Nat) (cs : List Char) : List Char :=
  (cutBytes (stop - start) (cutBytes start cs).2).1

theorem foldl_utf8Size (n : Nat) (cs : List Char) :
    cs.foldl (fun n c => n + c.utf8Size) n = n + byteLength cs := by
  induction cs generalizing n with
  | nil => rfl
  | cons c cs ih => rw [byteLength, List.foldl_cons, List.foldl_cons, ih, ih (0 + _)]; omega

@[simp]
theorem byteLength_nil : byteLength [] = 0 := rfl

@[simp]
theorem byteLength_cons (c : Char) (cs : List Char) :
    byteLength (c :: cs) = c.utf8Size + byteLength cs := by
  rw [byteLength, List.foldl_cons, foldl_utf8Size]; omega

@[simp]
theorem byteLength_append (front back : List Char) :
    byteLength (front ++ back) = byteLength front + byteLength back := by
  induction front with
  | nil => simp
  | cons c cs ih => simp [ih, Nat.add_assoc]

end ClassicAsp.Text
