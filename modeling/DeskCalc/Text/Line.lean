/-!
# Reading a text line by line

`cutLine` takes the first line off a text.  A line keeps its line feed, so that only the end of the
text gives an empty one.
-/

namespace DeskCalc

namespace Text

/-- The first line of a text with its line feed, and the rest. -/
def cutLine : List Char → List Char × List Char
  | [] => ([], [])
  | c :: cs =>
    if c = '\n' then ([c], cs)
    else
      let r := cutLine cs
      (c :: r.1, r.2)

theorem cutLine_append (cs : List Char) : (cutLine cs).1 ++ (cutLine cs).2 = cs := by
  induction cs with
  | nil => rfl
  | cons c cs ih =>
    unfold cutLine
    split
    · rfl
    · simp [ih]

theorem length_cutLine_pos (c : Char) (cs : List Char) :
    0 < (cutLine (c :: cs)).1.length := by
  unfold cutLine
  split <;> simp

theorem length_cutLine_lt (c : Char) (cs : List Char) :
    (cutLine (c :: cs)).2.length < (c :: cs).length := by
  have h := congrArg List.length (cutLine_append (c :: cs))
  rw [List.length_append] at h
  have := length_cutLine_pos c cs
  omega

end Text

end DeskCalc
