import ScopedStyle.Text.Basic

/-!
# Comments

A comment runs from an opener to the first closer behind it, or to the end of
the text, and stands for one space.
-/

namespace ScopedStyle

/-- A text without its comments, behind what is already kept, which comes reversed. `inside` tells
that a comment is open. -/
def stripAfter (kept : Text) : (inside : Bool) → Text → Text
  | _, [] => kept.reverse
  | false, '/' :: '*' :: rest => stripAfter (' ' :: kept) true rest
  | false, c :: rest => stripAfter (c :: kept) false rest
  | true, '*' :: '/' :: rest => stripAfter kept false rest
  | true, _ :: rest => stripAfter kept true rest

def stripComments (t : Text) : Text := stripAfter [] false t

theorem stripAfter_eq (kept : Text) (inside : Bool) (t : Text) :
    stripAfter kept inside t = kept.reverse ++ stripAfter [] inside t := by
  have key : ∀ (kept more : Text) (inside : Bool) (t : Text),
      stripAfter (kept ++ more) inside t = more.reverse ++ stripAfter kept inside t := by
    intro kept more inside t
    fun_induction stripAfter kept inside t with
    | case1 => simp [stripAfter]
    | case2 kept rest ih => simpa [stripAfter] using ih
    | case3 kept c rest h ih => simpa [stripAfter, h] using ih
    | case4 kept rest ih => simpa [stripAfter] using ih
    | case5 kept c rest h ih => simpa [stripAfter, h] using ih
  simpa using key [] kept inside t

end ScopedStyle
