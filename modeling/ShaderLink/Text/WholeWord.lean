import ShaderLink.Pattern.Search

/-!
# Whole words

A word occurs in a text only where no further word characters adjoin it.
-/

namespace ShaderLink.Text

open Pattern

/-- A given text between two word edges. -/
def wholeWord (w : Text) : Pattern := wordEdge ++ exactly w ++ wordEdge

/-- The word occurs in the text. -/
def containsWord (t w : Text) : Bool := ((wholeWord w).search t).isSome

/-- Puts `new` in the place of every occurrence of the word. -/
def replaceWord (t w new : Text) : Text := (wholeWord w).substitute (fun _ => new) t

/-- Puts `new` in the place of the first `count` occurrences of the word. -/
def replaceFirstWords (count : Nat) (t w new : Text) : Text :=
  substituteFirst (fun _ => new) count ((wholeWord w).pieces t)

/-- Puts `new` in the place of at most `count` occurrences of the word; zero stands for all of them,
and less than zero for none. -/
def replaceWordUpTo (count : Int) (t w new : Text) : Text :=
  if count = 0 then t.replaceWord w new else replaceFirstWords count.toNat t w new

end ShaderLink.Text
