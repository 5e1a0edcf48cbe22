import ShaderLink.Pattern.Search

/-!
# Comments

Line comments end before the line does; block comments end with the first closing mark.  Line
comments are taken out first.
-/

namespace ShaderLink.Comment

open Pattern

/-- Two slashes and the rest of the line. -/
def line : Pattern := phrase "//" ++ many (noneOf "\n") ++ lineEnd

/-- Everything from an opening mark to the next closing mark. -/
def block : Pattern := phrase "/*" ++ few anything ++ phrase "*/"

/-- A text without its comments. -/
def strip (t : Text) : Text := block.erase (line.erase t)

end ShaderLink.Comment
