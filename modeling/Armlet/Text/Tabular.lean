/-!
# Text in columns and lines
-/

namespace Armlet

namespace Text

/-- Fills a text with blanks on the left up to `width` characters. -/
def alignRight (width : Nat) (s : String) : String :=
  String.ofList (s.toList.leftpad width ' ')

/-- Fills a text with blanks on the right up to `width` characters. -/
def alignLeft (width : Nat) (s : String) : String :=
  String.ofList (s.toList.rightpad width ' ')

/-- Each line followed by a line end. -/
def ofLines (lines : List String) : String := String.join (lines.map (· ++ "\n"))

end Text

end Armlet
