import MiniC.Text.Utf8

namespace MiniC.Text

/-- The code points with the White_Space property. -/
def blankCodes : List Nat :=
  [0x09, 0x0A, 0x0B, 0x0C, 0x0D, 0x20, 0x85, 0xA0, 0x1680, 0x2000, 0x2001, 0x2002, 0x2003, 0x2004,
    0x2005, 0x2006, 0x2007, 0x2008, 0x2009, 0x200A, 0x2028, 0x2029, 0x202F, 0x205F, 0x3000]

def blanks : List Text :=
  blankCodes.map Utf8.encode

/-- Drops the marks at the start of a text for as long as there is one. -/
def dropLeading (marks : List Text) (t : Text) : Text :=
  match marks.findSome? (fun mark => mark.isPrefixOf? t) with
  | none => t
  | some rest => if rest.length < t.length then dropLeading marks rest else t
termination_by t.length

/-- The text without the blank characters at either end. A lone byte of a blank character's
    encoding is no blank. -/
def trim (t : Text) : Text :=
  (dropLeading (blanks.map List.reverse) (dropLeading blanks t).reverse).reverse

end MiniC.Text
