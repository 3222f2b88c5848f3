namespace MiniC

/-- A sequence of bytes. Source programs, listings and messages need not be valid UTF-8. -/
abbrev Text := List UInt8

/-- A machine word: 64 bits, two's complement, wrapping arithmetic. -/
abbrev Word := Int64

namespace Text

def ofString (s : String) : Text :=
  s.toList.flatMap String.utf8EncodeChar

instance : Coe String Text := ⟨ofString⟩

def cut? (mark : UInt8) : Text → Option (Text × Text)
  | [] => none
  | c :: rest =>
    if c = mark then some ([], rest)
    else (cut? mark rest).map fun (before, after) => (c :: before, after)

/-- The pieces between occurrences of `mark`, one more than there are occurrences. -/
def splitOn (mark : UInt8) : Text → List Text
  | [] => [[]]
  | c :: rest =>
    if c = mark then [] :: splitOn mark rest
    else
      match splitOn mark rest with
      | [] => [[c]]
      | piece :: pieces => (c :: piece) :: pieces

def dropTrailing (mark : UInt8) (t : Text) : Text :=
  (t.reverse.dropWhile (· = mark)).reverse

end Text

end MiniC
