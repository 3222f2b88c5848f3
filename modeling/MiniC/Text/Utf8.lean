import MiniC.Text.Basic

namespace MiniC.Utf8

def isContinuation (b : UInt8) : Bool :=
  0x80 ≤ b ∧ b ≤ 0xBF

/-- The values of the second byte that a lead byte admits. They keep out overlong forms, the
    surrogates and everything above U+10FFFF. -/
def secondByte (lead : UInt8) : UInt8 × UInt8 :=
  if lead = 0xE0 then (0xA0, 0xBF)
  else if lead = 0xED then (0x80, 0x9F)
  else if lead = 0xF0 then (0x90, 0xBF)
  else if lead = 0xF4 then (0x80, 0x8F)
  else (0x80, 0xBF)

/-- The number of bytes in a sequence that starts with `lead`; `none` if no sequence does. -/
def width? (lead : UInt8) : Option Nat :=
  if lead < 0x80 then some 1
  else if lead < 0xC2 then none
  else if lead < 0xE0 then some 2
  else if lead < 0xF0 then some 3
  else if lead < 0xF5 then some 4
  else none

/-- The bits of the code point that the lead byte of a sequence of `width` bytes carries. -/
def leadBits (lead : UInt8) (width : Nat) : Nat :=
  match width with
  | 1 => lead.toNat
  | 2 => lead.toNat - 0xC0
  | 3 => lead.toNat - 0xE0
  | _ => lead.toNat - 0xF0

def appendBits (code : Nat) (tail : Text) : Nat :=
  tail.foldl (fun n b => n * 64 + (b.toNat - 0x80)) code

/-- The code point of the well-formed sequence at the start of a text, and its width in bytes. -/
def decode? : Text → Option (Nat × Nat)
  | [] => none
  | lead :: rest =>
    match width? lead with
    | none => none
    | some width =>
      let tail := rest.take (width - 1)
      let (low, high) := secondByte lead
      if tail.length + 1 = width ∧ tail.all isContinuation ∧
          (tail.take 1).all (fun b => low ≤ b ∧ b ≤ high) then
        some (appendBits (leadBits lead width) tail, width)
      else none

def encode (code : Nat) : Text :=
  String.utf8EncodeChar (Char.ofNat code)

theorem decode?_width_pos {t : Text} {code width : Nat} (h : decode? t = some (code, width)) :
    0 < width := by
  cases t with
  | nil => simp [decode?] at h
  | cons lead rest =>
    simp only [decode?] at h
    split at h
    · simp at h
    · rename_i w _
      split at h
      · rename_i fits
        simp only [Option.some.injEq, Prod.mk.injEq] at h
        omega
      · simp at h

/-- The character that stands for a byte outside of all characters. -/
def replacement : Nat := 0xFFFD

def codes (t : Text) : List Nat :=
  match t with
  | [] => []
  | b :: rest =>
    match _h : decode? (b :: rest) with
    | some (code, width) => code :: codes ((b :: rest).drop width)
    | none => replacement :: codes rest
termination_by t.length
decreasing_by
  · have := decode?_width_pos _h
    simp only [List.length_drop, List.length_cons]
    omega
  · simp

end MiniC.Utf8
