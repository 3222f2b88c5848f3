import Std.Data.HashMap
import MiniC.Text.Basic

namespace MiniC

/-- Words by address. A word that was never written is zero. -/
structure Memory where
  words : Std.HashMap Word Word := {}

namespace Memory

def read (m : Memory) (address : Word) : Word :=
  m.words.getD address 0

def write (m : Memory) (address value : Word) : Memory :=
  ⟨m.words.insert address value⟩

@[simp]
theorem read_write (m : Memory) (a b v : Word) :
    (m.write a v).read b = if a = b then v else m.read b := by
  simp [read, write, Std.HashMap.getD_insert]

theorem read_empty (a : Word) : ({} : Memory).read a = 0 := by
  simp [read]

def toList (m : Memory) : List (Word × Word) :=
  (m.words.toList.filter (·.2 ≠ 0)).mergeSort fun x y => x.1 ≤ y.1

def writeAll (m : Memory) (address stride : Word) : List Word → Memory
  | [] => m
  | v :: rest => (m.write address v).writeAll (address + stride) stride rest

end Memory

end MiniC
