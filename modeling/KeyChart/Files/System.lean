import KeyChart.Files.Fault
import KeyChart.Files.Path

/-!
What a system decides about the calls of a program on its files. The rights of the program and the calls that
fail do not stand in a file tree, so they are left open here.
-/

namespace KeyChart

/-- A right on an entry: to look up names in a directory or to make an entry in it, to read or to write a
file. -/
inductive Right
  | search
  | add
  | read
  | write
  deriving DecidableEq, Repr

/-- A call on an entry whose path has been resolved. -/
inductive Call
  | metadata (place : Location)
  | setMode (place : Location) (mode : Nat)
  | move (source target : Location)
  deriving DecidableEq, Repr

structure System where
  /-- The program has a right on the entry at a place, which has these permission bits. -/
  grants : Right → Location → Nat → Bool
  /-- Why a call fails. -/
  fault? : Call → Option Fault
  /-- After how many bytes the writing of a content to an open file breaks off, and why. -/
  shortWrite? : Location → ByteArray → Option (Nat × Fault)

/-- A system that grants every right and on which nothing fails. -/
def System.permissive : System where
  grants _ _ _ := true
  fault? _ := none
  shortWrite? _ _ := none

end KeyChart
