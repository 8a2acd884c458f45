import Ironclad.CLib.Memory

/-!
# Reading and writing through streams

`fread`, `fwrite` and `fgets` as the C standard describes them. What a stream delivers and how
much it takes is the environment's choice: the bytes up to the end of the file or an error, and
the number of bytes accepted.
-/

namespace Ironclad.CLib

open Ironclad.Logic

variable {w : Nat}

/-- `fread(p, size, count, stream)` when the stream delivers `input`: the number of whole items
that were read. -/
def fread (p : BitVec w) (size count : Nat) (input : List (BitVec 8)) : Prog w Nat := fun m =>
  let moved := min input.length (size * count)
  ⟨.returns (moved / size), m.write p moved fun i => input.getD i 0, [], [⟨p, moved⟩]⟩

/-- `fwrite(p, size, count, stream)` when the stream takes `room` bytes: the number of whole
items that were written. -/
def fwrite (p : BitVec w) (size count room : Nat) : Prog w Nat := fun m =>
  let moved := min room (size * count)
  ⟨.returns (moved / size), m, [⟨p, moved⟩], []⟩

/-- The characters up to and including the first newline. -/
def line : List (BitVec 8) → List (BitVec 8)
  | [] => []
  | c :: cs => if c = 10#8 then [c] else c :: line cs

/-- `fgets(p, num, stream)` when the stream delivers `input`: at most `num - 1` characters of
one line and a terminator, null at the end of the file. -/
def fgets (p : BitVec w) (num : Int) (input : List (BitVec 8)) : Prog w (Option (BitVec w)) :=
  fun m =>
  if num ≤ 0 ∨ (1 < num ∧ input = []) then ⟨.returns none, m, [], []⟩
  else
    let text := (line input).take (num - 1).toNat
    ⟨.returns (some p), m.write p (text.length + 1) fun i => text.getD i 0, [],
      [⟨p, text.length + 1⟩]⟩

end Ironclad.CLib
