import RiscvKernel.OpenFile.Sharing

/-!
# What a read reaches

`fileread` hands its signed count to `readi`, where it is unsigned, and it moves the offset of
files with an inode only. A call that sleeps starts over, so its last section decides what it
does; here a call runs from that section on.
-/

namespace RiscvKernel.OpenFile

open Threads Function

variable {P : Type} [DecidableEq P] {sb : Superblock} {writable : ℕ → Bool} {addr : ℕ} {n : ℤ}
  {p : P} {s : State P}

end RiscvKernel.OpenFile
