import Celestite.FileStream.Handles

/-!
# What a failed open leaves

`open` stores the handle before it measures the file and does not give it back where that fails.
-/

namespace Celestite.BinaryFileStream
open Celestite.Sequential

variable {O K : Type} [DecidableEq O] [DecidableEq K] {s s' : State O K} {this : O}
  {f : BinaryFileStream K} {mode : FileStreamMode} {c : Fopen K}

end Celestite.BinaryFileStream
