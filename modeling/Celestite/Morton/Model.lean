import Mathlib.Data.Nat.Bitwise

/-!
# Morton codes

`clst::morton_3d` and `clst::demorton_3d` on 64-bit words.
-/

namespace Celestite.Morton

/-- Pad 21 lo bits of `x` to 63 bits. -/
def pad2bit (x : BitVec 64) : BitVec 64 :=
  let x := (x ||| x <<< 32) &&& 0x001f00000000ffff
  let x := (x ||| x <<< 16) &&& 0x001f0000ff0000ff
  let x := (x ||| x <<< 8) &&& 0x100f00f00f00f00f
  let x := (x ||| x <<< 4) &&& 0x10c30c30c30c30c3
  let x := (x ||| x <<< 2) &&& 0x1249249249249249
  x

def unpad2bit (x : BitVec 64) : BitVec 64 :=
  let x := (x ||| x >>> 2) &&& 0x10c30c30c30c30c3
  let x := (x ||| x >>> 4) &&& 0x100f00f00f00f00f
  let x := (x ||| x >>> 8) &&& 0x001f0000ff0000ff
  let x := (x ||| x >>> 16) &&& 0x001f00000000ffff
  let x := (x ||| x >>> 32) &&& 0x00000000001fffff
  x

def morton3d (x y z : BitVec 64) : BitVec 64 :=
  (pad2bit x <<< 2) ||| (pad2bit y <<< 1) ||| pad2bit z

def demorton3d (code : BitVec 64) : Vector (BitVec 64) 3 :=
  #v[unpad2bit (code >>> 2 &&& 0x1249249249249249),
    unpad2bit (code >>> 1 &&& 0x1249249249249249),
    unpad2bit (code &&& 0x1249249249249249)]

end Celestite.Morton
