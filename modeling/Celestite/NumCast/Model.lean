import Celestite.Sequential.Integral

/-!
# Numeric casts

`clst::num_cast` between integer types, for any width of `int`.
-/

namespace Celestite.NumCast
open Celestite.Sequential

/-- What `num_cast` returns: a `To`, or an `optional<To>`. -/
inductive Result where
  | plain (value : ℤ)
  | optional (value : Option ℤ)
  deriving DecidableEq

def Result.value? : Result → Option ℤ
  | plain value => some value
  | optional value => value

/-- `NumCastRangeError` -/
inductive RangeError where
  | rangeError
  deriving DecidableEq

def RangeError.what : RangeError → String
  | rangeError => "num_cast range error"

section
variable (int : ℕ) (From To : Integral)

def checkUpper : Bool := Integral.greater int From To From.max To.max

def checkLower : Bool :=
  Integral.less int From.makeSigned To.makeSigned (From.makeSigned.convert From.lowest)
    (To.makeSigned.convert To.lowest)

def numCast (src : ℤ) : Result :=
  if checkUpper int From To || checkLower int From To then
    if checkUpper int From To && Integral.greater int From To src To.max then .optional none
    else if checkLower int From To &&
        Integral.less int From To.makeSigned src (To.makeSigned.convert To.lowest) then .optional none
    else .optional (some (To.convert src))
  else .plain (To.convert src)

/-- Whether the return type is `To`, which is decided by the types alone. -/
def isLosslessNumCast : Bool := !(checkUpper int From To || checkLower int From To)

def numCastEx (src : ℤ) : Except RangeError ℤ :=
  match numCast int From To src with
  | .plain value => .ok value
  | .optional (some value) => .ok value
  | .optional none => .error .rangeError

end
end Celestite.NumCast
