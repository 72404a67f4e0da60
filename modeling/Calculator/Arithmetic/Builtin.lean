/-!
# Constants and built-in functions

The two constants, and the functions of one number that are at hand without a definition.

* `Builtin.mem_all`: every built-in function is listed.
-/

namespace Calculator

/-- The number π, rounded (symbols:8, `kPi`). -/
def pi : Float := Float.ofBits 0x400921fb54442d18

/-- The base of the natural logarithm, rounded (symbols:49). -/
def euler : Float := Float.ofBits 0x4005bf0a8b145769

/-- A function that is in the standard table. Other functions can be built into a table as well, and
need no name here. -/
inductive Builtin where
  | sin
  | asin
  | asinh
  | cos
  | acos
  | acosh
  | tan
  | atan
  | atanh
  /-- From degrees to radians. -/
  | rad
  /-- From radians to degrees. -/
  | deg
deriving DecidableEq, Repr

namespace Builtin

/-- All built-in functions, in the order in which they are listed. -/
def all : List Builtin := [sin, asin, asinh, cos, acos, acosh, tan, atan, atanh, rad, deg]

theorem mem_all (b : Builtin) : b ∈ all := by cases b <;> decide

/-- The name that a built-in function has at first (symbols:51-61). -/
def name : Builtin → String
  | sin => "sin"
  | asin => "asin"
  | asinh => "asinh"
  | cos => "cos"
  | acos => "acos"
  | acosh => "acosh"
  | tan => "tan"
  | atan => "atan"
  | atanh => "atanh"
  | rad => "rad"
  | deg => "deg"

/-- The value of a built-in function (symbols:10-21, `fn_sin` to `to_degrees`). -/
def apply : Builtin → Float → Float
  | sin, x => Float.sin x
  | asin, x => Float.asin x
  | asinh, x => Float.asinh x
  | cos, x => Float.cos x
  | acos, x => Float.acos x
  | acosh, x => Float.acosh x
  | tan, x => Float.tan x
  | atan, x => Float.atan x
  | atanh, x => Float.atanh x
  | rad, x => x * pi / 180
  | deg, x => x * 180 / pi

instance : Coe Builtin (Float → Float) := ⟨apply⟩

end Builtin

end Calculator
