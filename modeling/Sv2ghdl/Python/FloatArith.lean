import Sv2ghdl.Python.Binary64

/-!
# Float arithmetic

Comparison with zero, rounding to an integer and the `math` module, as Python code uses them.  The
elementary functions come from the C library and are parameters; rounding is exact.
-/

open Float.Model Float.Model.UnpackedFloat

namespace Python

/-- What `math` raises: `OverflowError` (range) or `ValueError` (domain). -/
inductive MathError where
  | overflow
  | domain
  deriving DecidableEq, Repr

/-- The functions of `math` that the C library computes. -/
structure Libm where
  sin : Float → Except MathError Float
  cos : Float → Except MathError Float
  tan : Float → Except MathError Float
  asin : Float → Except MathError Float
  acos : Float → Except MathError Float
  atan : Float → Except MathError Float
  sinh : Float → Except MathError Float
  cosh : Float → Except MathError Float
  tanh : Float → Except MathError Float
  asinh : Float → Except MathError Float
  acosh : Float → Except MathError Float
  atanh : Float → Except MathError Float
  exp : Float → Except MathError Float
  sqrt : Float → Except MathError Float
  log : Float → Except MathError Float
  log10 : Float → Except MathError Float
  pow : Float → Float → Except MathError Float
  atan2 : Float → Float → Except MathError Float
  hypot : Float → Float → Except MathError Float
  fmod : Float → Float → Except MathError Float

/-- `math.floor(x)` of a finite float. -/
def floorInt (x : Float) : Int :=
  match x.toModel.unpack with
  | .finite s m e _ => s.apply (m * 2 ^ e.toNat : Nat) / (2 ^ (-e).toNat : Nat)
  | _ => 0

/-- `math.ceil(x)` of a finite float. -/
def ceilInt (x : Float) : Int := -floorInt (-x)

/-- `math.trunc(x)` of a finite float. -/
def truncInt (x : Float) : Int := if x < 0 then ceilInt x else floorInt x

/-- `float(n)` of an `int`. -/
def floatOfInt (n : Int) : Float := .ofModel (.ofInt n)

/-- `x ** n` by repeated multiplication. -/
def powNat (x : Float) : Nat → Float
  | 0 => 1
  | n + 1 => powNat x n * x

/-- A library of whole powers and square roots only. -/
def Libm.small : Libm where
  sin _ := .error .domain
  cos _ := .error .domain
  tan _ := .error .domain
  asin _ := .error .domain
  acos _ := .error .domain
  atan _ := .error .domain
  sinh _ := .error .domain
  cosh _ := .error .domain
  tanh _ := .error .domain
  asinh _ := .error .domain
  acosh _ := .error .domain
  atanh _ := .error .domain
  exp _ := .error .domain
  sqrt x := if x < 0 then .error .domain else .ok (.ofModel x.toModel.sqrt)
  log _ := .error .domain
  log10 _ := .error .domain
  pow x y :=
    let z := powNat x (floorInt y).toNat
    if y < 0 then .error .domain else if z.isFinite then .ok z else .error .overflow
  atan2 _ _ := .error .domain
  hypot _ _ := .error .domain
  fmod _ _ := .error .domain

end Python
