/-!
Doubles as exact numbers: `mantissa * 2 ^ exponent` with a sign, and the double nearest to a
quotient of natural numbers.
-/

namespace MessageExtraction

/-- What the bits of a double say. -/
inductive Binary where
  | nan
  | infinite (negative : Bool)
  | finite (negative : Bool) (mantissa : Nat) (exponent : Int)
  deriving DecidableEq, Repr

namespace Binary

/-- The powers of two. -/
def twoTo (n : Nat) : Nat := Nat.pow 2 n

def ofFloat (x : Float) : Binary :=
  let bits := x.toBits.toNat
  let negative := bits / twoTo 63 == 1
  let power : Nat := bits / twoTo 52 % twoTo 11
  let fraction : Nat := bits % twoTo 52
  if power = 2047 then if fraction = 0 then .infinite negative else .nan
  else if power = 0 then .finite negative fraction (-1074)
  else .finite negative (twoTo 52 + fraction) ((power : Int) - 1075)

/-- The quotient rounded to a natural number, a half going to the even neighbour. -/
def roundDiv (num den : Nat) : Nat :=
  let q := num / den
  let twice := 2 * (num % den)
  if twice < den then q else if den < twice then q + 1 else q + q % 2

/-- `num / (den * 2 ^ e)` as a quotient of natural numbers. -/
def scaled (num den : Nat) (e : Int) : Nat × Nat :=
  if e < 0 then (num * twoTo e.natAbs, den) else (num, den * twoTo e.natAbs)

/-- The exponent at which the mantissa of `num / den` has 53 bits, or the least one. -/
def exponentOf (num den : Nat) : Int :=
  let guess : Int := (num.log2 : Int) - (den.log2 : Int) - 53
  let (n, d) := scaled num den guess
  -- the quotient at `guess` lies between `2 ^ 52` and `2 ^ 54`
  max (-1074) (if n < twoTo 53 * d then guess else guess + 1)

/-- The double nearest to `num / den`, ties to even; none if it is too large for a double. -/
def nearest? (num den : Nat) : Option Float :=
  if num = 0 ∨ den = 0 then some 0
  else
    let e := exponentOf num den
    let (n, d) := scaled num den e
    let m := roundDiv n d
    let (m, e) := if m = twoTo 53 then (twoTo 52, e + 1) else (m, e)
    if 971 < e then none
    else if m < twoTo 52 then some (Float.ofBits (UInt64.ofNat m))
    else some (Float.ofBits (UInt64.ofNat ((e + 1075).toNat * twoTo 52 + (m - twoTo 52))))

/-- The double nearest to a quotient with a sign. -/
def signed (negative : Bool) (x : Float) : Float := if negative then -x else x

/-- The double nearest to an integer; none if it is too large for a double. -/
def ofInt? (n : Int) : Option Float := (nearest? n.natAbs 1).map (signed (n < 0))

/-- The integer that a double is, if it is one. -/
def toInt? (x : Float) : Option Int :=
  match ofFloat x with
  | .finite negative m e =>
    let value : Option Nat :=
      if 0 ≤ e then some (m * twoTo e.toNat)
      else if m % twoTo e.natAbs = 0 then some (m / twoTo e.natAbs) else none
    value.map fun v ↦ if negative then -(v : Int) else v
  | _ => none

def isFinite (x : Float) : Bool :=
  match ofFloat x with
  | .finite _ _ _ => true
  | _ => false

def isNaN (x : Float) : Bool := ofFloat x == .nan

/-- The remainder of the quotient cut toward zero, with the sign of the first number; none if the
first is infinite or the second zero. A remainder by an infinite number is the first number. -/
def remainder? (x y : Float) : Option Float :=
  match ofFloat x, ofFloat y with
  | .nan, _ | _, .nan => some (0 / 0)
  | .infinite _, _ => none
  | .finite _ _ _, .infinite _ => some x
  | .finite negative m e, .finite _ k f =>
    if k = 0 then none
    else
      let low := min e f
      let rest := m * twoTo (e - low).toNat % (k * twoTo (f - low).toNat)
      let magnitude := if 0 ≤ low then nearest? (rest * twoTo low.toNat) 1
        else nearest? rest (twoTo low.natAbs)
      magnitude.map (signed negative)

end Binary

end MessageExtraction
