import MessageExtraction.Value.Equality

namespace MessageExtraction.Value

/-- A number as the operand of arithmetic. -/
inductive Operand where
  | int (n : Int)
  | float (x : Float)

def operand? : Value → Option Operand
  | .int n => some (.int n)
  | .float x => some (.float x)
  | .nan => some (.float (0 / 0))
  | _ => none

def Operand.toFloat : Operand → Except Fault Float
  | .int n => match Binary.ofInt? n with
    | some x => .ok x
    | none => .error .tooLarge
  | .float x => .ok x

def Operand.isZero : Operand → Bool
  | .int n => n == 0
  | .float x => x == 0

/-- Two integers are combined exactly, all else as doubles. -/
def combine (exact : Int → Int → Int) (rounded : Float → Float → Float) :
    Operand → Operand → Except Fault Value
  | .int m, .int n => .ok (.int (exact m n))
  | a, b => do
    let x ← a.toFloat
    let y ← b.toFloat
    return normalize (.float (rounded x y))

def add : Operand → Operand → Except Fault Value := combine (· + ·) (· + ·)

def sub : Operand → Operand → Except Fault Value := combine (· - ·) (· - ·)

def mul : Operand → Operand → Except Fault Value := combine (· * ·) (· * ·)

/-- Division by a number that is not zero. -/
def div : Operand → Operand → Except Fault Value
  | .int m, .int n =>
    match Binary.nearest? m.natAbs n.natAbs with
    | some x => .ok (normalize (.float (Binary.signed (decide (m < 0) != decide (n < 0)) x)))
    | none => .error .tooLarge
  | a, b => do
    let x ← a.toFloat
    let y ← b.toFloat
    return normalize (.float (x / y))

/-- The remainder by a number that is not zero, always taken of doubles. -/
def rem (a b : Operand) : Except Fault Value := do
  let x ← a.toFloat
  let y ← b.toFloat
  match Binary.remainder? x y with
  | some r => return normalize (.float r)
  | none => throw .undefinedRemainder

/-- Whether a finite double is an odd integer. -/
def isOdd (x : Float) : Bool :=
  match Binary.toInt? x with
  | some n => n % 2 == 1
  | none => false

def isInfinite (x : Float) : Bool :=
  match Binary.ofFloat x with
  | .infinite _ => true
  | _ => false

/-- A power that is too large is a fault and not infinite. -/
def finitePower (x : Float) : Except Fault Float :=
  if isInfinite x then .error .tooLarge else .ok x

/-- A power of doubles. A negative number to a broken power has an angle of as many half turns as
the power says. -/
def powFloat (x y : Float) : Except Fault Value :=
  if y == 0 then .ok (.float 1)
  else if Binary.isNaN x then .ok (.float x)
  else if Binary.isNaN y then .ok (.float (if x == 1 then 1 else y))
  else if isInfinite y then
    let size := x.abs
    .ok (.float (if size == 1 then 1 else if (y > 0) == (size > 1) then y.abs else 0))
  else if isInfinite x then
    .ok (.float (if y > 0 then if isOdd y then x else x.abs
      else if isOdd y && x < 0 then -0.0 else 0))
  else if x == 0 then
    if y < 0 then .error .divisionByZero else .ok (.float (if isOdd y then x else 0))
  else if x < 0 then
    match Binary.toInt? y with
    | some _ => do
      let size ← finitePower (Float.pow (-x) y)
      return .float (if isOdd y then -size else size)
    | none => do
      let size := Float.pow (-x) y
      let phase := Float.atan2 0 x * y
      let re ← finitePower (size * Float.cos phase)
      let im ← finitePower (size * Float.sin phase)
      return .complex re im
  else do return .float (← finitePower (Float.pow x y))

/-- A power; an integer to a power that is no negative integer is exact. -/
def pow : Operand → Operand → Except Fault Value
  | .int m, .int n =>
    if 0 ≤ n then .ok (.int (m.pow n.toNat))
    else do
      let x ← (Operand.int m).toFloat
      let y ← (Operand.int n).toFloat
      return normalize (← powFloat x y)
  | a, b => do
    let x ← a.toFloat
    let y ← b.toFloat
    return normalize (← powFloat x y)

def negate : Operand → Value
  | .int n => .int (-n)
  | .float x => .float (-x)

end MessageExtraction.Value
