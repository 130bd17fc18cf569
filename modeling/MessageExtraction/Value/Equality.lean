import MessageExtraction.Value.Basic

namespace MessageExtraction

/-- Whether an integer and a double are the same number. -/
def Binary.isInt (x : Float) (n : Int) : Bool := Binary.toInt? x == some n

namespace Value

def ofBool (b : Bool) : Int := if b then 1 else 0

/-- Numbers of different kinds are equal when they are the same number, and truth values count as
one and zero. -/
def sameNumber : Value → Value → Bool
  | .int m, .int n => m == n
  | .int m, .bool b | .bool b, .int m => m == ofBool b
  | .bool a, .bool b => a == b
  | .float x, .float y => x == y
  | .float x, .int n | .int n, .float x => Binary.isInt x n
  | .float x, .bool b | .bool b, .float x => Binary.isInt x (ofBool b)
  | .complex a b, .complex c d => a == c && b == d
  | .complex a b, .float x | .float x, .complex a b => a == x && b == 0
  | .complex a b, .int n | .int n, .complex a b => Binary.isInt a n && b == 0
  | .complex a b, .bool c | .bool c, .complex a b => Binary.isInt a (ofBool c) && b == 0
  | _, _ => false

mutual

/-- Equality as parts of a list or an object: by content, objects without regard to the order of
their members. -/
def same : Value → Value → Bool
  | .null, .null | .undefined, .undefined | .nan, .nan => true
  | .text s, .text t => s == t
  | .list xs, .list ys => sameItems xs ys
  | .object ms, .object ns => ms.length == ns.length && sameMembers ms ns
  | v, w => sameNumber v w

def sameItems : List Value → List Value → Bool
  | [], [] => true
  | x :: xs, y :: ys => same x y && sameItems xs ys
  | _, _ => false

/-- Whether each member of the first has an equal one in the second. -/
def sameMembers : List (Text × Value) → List (Text × Value) → Bool
  | [], _ => true
  | (name, v) :: rest, ns =>
    (match ns.lookup name with
      | some w => same v w
      | none => false) && sameMembers rest ns

end

/-- The equality of two values that are no parts of others: `NaN` is not equal to itself. -/
def equal : Value → Value → Bool
  | .nan, .nan => false
  | v, w => same v w

/-- Whether two values are of one kind; whole numbers and doubles are two. -/
def sameKind : Value → Value → Bool
  | .null, .null | .undefined, .undefined | .bool _, .bool _ | .int _, .int _ => true
  | .complex _ _, .complex _ _ | .text _, .text _ | .list _, .list _ => true
  | .object _, .object _ => true
  | .float _, .float _ | .float _, .nan | .nan, .float _ | .nan, .nan => true
  | _, _ => false

/-- Equality that looks at the kind first. -/
def strictEqual (v w : Value) : Bool := sameKind v w && equal v w

end Value

end MessageExtraction
