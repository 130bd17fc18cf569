import MessageExtraction.Json.Basic

namespace MessageExtraction.Json

/-- Why a text is no JSON value. -/
inductive ReadError where
  | malformed
  | tooManyDigits (count : Nat)
  deriving DecidableEq, Repr

def isSpacing (c : CodePoint) : Bool :=
  c == CodePoint.space || c == CodePoint.tab || c == CodePoint.lineFeed
    || c == CodePoint.carriageReturn

def skipSpacing (t : Text) : Text := t.dropWhile isSpacing

/-- Four hexadecimal digits. -/
def hexUnit? : Text → Option (Nat × Text)
  | a :: b :: c :: d :: rest =>
    (Text.positional? 16 CodePoint.hexValue? [a, b, c, d]).map (·, rest)
  | _ => none

def joinSurrogates (high low : Nat) : CodePoint :=
  0x10000 + (high - 0xD800) * 0x400 + (low - 0xDC00)

/-- The second half of a pair of surrogates, if an escape for one comes next. -/
def lowSurrogate? : Text → Option (Nat × Text)
  | CodePoint.backslash :: CodePoint.letterU :: rest =>
    (hexUnit? rest).filter fun (n, _) ↦ 0xDC00 ≤ n && n ≤ 0xDFFF
  | _ => none

/-- The character of an escape, given what follows its backslash. -/
def escape? : Text → Option (CodePoint × Text)
  | CodePoint.letterU :: rest => do
    let (n, rest) ← hexUnit? rest
    if 0xD800 ≤ n ∧ n ≤ 0xDBFF then
      match lowSurrogate? rest with
      | some (low, rest) => some (joinSurrogates n low, rest)
      | none => some (n, rest)
    else some (n, rest)
  | c :: rest =>
    if c = CodePoint.doubleQuote ∨ c = CodePoint.backslash ∨ c = CodePoint.slash then some (c, rest)
    else if c = 0x62 then some (CodePoint.backspace, rest)
    else if c = 0x66 then some (CodePoint.formFeed, rest)
    else if c = 0x6E then some (CodePoint.lineFeed, rest)
    else if c = 0x72 then some (CodePoint.carriageReturn, rest)
    else if c = 0x74 then some (CodePoint.tab, rest)
    else none
  | [] => none

/-- The characters of a string after its opening quote. -/
def readString : (fuel : Nat) → Text → Except ReadError (Text × Text)
  | 0, _ => .error .malformed
  | fuel + 1, t =>
    match t with
    | CodePoint.doubleQuote :: rest => .ok ([], rest)
    | CodePoint.backslash :: rest =>
      match escape? rest with
      | none => .error .malformed
      | some (c, rest) => do
        let (cs, rest) ← readString fuel rest
        return (c :: cs, rest)
    | c :: rest =>
      if c < 0x20 then .error .malformed
      else do
        let (cs, rest) ← readString fuel rest
        return (c :: cs, rest)
    | [] => .error .malformed

/-- The digits at the front. -/
def spanDigits (t : Text) : Text × Text := t.span CodePoint.isDigit

/-- A fraction at the front: a point and at least one digit. -/
def spanFraction : Text → Text × Text
  | CodePoint.period :: rest =>
    match spanDigits rest with
    | ([], _) => ([], CodePoint.period :: rest)
    | (digits, rest) => (CodePoint.period :: digits, rest)
  | t => ([], t)

/-- An exponent at the front: its letter, perhaps a sign, and at least one digit. -/
def spanExponent (t : Text) : Text × Text :=
  match t with
  | 0x65 :: rest | 0x45 :: rest =>
    let (sign, body) : Text × Text :=
      match rest with
      | CodePoint.plus :: more => ([CodePoint.plus], more)
      | CodePoint.hyphen :: more => ([CodePoint.hyphen], more)
      | _ => ([], rest)
    match spanDigits body with
    | ([], _) => ([], t)
    | (digits, rest) => (0x65 :: sign ++ digits, rest)
  | _ => ([], t)

/-- A number whose sign has been read: whole without a fraction and an exponent, else a double. -/
def readNumber (negative : Bool) (t : Text) : Except ReadError (Json × Text) :=
  let (whole, rest) : Text × Text :=
    match t with
    | 0x30 :: rest => ([0x30], rest)
    | _ => spanDigits t
  if whole.isEmpty then .error .malformed
  else
    let (fraction, rest) := spanFraction rest
    let (power, rest) := spanExponent rest
    if fraction.isEmpty && power.isEmpty then
      if Text.digitLimit < whole.length then .error (.tooManyDigits whole.length)
      else
        let n := (Text.positional? 10 CodePoint.digitValue? whole).getD 0
        .ok (.int (if negative then -(n : Int) else n), rest)
    else
      match Number.fraction? (whole ++ fraction ++ power) with
      | some d => .ok (.float (Binary.signed negative d.toFloat), rest)
      | none => .error .malformed

/-- A word at the front. -/
def word? (word : String) (t : Text) : Option Text := Text.dropBeginning? (Text.ofString word) t

/-- A value that is neither a string, a list nor an object. -/
def readScalar (t : Text) : Except ReadError (Json × Text) :=
  if let some rest := word? "null" t then .ok (.null, rest)
  else if let some rest := word? "true" t then .ok (.bool true, rest)
  else if let some rest := word? "false" t then .ok (.bool false, rest)
  else if let some rest := word? "NaN" t then .ok (.float (0 / 0), rest)
  else if let some rest := word? "Infinity" t then .ok (.float (1 / 0), rest)
  else if let some rest := word? "-Infinity" t then .ok (.float (-1 / 0), rest)
  else match t with
    | CodePoint.hyphen :: rest => readNumber true rest
    | _ => readNumber false t

mutual

def readValue : (fuel : Nat) → Text → Except ReadError (Json × Text)
  | 0, _ => .error .malformed
  | fuel + 1, t =>
    match t with
    | CodePoint.doubleQuote :: rest => do
      let (s, rest) ← readString fuel rest
      return (.text s, rest)
    | CodePoint.openBracket :: rest =>
      match skipSpacing rest with
      | CodePoint.closeBracket :: rest => .ok (.list [], rest)
      | rest => do
        let (items, rest) ← readItems fuel rest
        return (.list items, rest)
    | CodePoint.openBrace :: rest =>
      match skipSpacing rest with
      | CodePoint.closeBrace :: rest => .ok (.object [], rest)
      | rest => do
        let (members, rest) ← readMembers fuel [] rest
        return (.object members, rest)
    | _ => readScalar t

/-- The items of a list up to its closing bracket. -/
def readItems : (fuel : Nat) → Text → Except ReadError (List Json × Text)
  | 0, _ => .error .malformed
  | fuel + 1, t => do
    let (item, rest) ← readValue fuel t
    match skipSpacing rest with
    | CodePoint.closeBracket :: rest => return ([item], rest)
    | CodePoint.comma :: rest => do
      let (items, rest) ← readItems fuel (skipSpacing rest)
      return (item :: items, rest)
    | _ => throw .malformed

/-- The members of an object up to its closing brace, added to those before them. -/
def readMembers : (fuel : Nat) → List (Text × Json) → Text → Except ReadError (List (Text × Json) × Text)
  | fuel + 1, members, CodePoint.doubleQuote :: t => do
    let (name, rest) ← readString fuel t
    match skipSpacing rest with
    | CodePoint.colon :: rest => do
      let (j, rest) ← readValue fuel (skipSpacing rest)
      let members := insertMember name j members
      match skipSpacing rest with
      | CodePoint.closeBrace :: rest => return (members, rest)
      | CodePoint.comma :: rest => readMembers fuel members (skipSpacing rest)
      | _ => throw .malformed
    | _ => throw .malformed
  | _, _, _ => .error .malformed

end

/-- Reads a whole text as one value. -/
def read (t : Text) : Except ReadError Json := do
  let (j, rest) ← readValue (t.length + 1) (skipSpacing t)
  if (skipSpacing rest).isEmpty then return j else throw .malformed

end MessageExtraction.Json
