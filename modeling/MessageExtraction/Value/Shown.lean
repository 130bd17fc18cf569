import MessageExtraction.Text.Quoted
import MessageExtraction.Value.Basic

namespace MessageExtraction.Value

/-- The parts of a complex number are written without a fraction when they are whole. -/
def complexFormat : Number.Format := ⟨16, -4, false, 2, "nan", "inf"⟩

def complexText (re im : Float) : Text :=
  let part (x : Float) : Text := Number.written complexFormat x
  let shown := part im
  let imaginary : Text := shown ++ [0x6A]
  if re.toBits = 0 then imaginary
  else
    let sign : Text := if shown.head? = some CodePoint.hyphen then [] else [CodePoint.plus]
    0x28 :: part re ++ sign ++ imaginary ++ [0x29]

mutual

/-- A value as it is shown in an error: texts quoted, lists in brackets, objects in braces. -/
def shown : Value → Except Fault Text
  | .null => .ok "None"
  | .undefined => .ok "undefined"
  | .bool b => .ok (if b then "True" else "False")
  | .int n => integerText n
  | .float x => .ok (Number.written Number.standard x)
  | .nan => .ok "nan"
  | .complex re im => .ok (complexText re im)
  | .text t => .ok (Text.quoted t)
  | .list items => do
    return CodePoint.openBracket :: Text.joinWith (", " : Text) (← shownItems items)
      ++ [CodePoint.closeBracket]
  | .object members => do
    return CodePoint.openBrace :: Text.joinWith (", " : Text) (← shownMembers members)
      ++ [CodePoint.closeBrace]

def shownItems : List Value → Except Fault (List Text)
  | [] => .ok []
  | v :: rest => do
    let t ← shown v
    return t :: (← shownItems rest)

def shownMembers : List (Text × Value) → Except Fault (List Text)
  | [] => .ok []
  | (name, v) :: rest => do
    let t ← shown v
    return (Text.quoted name ++ (": " : Text) ++ t) :: (← shownMembers rest)

end

end MessageExtraction.Value
