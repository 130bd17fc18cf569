import MessageExtraction.Pattern.Basic

namespace MessageExtraction.Pattern

/-- What should have come next. -/
inductive Expectation where
  | character (c : CodePoint)
  | openBraceOrText
  | endOfInput
  | number
  | argumentName
  | format
  | style
  | selector
  | escape
  deriving DecidableEq, Repr

def Expectation.message : Expectation → Text
  | .character c => [CodePoint.doubleQuote, c, CodePoint.doubleQuote]
  | .openBraceOrText => "\"\x7b\" or text"
  | .endOfInput => "end of input"
  | .number => "number"
  | .argumentName => "argument name"
  | .format => "\"number\", \"date\", \"time\", \"plural\", \"selectordinal\" or \"select\""
  | .style => "argument style"
  | .selector => "selector"
  | .escape => "\"\\\\#\", \"\\#\", \"\\\x7b\", \"\\\x7d\" or \"\\u\""

/-- Where reading stopped: what was expected and the text that was left, or digits that are no
number. -/
inductive Failure where
  | expected (what : Expectation) (rest : Text)
  | fault (f : Fault)
  deriving DecidableEq, Repr

def isSpacing (c : CodePoint) : Bool :=
  c == CodePoint.space || c == CodePoint.tab || c == CodePoint.lineFeed
    || c == CodePoint.carriageReturn

def skipSpacing (t : Text) : Text := t.dropWhile isSpacing

def isBrace (c : CodePoint) : Bool := c == CodePoint.openBrace || c == CodePoint.closeBrace

/-- The characters that may stand in a name or a selector. -/
def isWordPoint (c : CodePoint) : Bool :=
  !(isSpacing c || isBrace c || c == CodePoint.comma || c == CodePoint.period
    || c == CodePoint.plus || c == CodePoint.equals || c == CodePoint.hash)

def isStylePoint (c : CodePoint) : Bool := !(isSpacing c || isBrace c)

def expect (c : CodePoint) : Text → Except Failure Text
  | [] => .error (.expected (.character c) [])
  | d :: rest => if d = c then .ok rest else .error (.expected (.character c) (d :: rest))

/-- The longest run of characters of a class; there has to be one. -/
def readRun (p : CodePoint → Bool) (what : Expectation) (t : Text) : Except Failure (Text × Text) :=
  if (t.takeWhile p).isEmpty then .error (.expected what t)
  else .ok (t.takeWhile p, t.dropWhile p)

/-- The longest run of digits, as a number. -/
def readNumber (t : Text) : Except Failure (Nat × Text) := do
  let (digits, rest) ← readRun Text.isAnyDigit .number t
  match Number.decimal digits with
  | .ok n => return (n, rest)
  | .error f => throw (.fault f)

/-- Text up to a brace. A backslash may stand before a brace, a number sign or the number of a code
point, and two of them before a number sign are one. -/
def readText : Text → Except Failure (Text × Text)
  | [] => .ok ([], [])
  | CodePoint.openBrace :: rest => .ok ([], CodePoint.openBrace :: rest)
  | CodePoint.closeBrace :: rest => .ok ([], CodePoint.closeBrace :: rest)
  | CodePoint.backslash :: rest =>
    match rest with
    | CodePoint.openBrace :: rest => do
      let (t, rest) ← readText rest
      return (CodePoint.openBrace :: t, rest)
    | CodePoint.closeBrace :: rest => do
      let (t, rest) ← readText rest
      return (CodePoint.closeBrace :: t, rest)
    | CodePoint.hash :: rest => do
      let (t, rest) ← readText rest
      return (CodePoint.backslash :: CodePoint.hash :: t, rest)
    | CodePoint.backslash :: CodePoint.hash :: rest => do
      let (t, rest) ← readText rest
      return (CodePoint.backslash :: CodePoint.hash :: t, rest)
    | CodePoint.letterU :: a :: b :: c :: d :: after =>
      match Text.positional? 16 CodePoint.hexValue? [a, b, c, d] with
      | some n => do
        let (t, rest) ← readText after
        return (n :: t, rest)
      | none => .error (.expected .escape (CodePoint.backslash :: rest))
    | _ => .error (.expected .escape (CodePoint.backslash :: rest))
  | c :: rest => do
    let (t, rest) ← readText rest
    return (c :: t, rest)

/-- The name of an argument: a number in its plain spelling, or a word. -/
def readName (t : Text) : Except Failure (Text × Text) :=
  if t.head?.any Text.isAnyDigit then do
    let (n, rest) ← readNumber t
    return (Text.ofNat n, rest)
  else readRun isWordPoint .argumentName t

def readSelector : Text → Except Failure (Text × Text)
  | CodePoint.equals :: rest => do
    let (n, rest) ← readNumber rest
    return (CodePoint.equals :: Text.ofNat n, rest)
  | t => readRun isWordPoint .selector t

def readStyle : Text → Except Failure (Option Text × Text)
  | CodePoint.comma :: rest => do
    let (style, rest) ← readRun isStylePoint .style (skipSpacing rest)
    return (some style, rest)
  | t => .ok (none, t)

/-- The offset before the options of a choice by number. -/
def readOffset (kind : ChoiceKind) (t : Text) : Except Failure (Nat × Text) :=
  if kind.takesOffset then
    match Text.dropBeginning? "offset" t with
    | some rest => do
      let rest ← expect CodePoint.colon (skipSpacing rest)
      readNumber (skipSpacing rest)
    | none => .ok (0, t)
  else .ok (0, t)

/-- An argument up to its closing brace, or up to the options of its choice. -/
inductive Head where
  | whole (e : Element)
  | opened (name : Text) (kind : ChoiceKind) (offset : Nat)

/-- The format of an argument, given what follows its comma. -/
def readFormat (name t : Text) : Except Failure (Head × Text) :=
  let word := t.takeWhile isWordPoint
  let rest := skipSpacing (t.dropWhile isWordPoint)
  match SimpleKind.ofName? word, ChoiceKind.ofName? word with
  | some kind, _ => do
    let (style, rest) ← readStyle rest
    return (.whole (.formatted name kind style), rest)
  | none, some kind => do
    let rest ← expect CodePoint.comma rest
    let (offset, rest) ← readOffset kind (skipSpacing rest)
    return (.opened name kind offset, rest)
  | none, none => .error (.expected .format t)

/-- An argument after its opening brace. -/
def readHead (t : Text) : Except Failure (Head × Text) := do
  let (name, rest) ← readName (skipSpacing t)
  match skipSpacing rest with
  | CodePoint.comma :: rest => readFormat name (skipSpacing rest)
  | rest => return (.whole (.argument name), rest)

mutual

/-- Elements up to the end of the message or, inside an option, up to its closing brace. -/
def readElements (nested : Bool) : (fuel : Nat) → Text → Except Failure (List Element × Text)
  | 0, t => .error (.expected .endOfInput t)
  | fuel + 1, t =>
    match t with
    | [] => if nested then .error (.expected (.character CodePoint.closeBrace) []) else .ok ([], [])
    | CodePoint.closeBrace :: _ =>
      if nested then .ok ([], t) else .error (.expected .openBraceOrText t)
    | CodePoint.openBrace :: rest => do
      let (e, rest) ← readArgument fuel rest
      let (es, rest) ← readElements nested fuel rest
      return (e :: es, rest)
    | _ => do
      let (s, rest) ← readText t
      let (es, rest) ← readElements nested fuel rest
      return (.text s :: es, rest)

/-- An argument after its opening brace, with its closing brace. -/
def readArgument : (fuel : Nat) → Text → Except Failure (Element × Text)
  | 0, t => .error (.expected .endOfInput t)
  | fuel + 1, t => do
    let (head, rest) ← readHead t
    match head with
    | .whole e => do
      let rest ← expect CodePoint.closeBrace (skipSpacing rest)
      return (e, rest)
    | .opened name kind offset => do
      let (options, rest) ← readOptions fuel rest
      let rest ← expect CodePoint.closeBrace (skipSpacing rest)
      return (.choice name kind offset options, rest)

/-- One option and those that follow it, up to the closing brace of their argument. -/
def readOptions : (fuel : Nat) → Text → Except Failure (List (Text × List Element) × Text)
  | 0, t => .error (.expected .endOfInput t)
  | fuel + 1, t => do
    let (selector, rest) ← readSelector (skipSpacing t)
    let rest ← expect CodePoint.openBrace (skipSpacing rest)
    let (pattern, rest) ← readElements true fuel (skipSpacing rest)
    let rest ← expect CodePoint.closeBrace rest
    match skipSpacing rest with
    | CodePoint.closeBrace :: after => return ([(selector, pattern)], CodePoint.closeBrace :: after)
    | _ => do
      let (options, rest) ← readOptions fuel rest
      return ((selector, pattern) :: options, rest)

end

/-- Why a message is no pattern, and where. Lines and columns count from one, the offset from zero. -/
structure SyntaxError where
  expected : Expectation
  found : Option CodePoint
  offset : Nat
  line : Nat
  column : Nat
  deriving DecidableEq, Repr

def SyntaxError.message (e : SyntaxError) : Text :=
  ("Expected " : Text) ++ e.expected.message ++ (" but " : Text)
    ++ (match e.found with
      | some c => [CodePoint.doubleQuote, c, CodePoint.doubleQuote]
      | none => ("end of input" : Text))
    ++ (" found." : Text)

inductive Error where
  | malformed (e : SyntaxError)
  | fault (f : Fault)
  deriving DecidableEq, Repr

/-- How many characters stand behind the last line feed. -/
def columnAfter (t : Text) : Nat := (t.reverse.takeWhile (· != CodePoint.lineFeed)).length

/-- The place in a message at which a given rest of it begins. -/
def errorAt (message : Text) (what : Expectation) (rest : Text) : SyntaxError :=
  let offset := message.length - rest.length
  let consumed := message.take offset
  { expected := what
    found := rest.head?
    offset := offset
    line := consumed.count CodePoint.lineFeed + 1
    column := columnAfter consumed + 1 }

def parse (message : Text) : Except Error Pattern :=
  match readElements false (message.length + 1) message with
  | .ok (elements, _) => .ok elements
  | .error (.expected what rest) => .error (.malformed (errorAt message what rest))
  | .error (.fault f) => .error (.fault f)

end MessageExtraction.Pattern
