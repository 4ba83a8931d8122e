import ModelText.Template.Draft
import ModelText.Text.Split

/-!
# Reading expressions

An expression is split at its loosest binary operators first. Operators of one level in a row make
one node when they are all the same, and otherwise associate to the left. What holds no binary
operator is a negation, a literal, an operand behind a minus sign, a parenthesis or a chain of calls.
-/

namespace ModelText.Template

namespace Input

/-- The characters behind which an operator can only be a sign of the operand that follows. -/
def operatorChars : List Char := "|&=!<>+-*/".toList

/-- Whether an operator that follows `before` is a sign: nothing, or another operator, stands in
front of it. -/
def isSign (before : String) : Bool :=
  match (Text.dropBlankEnd before.toList).getLast? with
  | none => true
  | some c => operatorChars.contains c

/-- The visible binary operators from `cursor` on. `operand` is where the operand in front of the
next one starts; `fuel` bounds the bytes left. -/
def operatorsFrom (inp : Input) (stop : Nat) : Nat → Nat → Nat → List (Operator × Span)
  | 0, _, _ => []
  | fuel + 1, cursor, operand =>
    match inp.src.findAny? (Operator.all.map (·.symbol)) (Span.ordered cursor stop)
        inp.tags.inExpression with
    | none => []
    | some (index, found) =>
      match Operator.all[index]? with
      | none => []
      | some operator =>
        if isSign (inp.slice operand found.start) then
          inp.operatorsFrom stop fuel found.stop operand
        else
          (operator, found) :: inp.operatorsFrom stop fuel found.stop found.stop

/-- The visible binary operators of a span. -/
def operators (inp : Input) (span : Span) : List (Operator × Span) :=
  inp.operatorsFrom span.stop (span.length + 1) span.start span.start

/-- The pieces of a span around separators. -/
def piecesAround (start stop : Nat) : List Span → List Span
  | [] => [Span.ordered start stop]
  | separator :: rest =>
    Span.ordered start separator.start :: piecesAround separator.stop stop rest

/-- The operator at the top of an expression, with the spans of its operands. Different operators of
one level leave everything in front of the last one as its first operand. -/
def split? (inp : Input) (span : Span) : Option (Operator × List Span) :=
  let found := inp.operators span
  Operator.levels.findSome? fun level =>
    let splits := found.filter fun (operator, _) => level.contains operator
    splits.getLast?.map fun (operator, last) =>
      if splits.all (·.1 = operator) then
        (operator, piecesAround span.start span.stop (splits.map (·.2)))
      else
        (operator, piecesAround span.start span.stop [last])

/-- The visible separators from `cursor` on; `fuel` bounds the bytes left. -/
def separatorsFrom (inp : Input) (separator : String) (stop : Nat) : Nat → Nat → List Span
  | 0, _ => []
  | fuel + 1, cursor =>
    match inp.src.find? separator (Span.ordered cursor stop) inp.tags.inExpression with
    | none => []
    | some found => found :: inp.separatorsFrom separator stop fuel found.stop

/-- The pieces of a span between its visible separators. -/
def splitAt (inp : Input) (span : Span) (separator : String) : List Span :=
  piecesAround span.start span.stop
    (inp.separatorsFrom separator span.stop (span.length + 1) span.start)

/-- The closing bracket that matches the opening one in front of a span; brackets in string literals
do not count. -/
def closeOf? (inp : Input) (opener closer : String) (span : Span) : Option Span :=
  inp.src.blockEnd? opener closer span true inp.tags.inTag

/-- Whether a character may stand in a name. A digit may not begin one. -/
def isNameChar (first : Bool) (c : Char) : Bool :=
  c == '_' || c.isAlpha || (!first && c.isDigit)

/-- The name that a text begins with. -/
def nameOf : List Char → List Char
  | [] => []
  | c :: rest => if isNameChar true c then c :: rest.takeWhile (isNameChar false) else []

/-- The qualifier of a call and the offset of its name. -/
def qualifier (inp : Input) (span : Span) : Except Char (Option Qualifier × Nat) :=
  let head := (inp.src.slice span).toList.takeWhile fun c => c != '(' && c != '['
  match Text.splitFirst [':', ':'] head with
  | none => .ok (none, span.start)
  | some (word, _) =>
    match Qualifier.read? (String.ofList word) with
    | some q => .ok (some q, span.start + (String.ofList word).utf8ByteSize + 2)
    | none => .error (word.head?.getD ':')

/-- An expression in brackets at `cursor`, given by its opening and its closing bracket: what the
brackets hold and the offset behind them. -/
def bracketed (inp : Input) (opener closer : String) (cursor : Nat) (span : Span) :
    Except Diagnostic (Option (Span × Nat)) :=
  if inp.src.startsAt cursor opener then
    match inp.closeOf? opener closer (Span.ordered (cursor + 1) span.stop) with
    | some close => .ok (some (Span.ordered (cursor + 1) close.start, close.stop))
    | none => .error (inp.error (Span.ordered cursor (cursor + 1)) (.unmatchedTag opener closer))
  else
    .ok none

/-- Reads the arguments of a call in parentheses at `cursor`, if there are any, and answers them with
the offset behind them. `read` reads one argument. -/
def readArgs (inp : Input) (read : Span → Attempt NodeId) (cursor : Nat) (span : Span) :
    Attempt (List NodeId × Nat) :=
  match inp.bracketed "(" ")" cursor span with
  | .error diagnostic => throw diagnostic
  | .ok none => pure ([], cursor)
  | .ok (some (region, cursor)) =>
    if (inp.src.trim region).isEmpty then pure ([], cursor)
    else do
      let args ← (inp.splitAt region ",").mapM read
      pure (args, cursor)

/-- Reads the filter of a call in square brackets at `cursor`, if there is one, and answers it with
the offset behind it. -/
def readFilter (inp : Input) (read : Span → Attempt NodeId) (cursor : Nat) (span : Span) :
    Attempt (Option NodeId × Nat) :=
  match inp.bracketed "[" "]" cursor span with
  | .error diagnostic => throw diagnostic
  | .ok none => pure (none, cursor)
  | .ok (some (region, cursor)) => do
    let filter ← read region
    pure (some filter, cursor)

/-- Reads a call: a name with an optional qualifier, arguments in parentheses and a filter in square
brackets. `read` reads the expressions inside. -/
def readCall (inp : Input) (read : Span → Attempt NodeId) (limits : Span) : Attempt NodeId :=
  let span := inp.src.trim limits
  let invalid (atChar : Char) : Diagnostic :=
    inp.error span (.invalidIdentifier (inp.src.slice span) atChar)
  match inp.qualifier span with
  | .error atChar => throw (invalid atChar)
  | .ok (qualifier, nameStart) =>
    let text := inp.slice nameStart span.stop
    let name := nameOf text.toList
    if name.isEmpty then throw (invalid (text.toList.head?.getD ' '))
    else do
      let (args, cursor) ← inp.readArgs read (nameStart + name.length) span
      let (filter, cursor) ← inp.readFilter read cursor span
      if cursor < span.stop then
        let rest := (inp.slice cursor span.stop).toList.dropWhile Text.isBlank
        throw (invalid (rest.head?.getD ' '))
      else
        Build.node (.call qualifier (String.ofList name) filter args) span (args ++ filter.toList)

/-- Whether a span is one pair of parentheses around an expression. -/
def isParenthesis (inp : Input) (span : Span) : Bool :=
  inp.src.startsAt span.start "(" &&
    (inp.closeOf? "(" ")" (Span.ordered (span.start + 1) span.stop)).any (·.stop = span.stop)

/-- Reads an expression that holds no binary operator. -/
def readOperand (inp : Input) (read : Span → Attempt NodeId) (span : Span) : Attempt NodeId := do
  let text := inp.src.slice span
  let rest := Span.ordered (span.start + 1) span.stop
  if Text.startsWith text "!" then
    let operand ← read rest
    Build.node (.negation operand) span [operand]
  else if let some value := Literal.read? text then
    Build.node (.literal value) span []
  else if Text.startsWith text "-" then
    let nothing ← Build.node (.literal (.int 0)) (Span.point span.start) []
    let operand ← read rest
    Build.node (.operation .subtract [nothing, operand]) span [nothing, operand]
  else if inp.isParenthesis span then
    let inner ← read (Span.ordered (span.start + 1) (span.stop - 1))
    Build.node (.parenthesis inner) span [inner]
  else
    match inp.splitAt span "." with
    | [] | [_] => inp.readCall read span
    | parts =>
      let calls ← parts.mapM (inp.readCall read)
      Build.node (.chain calls) span calls

/-- Reads the expression of a span; `fuel` bounds the depth. -/
def readNested (inp : Input) : Nat → Span → Attempt NodeId
  | 0, limits => throw (inp.error limits (.invalidExpression ""))
  | fuel + 1, limits =>
    let span := inp.src.trim limits
    if span.isEmpty then throw (inp.error limits (.invalidExpression ""))
    else
      match inp.split? span with
      | some (operator, parts) => do
        let operands ← parts.mapM (inp.readNested fuel)
        Build.node (.operation operator operands) span operands
      | none => inp.readOperand (inp.readNested fuel) span

/-- Reads the expression of a span. The parts of an expression are shorter than it is, so no nesting
is deeper than the text is long. -/
def readExpression (inp : Input) (limits : Span) : Attempt NodeId :=
  inp.readNested (inp.src.size + 2) limits

/-- Reads an expression; when it is malformed, records why and puts `null` in its place. -/
def readOrNull (inp : Input) (limits : Span) : Build NodeId := do
  match ← (inp.readExpression limits).run with
  | .ok id => pure id
  | .error diagnostic =>
    Build.report diagnostic
    Build.node (.literal .null) limits []

end Input

end ModelText.Template
