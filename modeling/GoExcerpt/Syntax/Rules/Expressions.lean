import GoExcerpt.Syntax.Rules.Types

/-!
# `Syntax.Rules.Expressions` — how expressions are written

The delicate point is where a name with brackets is a type. `X[A](e)` with exactly one argument, and with
type-like text between the brackets, is a conversion; with any other number of arguments it is a call of
`X`. A brace after a name opens a literal, unless a block is expected there.
-/

namespace GoExcerpt.Rules

open Grammar

def expression : Grammar := rule .expression

/-- Words with a meaning of their own where an expression may begin. -/
def expressionWords : List String := typeWords ++ valueWords

/-! ## How many arguments follow -/

def isOpeningBracket (l : Lexeme) : Bool :=
  l.cls == .operator && (l.text == "(" || l.text == "[" || l.text == "\x7b")

def isClosingBracket (l : Lexeme) : Bool :=
  l.cls == .operator && (l.text == ")" || l.text == "]" || l.text == "\x7d")

/-- Whether the brackets that were just opened hold exactly one argument without an ellipsis. `depth`
    counts brackets opened since, `any` tells whether something stands between them yet. -/
def soleArgument (depth : Nat) (any : Bool) : List Lexeme → Bool
  | [] => false
  | l :: ls =>
      if l.isTrivia then soleArgument depth any ls
      else if isOpeningBracket l then soleArgument (depth + 1) true ls
      else if isClosingBracket l then
        match depth with
        | 0 => any
        | d + 1 => soleArgument d any ls
      else if depth == 0 && l.text == "," then any && Lexeme.nextText ls == ")"
      else if depth == 0 && l.text == "..." then false
      else soleArgument depth true ls

/-! ## Literals -/

def stringLiteral : Grammar :=
  token (.ofClass .interpreted) .interpretedString <|> token (.ofClass .raw) .rawString

def basicLiteral : Grammar :=
  stringLiteral <|> token (.ofClass .number) .numberLiteral <|> token (.ofClass .rune) .runeLiteral
    <|> token (.oneOf ["nil"]) .nilLiteral <|> token (.oneOf ["true"]) .trueLiteral
    <|> token (.oneOf ["false"]) .falseLiteral <|> token (.oneOf ["iota"]) .iota

def functionLiteral : Grammar :=
  node .funcLiteral
    (sign "func" ++ within .unbroken (rule .signature) ++ playing .body (rule .block))

def literalElement : Grammar := node .literalElement (rule .literalValue <|> expression)

def element : Grammar :=
  frame (literalElement ++ opt (sign ":" ++ literalElement ++ wrap .keyedElement))

def literalValue : Grammar := node .literalValue (listed "\x7b" element "\x7d")

/-! ## Types at the beginning of an expression -/

/-- The single operand of a conversion. -/
def converted : Grammar :=
  within .brackets (playing .operand expression ++ opt (sign ",")) ++ sign ")"
    ++ wrap .typeConversionExpression

/-- `[]T` and the like: with a literal value, or converting one operand. -/
def typedOperand : Grammar :=
  frame
    (within .unbroken (playing .typ literalType)
      ++ ((playing .body (rule .literalValue) ++ wrap .compositeLiteral)
            <|> (sign "(" ++ converted)))
    <|> frame (within .unbroken (playing .typ bareType) ++ sign "(" ++ converted)

/-- `T[A]{...}` and `T[A](e)`. -/
def instantiatedOperand : Grammar :=
  frame
    (playing .typ genericOperand ++ sameLine
      ++ ((outsideHeader ++ playing .body (rule .literalValue) ++ wrap .compositeLiteral)
            <|> (sign "(" ++ ahead (soleArgument 0 false) ++ converted)))

/-- `T{...}` and `pkg.T{...}`. -/
def compositeLiteral : Grammar :=
  frame
    (outsideHeader ++ playing .typ operandName ++ sameLine ++ playing .body (rule .literalValue)
      ++ wrap .compositeLiteral)

/-- `([]T)(e)`: the brackets hold what can only be a type. -/
def parenthesizedConversion : Grammar :=
  frame
    (playing .typ
        (node .parenthesizedType (sign "(" ++ within .brackets (rule .heavyType) ++ sign ")"))
      ++ sameLine ++ sign "(" ++ ahead (soleArgument 0 false) ++ converted)

/-! ## Calls and other continuations -/

def argument : Grammar :=
  frame (expression ++ opt (sign "..." ++ wrap .variadicArgument)) <|> typ

def arguments : Grammar := node .argumentList (listed "(" argument ")")

/-- `new(T)` and `make(T, n)`: the first argument is a type. -/
def allocation : Grammar :=
  node .callExpression
    (playing .function (token (.oneOf ["new", "make"]) .identifier) ++ sameLine
      ++ playing .arguments
        (node .argumentList
          (sign "("
            ++ within .brackets (opt (typ ++ many (sign "," ++ expression) ++ opt (sign ",")))
            ++ sign ")")))

def selection : Grammar :=
  tag .operand ++ sign "." ++ playing .member (word .fieldIdentifier) ++ wrap .selectorExpression

def assertion : Grammar :=
  tag .operand ++ sign "." ++ sign "(" ++ ahead (fun ls => Lexeme.nextText ls != "type")
    ++ within .brackets (playing .typ typ) ++ sign ")" ++ wrap .typeAssertionExpression

def call : Grammar :=
  tag .function ++ playing .arguments (rule .arguments) ++ wrap .callExpression

def textAhead (text : String) : Grammar := ahead fun ls => Lexeme.nextText ls == text

/-- `x[i]` and the slices `x[i:j]`, `x[i:j:k]`. -/
def indexing : Grammar :=
  tag .operand ++ sign "[" ++ within .brackets (textAhead ":" <|> expression)
    ++ ((sign "]" ++ wrap .indexExpression)
          <|> (sign ":"
                ++ within .brackets (opt (expression ++ opt (sign ":" ++ expression)))
                ++ sign "]" ++ wrap .sliceExpression))

/-- A call with type arguments that are no index. -/
def instantiatedCall : Grammar :=
  tag .function ++ rule .typeArguments ++ sameLine ++ playing .arguments (rule .arguments)
    ++ wrap .callExpression

def instantiation : Grammar :=
  tag .typ ++ rule .typeArguments ++ wrap .typeInstantiationExpression

def continuation : Grammar :=
  sameLine ++
    (selection <|> call <|> indexing <|> instantiatedCall <|> instantiation <|> assertion)

/-! ## Levels of binding -/

def operand : Grammar :=
  basicLiteral <|> functionLiteral <|> allocation <|> typedOperand <|> instantiatedOperand
    <|> compositeLiteral <|> parenthesizedConversion
    <|> node .parenthesizedExpression (sign "(" ++ within .brackets expression ++ sign ")")
    <|> token (.wordBut expressionWords) .identifier

def chain : Grammar := frame (rule .operand ++ many continuation)

def unary : Grammar :=
  node .unaryExpression
      (playing .operator (token (.oneOf ["+", "-", "!", "^", "*", "&", "<-"]) .mark)
        ++ playing .operand (rule .unary))
    <|> rule .chain

/-- Binary operators by how tightly they bind, loosest first. -/
def binaryOperators : Nat → List String
  | 0 => ["||"]
  | 1 => ["&&"]
  | 2 => ["==", "!=", "<", "<=", ">", ">="]
  | 3 => ["+", "-", "|", "^"]
  | _ => ["*", "/", "%", "<<", ">>", "&", "&^"]

/-- Binary operators of one level, grouped from the left. -/
def binary (level : Nat) : Grammar :=
  let tighter := if level < 4 then rule (.binary (level + 1)) else rule .unary
  frame
    (tighter
      ++ many (sameLine ++ tag .left
          ++ playing .operator (token (.oneOf (binaryOperators level)) .mark)
          ++ playing .right tighter ++ wrap .binaryExpression))

end GoExcerpt.Rules
