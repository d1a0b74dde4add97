import GoExcerpt.Syntax.Grammar

/-!
# `Syntax.Rules.Types` — how types, parameters and signatures are written

Names are read as types wherever they can be; `heavyType` and `pureType` single out the types that an
expression could not be mistaken for.
-/

namespace GoExcerpt.Rules

open Grammar

/-- Words that open a type and are therefore no names where a type may stand. -/
def typeWords : List String := ["func", "map", "chan", "struct", "interface"]

/-- Any word taken as a name of the given kind. -/
def word (kind : Kind) : Grammar := token (.wordBut []) kind

/-- A name where a type may stand. -/
def nameBesideType : Grammar := token (.wordBut typeWords) .identifier

def typ : Grammar := rule .typ

/-! ## Named types -/

/-- `T` or `pkg.T`. -/
def plainName : Grammar :=
  node .qualifiedType
      (playing .qualifier (token (.wordBut typeWords) .packageIdentifier) ++ sameLine ++ sign "."
        ++ playing .name (word .typeIdentifier))
    <|> token (.wordBut typeWords) .typeIdentifier

/-- `A | B`, as a type argument, a constraint or an interface element. -/
def union (kind : Kind) : Grammar :=
  node kind (typ ++ many (sameLine ++ sign "|" ++ typ))

def typeArguments : Grammar := node .typeArguments (listedSome "[" (union .typeElem) "]")

/-- `T[A, B]`. -/
def genericType : Grammar :=
  frame (plainName ++ sameLine ++ tag .typ ++ rule .typeArguments ++ wrap .genericType)

/-- A type given by its name, with or without type arguments. -/
def namedType : Grammar := rule .genericType <|> plainName

/-! ## Types that no expression looks like -/

def elementType : Grammar := sameLine ++ playing .typ typ

def sliceType : Grammar := node .sliceType (sign "[" ++ sign "]" ++ elementType)

def arrayType : Grammar :=
  node .arrayType (sign "[" ++ within .brackets (rule .expression) ++ sign "]" ++ elementType)

def implicitLengthArrayType : Grammar :=
  node .implicitLengthArrayType (sign "[" ++ sign "..." ++ sign "]" ++ elementType)

def mapType : Grammar :=
  node .mapType (sign "map" ++ sign "[" ++ within .brackets typ ++ sign "]" ++ typ)

def channelType : Grammar :=
  node .channelType
    ((sign "chan" ++ opt (sign "<-") ++ typ) <|> (sign "<-" ++ sign "chan" ++ typ))

def functionType : Grammar := node .functionType (sign "func" ++ rule .signature)

def fieldDeclaration : Grammar :=
  node .fieldDeclaration
    (((commaSeparated (playing .name (word .fieldIdentifier)) ++ sameLine ++ playing .typ typ)
        <|> (opt (sign "*") ++ playing .typ (rule .namedType)))
      ++ opt (sameLine ++ (token (.ofClass .interpreted) .interpretedString
                            <|> token (.ofClass .raw) .rawString)))

/-- Elements closed by line ends or semicolons, the last one perhaps by the closing bracket alone. -/
def lined (opening : String) (g : Grammar) (closing : String) : Grammar :=
  sign opening ++ within .body (opt (g ++ many (terminator ++ g) ++ opt terminator)) ++ sign closing

def structType : Grammar :=
  node .structType (sign "struct" ++ node .fieldDeclarationList (lined "\x7b" fieldDeclaration "\x7d"))

def methodElem : Grammar :=
  node .methodElem (playing .name (word .fieldIdentifier) ++ sameLine ++ rule .signature)

def interfaceType : Grammar :=
  node .interfaceType (sign "interface" ++ lined "\x7b" (methodElem <|> union .typeElem) "\x7d")

/-- Types a literal value may follow, besides named ones. -/
def literalType : Grammar :=
  sliceType <|> arrayType <|> implicitLengthArrayType <|> mapType <|> rule .structType

/-- Types a conversion may begin with that take no literal value. -/
def bareType : Grammar := channelType <|> functionType <|> rule .interfaceType

def pureType : Grammar :=
  sliceType <|> arrayType <|> mapType <|> rule .structType <|> bareType

/-- Words that are values where an expression may stand, and names elsewhere. -/
def valueWords : List String := ["nil", "true", "false", "iota"]

/-- Words with a meaning of their own where an expression may stand: no type there begins with one. -/
def operandWords : List String := valueWords ++ ["new", "make"]

/-- Whether the name ahead may be a type where an expression may stand too. -/
def nameMayBeType (ls : List Lexeme) : Bool := !operandWords.contains (Lexeme.nextText ls)

/-- As `nameMayBeType` for what stands between the brackets ahead, behind further brackets and stars. -/
def argumentMayBeType (ls : List Lexeme) : Bool :=
  nameMayBeType (ls.dropWhile fun l => l.isTrivia || ["[", "(", "*"].contains l.text)

/-- `T` or `pkg.T` where an expression may stand. -/
def operandName : Grammar := ahead nameMayBeType ++ plainName

/-- `T[A, B]` where an expression may stand. -/
def genericOperand : Grammar :=
  frame
    (operandName ++ sameLine ++ ahead argumentMayBeType ++ tag .typ ++ rule .typeArguments
      ++ wrap .genericType)

/-- A type that is certainly one: it holds type arguments or is no expression. -/
def heavyType : Grammar :=
  node .parenthesizedType (sign "(" ++ within .brackets (rule .heavyType) ++ sign ")")
    <|> node .pointerType (sign "*" ++ rule .heavyType)
    <|> rule .pureType
    <|> genericOperand

/-- Any type. -/
def anyType : Grammar :=
  node .parenthesizedType (sign "(" ++ within .brackets typ ++ sign ")")
    <|> node .pointerType (sign "*" ++ typ)
    <|> node .negatedType (sign "~" ++ typ)
    <|> rule .pureType
    <|> rule .namedType

/-! ## Parameters and results -/

def parameter : Grammar :=
  node .variadicParameterDeclaration
      (opt (playing .name nameBesideType) ++ sign "..." ++ playing .typ typ)
    <|> node .parameterDeclaration
      (commaSeparated (playing .name nameBesideType) ++ playing .typ typ)
    <|> node .parameterDeclaration (playing .typ typ)

def parameters : Grammar := node .parameterList (listed "(" parameter ")")

/-- Parameters, then perhaps a result on the same line. -/
def signature : Grammar :=
  playing .parameters (rule .parameters)
    ++ opt (sameLine ++ playing .result (rule .parameters <|> typ))

def typeParameter : Grammar :=
  node .typeParameterDeclaration
    (commaSeparated (playing .name (word .identifier)) ++ playing .typ (union .typeConstraint))

def typeParameters : Grammar := node .typeParameterList (listedSome "[" typeParameter "]")

end GoExcerpt.Rules
