/-!
# `Syntax.Kind` — the kinds of nodes in a Go syntax tree

One constructor per kind of node. Kinds that stand for single lexemes (names, literals, comments,
punctuation) come last; `mark` is the kind of keywords and punctuation, which are no nodes of their own
when the named children of a node are counted.
-/

namespace GoExcerpt

/-- What a syntax tree node stands for. -/
inductive Kind where
  | sourceFile | packageClause | importDeclaration | importSpec | importSpecList
  | constDeclaration | constSpec | varDeclaration | varSpec | varSpecList
  | typeDeclaration | typeSpec | typeAlias | functionDeclaration | methodDeclaration
  | parameterList | parameterDeclaration | variadicParameterDeclaration
  | typeParameterList | typeParameterDeclaration | typeConstraint | typeElem | typeArguments
  | genericType | qualifiedType | parenthesizedType | pointerType | arrayType
  | implicitLengthArrayType | sliceType | structType | fieldDeclarationList | fieldDeclaration
  | interfaceType | methodElem | mapType | channelType | functionType | negatedType
  | block | expressionStatement | sendStatement | receiveStatement | incStatement | decStatement
  | assignmentStatement | shortVarDeclaration | labeledStatement | emptyStatement
  | fallthroughStatement | breakStatement | continueStatement | gotoStatement | returnStatement
  | goStatement | deferStatement | ifStatement | forStatement | forClause | rangeClause
  | expressionSwitchStatement | expressionCase | typeSwitchStatement | typeCase | defaultCase
  | selectStatement | communicationCase
  | expressionList | parenthesizedExpression | callExpression | argumentList | variadicArgument
  | selectorExpression | indexExpression | sliceExpression | typeAssertionExpression
  | typeConversionExpression | typeInstantiationExpression | compositeLiteral | literalValue
  | literalElement | keyedElement | funcLiteral | unaryExpression | binaryExpression
  | identifier | typeIdentifier | fieldIdentifier | packageIdentifier | labelName
  | blankIdentifier | dot | numberLiteral | runeLiteral | interpretedString | rawString
  | nilLiteral | trueLiteral | falseLiteral | iota | comment | mark
deriving DecidableEq, Repr, Inhabited

namespace Kind

/-- Named nodes are all but keywords and punctuation; comments count as named wherever they stand. -/
def isNamed (k : Kind) : Bool := k != .mark

/-- Kinds of nodes that end the scope of a declaration made directly inside them. -/
def closesScope : Kind → Bool
  | .block | .ifStatement | .forStatement | .expressionSwitchStatement | .typeSwitchStatement
  | .selectStatement | .expressionCase | .typeCase | .defaultCase | .communicationCase
  | .funcLiteral | .functionDeclaration | .methodDeclaration => true
  | _ => false

end Kind

/-- The part a node plays in its parent. -/
inductive Role where
  | name | typ | value | receiver | parameters | result | body | function | arguments
  | operand | operator | member | left | right | qualifier | path | binder
deriving DecidableEq, Repr, Inhabited

end GoExcerpt
