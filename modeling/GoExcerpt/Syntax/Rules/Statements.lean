import GoExcerpt.Syntax.Rules.Expressions

/-!
# `Syntax.Rules.Statements` — how statements and declarations are written

A statement that begins with expressions is read in a frame: first the expressions, then whatever
follows decides which node is wrapped around them. `Rules.grammar` puts all rules together.
-/

namespace GoExcerpt.Rules

open Grammar

/-- Words that open a statement or a declaration and are no names there. -/
def statementWords : List String :=
  ["var", "const", "type", "return", "go", "defer", "if", "for", "switch", "select", "fallthrough",
   "break", "continue", "goto", "case", "default"]

def expressionList : Grammar :=
  node .expressionList (expression ++ many (sameLine ++ sign "," ++ expression))

/-! ## Simple statements -/

/-- More expressions after a first one. -/
def moreExpressions : Grammar := sameLine ++ sign "," ++ expression ++ many (sameLine ++ sign "," ++ expression)

def assignmentOperators : List String :=
  ["=", "*=", "/=", "%=", "<<=", ">>=", "&=", "&^=", "+=", "-=", "|=", "^="]

/-- What makes the expressions of the frame a declaration or an assignment. -/
def assigning : Grammar :=
  sameLine ++ wrap .expressionList ++ tag .left ++
    ((sign ":=" ++ playing .right expressionList ++ wrap .shortVarDeclaration)
      <|> (playing .operator (token (.oneOf assignmentOperators) .mark)
            ++ playing .right expressionList ++ wrap .assignmentStatement))

/-- What makes the single expression of the frame a send or a step. -/
def stepping : Grammar :=
  sameLine ++
    ((sign "++" ++ wrap .incStatement)
      <|> (sign "--" ++ wrap .decStatement)
      <|> (sign "<-" ++ expression ++ wrap .sendStatement))

/-- What makes a statement of the single expression of the frame, other than by itself. -/
def simpleEnding : Grammar := assigning <|> stepping <|> (moreExpressions ++ assigning)

def simple : Grammar :=
  frame (expression ++ (simpleEnding <|> wrap .expressionStatement))

/-! ## Branches and loops -/

/-- A simple statement and its semicolon, in a frame that has read the first expression already. -/
def initializer : Grammar :=
  (simpleEnding <|> (textAhead ";" ++ wrap .expressionStatement)) ++ sign ";"

def ifStatement : Grammar :=
  node .ifStatement
    (sign "if"
      ++ within .header (frame (expression ++ ((initializer ++ expression) <|> done)))
      ++ rule .block
      ++ opt (sameLine ++ sign "else" ++ (rule .block <|> rule .ifStatement)))

/-- Condition and step of a counted loop. -/
def loopRest : Grammar := opt expression ++ sign ";" ++ opt (rule .simple)

def rangeEnding : Grammar :=
  opt moreExpressions ++ wrap .expressionList ++ tag .left ++ token (.oneOf [":=", "="]) .mark ++ sign "range"
    ++ playing .right expression ++ wrap .rangeClause

def forHeader : Grammar :=
  textAhead "\x7b"
    <|> node .rangeClause (sign "range" ++ playing .right expression)
    <|> node .forClause (sign ";" ++ loopRest)
    <|> frame
      (expression
        ++ (rangeEnding <|> (initializer ++ loopRest ++ wrap .forClause) <|> done))

def forStatement : Grammar :=
  node .forStatement (sign "for" ++ within .header forHeader ++ rule .block)

def cases (g : Grammar) : Grammar :=
  sign "\x7b"
    ++ within .body (many (g <|> node .defaultCase (sign "default" ++ sign ":" ++ rule .statements)))
    ++ sign "\x7d"

def expressionCase : Grammar :=
  node .expressionCase
    (sign "case" ++ within .brackets expressionList ++ sign ":" ++ rule .statements)

def expressionSwitch : Grammar :=
  node .expressionSwitchStatement
    (sign "switch"
      ++ within .header
        (textAhead "\x7b"
          <|> frame (expression ++ ((initializer ++ opt expression) <|> done)))
      ++ cases expressionCase)

/-- `v.(type)`, perhaps bound to a name. -/
def typeGuard : Grammar :=
  let mark := sign "." ++ sign "(" ++ sign "type" ++ sign ")"
  frame
      (expression ++ opt moreExpressions ++ wrap .expressionList ++ tag .binder ++ sign ":="
        ++ playing .value expression ++ mark)
    <|> (playing .value expression ++ mark)

def typeCase : Grammar :=
  node .typeCase
    (sign "case" ++ within .brackets (commaSeparated typ) ++ sign ":" ++ rule .statements)

def typeSwitch : Grammar :=
  node .typeSwitchStatement
    (sign "switch"
      ++ within .header (typeGuard <|> (rule .simple ++ sign ";" ++ typeGuard))
      ++ cases typeCase)

/-- A send or a receive as the guard of a case. -/
def communication : Grammar :=
  frame
    (expression
      ++ ((opt moreExpressions ++ wrap .expressionList ++ tag .left ++ token (.oneOf [":=", "="]) .mark
            ++ playing .right expression ++ wrap .receiveStatement)
          <|> (sign "<-" ++ expression ++ wrap .sendStatement)
          <|> (tag .right ++ wrap .receiveStatement)))

def selectStatement : Grammar :=
  node .selectStatement
    (sign "select"
      ++ cases
        (node .communicationCase
          (sign "case" ++ within .brackets communication ++ sign ":" ++ rule .statements)))

/-! ## Declarations -/

/-- Specifications between brackets, each closed by a line end or a semicolon. -/
def grouped (g : Grammar) : Grammar :=
  sign "(" ++ within .body (many (g ++ terminator)) ++ sign ")"

def constSpec : Grammar :=
  node .constSpec
    (playing .name (commaSeparated (word .identifier))
      ++ opt (sameLine ++ opt (playing .typ typ) ++ sign "=" ++ playing .value expressionList))

def constDeclaration : Grammar :=
  node .constDeclaration (sign "const" ++ (grouped constSpec <|> constSpec))

def varSpec : Grammar :=
  node .varSpec
    (commaSeparated (playing .name (word .identifier))
      ++ ((sign "=" ++ playing .value expressionList)
            <|> (playing .typ typ ++ opt (sameLine ++ sign "=" ++ playing .value expressionList))))

def varDeclaration : Grammar :=
  node .varDeclaration (sign "var" ++ (node .varSpecList (grouped varSpec) <|> varSpec))

def typeEntry : Grammar :=
  let aliased := sign "=" ++ playing .typ typ ++ wrap .typeAlias
  let defined := playing .typ typ ++ wrap .typeSpec
  frame
    (playing .name (word .typeIdentifier)
      ++ (aliased <|> (rule .typeParameters ++ (aliased <|> defined)) <|> defined))

def typeDeclaration : Grammar :=
  node .typeDeclaration (sign "type" ++ (grouped typeEntry <|> typeEntry))

def functionDeclaration : Grammar :=
  node .functionDeclaration
    (sign "func" ++ playing .name (word .identifier) ++ opt (rule .typeParameters)
      ++ rule .signature ++ opt (sameLine ++ playing .body (rule .block)))

def methodDeclaration : Grammar :=
  node .methodDeclaration
    (sign "func" ++ playing .receiver (rule .parameters)
      ++ playing .name (word .fieldIdentifier)
      ++ rule .signature ++ opt (sameLine ++ playing .body (rule .block)))

def packageClause : Grammar :=
  node .packageClause (sign "package" ++ word .packageIdentifier)

def importSpec : Grammar :=
  node .importSpec
    (opt
        (playing .name
          (token (.oneOf ["."]) .dot <|> token (.oneOf ["_"]) .blankIdentifier
            <|> word .packageIdentifier))
      ++ playing .path stringLiteral)

def importDeclaration : Grammar :=
  node .importDeclaration
    (sign "import" ++ (node .importSpecList (lined "(" importSpec ")") <|> importSpec))

/-! ## All statements -/

/-- Whether the lexemes ahead are a word that opens no statement of its own. -/
def plainWordAhead (ls : List Lexeme) : Bool := !statementWords.contains (Lexeme.nextText ls)

/-- Whether a list of statements ends here. -/
def listEndAhead (ls : List Lexeme) : Bool := ["\x7d", "case", "default"].contains (Lexeme.nextText ls)

def labeledStatement : Grammar :=
  node .labeledStatement (word .labelName ++ sign ":" ++ rule .statement)

/-- A label with nothing after it, which may only end a list of statements. -/
def closingLabel : Grammar :=
  node .labeledStatement (word .labelName ++ sign ":" ++ ahead listEndAhead)

def keywordStatement : Grammar :=
  constDeclaration <|> varDeclaration <|> typeDeclaration
    <|> node .returnStatement (sign "return" ++ opt (sameLine ++ expressionList))
    <|> node .goStatement (sign "go" ++ expression)
    <|> node .deferStatement (sign "defer" ++ expression)
    <|> rule .ifStatement <|> forStatement <|> typeSwitch <|> expressionSwitch <|> selectStatement
    <|> node .fallthroughStatement (sign "fallthrough")
    <|> node .breakStatement (sign "break" ++ opt (sameLine ++ word .labelName))
    <|> node .continueStatement (sign "continue" ++ opt (sameLine ++ word .labelName))
    <|> node .gotoStatement (sign "goto" ++ word .labelName)

def statement : Grammar :=
  (ahead plainWordAhead ++ (rule .block <|> labeledStatement <|> rule .simple))
    <|> node .emptyStatement (sign ";")
    <|> keywordStatement

/-- Any number of statements; each but the last needs something that ends it. -/
def statements : Grammar :=
  let one := (ahead plainWordAhead ++ closingLabel) <|> rule .statement
  opt (one ++ many (terminator ++ one) ++ opt terminator)

def block : Grammar :=
  node .block (sign "\x7b" ++ within .body (rule .statements) ++ sign "\x7d")

/-- Words that open an item of a file and are names in other places. -/
def itemWords : List String := ["package", "import"]

/-- What may stand at the top of a file, without what ends it. -/
def item : Grammar :=
  packageClause <|> importDeclaration <|> functionDeclaration <|> methodDeclaration
    <|> (ahead (fun ls => !itemWords.contains (Lexeme.nextText ls)) ++ rule .statement)

/-- The grammar of Go source files. -/
def grammar : Rule → Grammar
  | .item => item
  | .statement => statement
  | .statements => statements
  | .block => block
  | .simple => simple
  | .expression => rule (.binary 0)
  | .binary level => binary level
  | .unary => unary
  | .chain => chain
  | .operand => operand
  | .pureType => pureType
  | .heavyType => heavyType
  | .typ => anyType
  | .namedType => namedType
  | .genericType => genericType
  | .typeArguments => typeArguments
  | .parameters => parameters
  | .signature => signature
  | .typeParameters => typeParameters
  | .structType => structType
  | .interfaceType => interfaceType
  | .arguments => arguments
  | .literalValue => literalValue
  | .ifStatement => ifStatement

end GoExcerpt.Rules
