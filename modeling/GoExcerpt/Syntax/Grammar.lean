import GoExcerpt.Syntax.Lexeme
import GoExcerpt.Syntax.Tree

/-!
# `Syntax.Grammar` — grammars as data, and the one function that reads by them

A `Grammar` describes how to read lexemes and which tree to build from them; `Grammar.run` is its only
interpreter, so a fact about `run` is a fact about every grammar. Alternatives are ordered: the second is
tried only when the first fails.

While reading, the trees built so far in the innermost `frame` are held latest first. `wrap` turns all of
them into the children of one new node and `tag` gives them a role; a left-recursive construct such as
`a.b(c)` is a frame whose content is wrapped once per step.

Comments are not part of any rule. A lexeme takes the comments before it along, and `wrap` leaves leading
comments outside the new node, so a comment ends up in the smallest node around both of its neighbours.

A line end matters only where a statement could end: in a **body** region `sameLine` refuses to pass one,
everywhere else line ends are blanks.
-/

namespace GoExcerpt

/-! ## Descriptions -/

/-- Which lexeme a place of the grammar asks for. -/
inductive Wanted where
  /-- one of these keywords or operators -/
  | oneOf (texts : List String)
  /-- a word other than these -/
  | wordBut (reserved : List String)
  /-- any lexeme of the class -/
  | ofClass (cls : LexemeClass)

/-- Where line ends and braces have a meaning of their own. -/
inductive Region where
  /-- statements, specifications, fields: a line end may close what stands before it -/
  | body
  /-- inside brackets: line ends are blanks -/
  | brackets
  /-- between a keyword and its block: line ends are blanks, and a brace after a name opens the block -/
  | header
  /-- a type that cannot stand alone: line ends are blanks, braces as before -/
  | unbroken
deriving DecidableEq, Repr

/-- The rules a grammar may refer to. -/
inductive Rule where
  | item | statement | statements | block | simple | expression | unary | chain | operand
  | pureType | heavyType | typ | namedType | genericType | typeArguments | parameters | signature
  | typeParameters | structType | interfaceType | arguments | literalValue | ifStatement
  | binary (level : Nat)
deriving DecidableEq, Repr

/-- A way to read lexemes. -/
inductive Grammar where
  /-- read nothing -/
  | done
  /-- read one lexeme, passing over line ends -/
  | token (wanted : Wanted) (kind : Kind)
  /-- read what ends a statement: a line end, a semicolon, or the end of the text -/
  | terminator
  /-- go on only if no line end that matters comes next -/
  | sameLine
  /-- go on only if a brace after a name may open a literal -/
  | outsideHeader
  /-- go on only if the lexemes ahead pass the test -/
  | ahead (test : List Lexeme → Bool)
  | seq (first second : Grammar)
  | alt (first second : Grammar)
  /-- as often as possible, possibly not at all -/
  | many (part : Grammar)
  | rule (r : Rule)
  | within (region : Region) (part : Grammar)
  /-- build the trees of `part` apart from those before -/
  | frame (part : Grammar)
  /-- make the trees of the frame the children of one node -/
  | wrap (kind : Kind)
  /-- give the trees of the frame a role -/
  | tag (role : Role)

namespace Grammar

instance : Append Grammar := ⟨seq⟩

instance : OrElse Grammar := ⟨fun a b => alt a (b ())⟩

/-- A keyword or an operator. -/
def sign (text : String) : Grammar := token (.oneOf [text]) .mark

/-- Optional. -/
def opt (g : Grammar) : Grammar := alt g done

/-- A node of its own. -/
def node (kind : Kind) (g : Grammar) : Grammar := frame (g ++ wrap kind)

/-- With a role. -/
def playing (role : Role) (g : Grammar) : Grammar := frame (g ++ tag role)

/-- One or more, with commas between. -/
def commaSeparated (g : Grammar) : Grammar := g ++ many (sign "," ++ g)

/-- Between brackets: any number, with commas between and perhaps one at the end. -/
def listed (opening : String) (g : Grammar) (closing : String) : Grammar :=
  sign opening ++ within .brackets (opt (commaSeparated g ++ opt (sign ","))) ++ sign closing

/-- Between brackets: at least one, with commas between and perhaps one at the end. -/
def listedSome (opening : String) (g : Grammar) (closing : String) : Grammar :=
  sign opening ++ within .brackets (commaSeparated g ++ opt (sign ",")) ++ sign closing

end Grammar

/-! ## Lexemes ahead -/

namespace Lexeme

/-- Whether `l` is what the grammar asks for. -/
def satisfies (l : Lexeme) : Wanted → Bool
  | .oneOf texts => (l.cls == .word || l.cls == .operator) && texts.contains l.text
  | .wordBut reserved => l.cls == .word && !reserved.contains l.text
  | .ofClass cls => l.cls == cls

/-- The lexeme as a leaf of the tree. -/
def toLeaf (l : Lexeme) (kind : Kind) : Tree := .leaf kind none l.extent l.text

/-- Whether a line end comes before the next lexeme that is no comment. -/
def lineEndAhead (ls : List Lexeme) : Bool :=
  match ls.dropWhile isComment with
  | l :: _ => l.cls == .lineEnd
  | [] => false

/-- The text of the next lexeme that is neither comment nor line end; empty at the end of the text. -/
def nextText (ls : List Lexeme) : String :=
  match ls.dropWhile isTrivia with
  | l :: _ => l.text
  | [] => ""

end Lexeme

/-! ## Reading -/

/-- How line ends and braces are taken at the current place. -/
structure Reading where
  lineEnds : Bool
  header : Bool

/-- The way of reading inside a region. -/
def Region.enter (m : Reading) : Region → Reading
  | .body => ⟨true, false⟩
  | .brackets => ⟨false, false⟩
  | .header => ⟨false, true⟩
  | .unbroken => ⟨false, m.header⟩

/-- Lexemes still to be read, and the trees of the innermost frame, latest first. -/
structure ReadState where
  rest : List Lexeme
  built : List Tree

namespace ReadState

/-- Reads one wanted lexeme. Comments before it become leaves, line ends before it are dropped. -/
def take (w : Wanted) (kind : Kind) (built : List Tree) : List Lexeme → Option ReadState
  | [] => none
  | l :: ls =>
      if l.cls == .lineEnd then take w kind built ls
      else if l.cls == .comment then take w kind (l.toLeaf .comment :: built) ls
      else if l.satisfies w then some ⟨ls, l.toLeaf kind :: built⟩
      else none

/-- Reads a line end or a semicolon. Comments before it become leaves. -/
def takeEnd (built : List Tree) : List Lexeme → Option ReadState
  | [] => none
  | l :: ls =>
      if l.cls == .comment then takeEnd (l.toLeaf .comment :: built) ls
      else if l.cls == .lineEnd || l.text == ";" then some ⟨ls, l.toLeaf .mark :: built⟩
      else none

/-- Reads the end of a statement. Where nothing but comments is left the text ends, and with it the
    statement; the comments belong to neither. -/
def takeTerminator (built : List Tree) (rest : List Lexeme) : Option ReadState :=
  if rest.all Lexeme.isComment then some ⟨rest, built⟩ else takeEnd built rest

/-- The trees `ts`, in source order and not empty, as one node. -/
def gather (kind : Kind) (t : Tree) (ts : List Tree) : Tree :=
  .node kind none ⟨t.extent.start, ((t :: ts).getLast (by simp)).extent.stop⟩ (t :: ts)

/-- One node over all trees of a frame, leading comments left before it. -/
def wrap (kind : Kind) (built : List Tree) : List Tree :=
  let inOrder := built.reverse
  let leading := inOrder.takeWhile Tree.isComment
  match inOrder.dropWhile Tree.isComment with
  | [] => built
  | t :: ts => gather kind t ts :: leading.reverse

/-- All trees of a frame but comments in one role. -/
def tag (role : Role) (built : List Tree) : List Tree :=
  built.map fun t => if t.isComment then t else t.withRole role

end ReadState

namespace Grammar

/-- Reads by a grammar. One unit of `fuel` pays for one step down; `none` is a failure to read. -/
def run (rules : Rule → Grammar) : Nat → Reading → Grammar → ReadState → Option ReadState
  | 0, _, _, _ => none
  | fuel + 1, m, g, s =>
    match g with
    | done => some s
    | token w kind => ReadState.take w kind s.built s.rest
    | terminator => ReadState.takeTerminator s.built s.rest
    | sameLine => if m.lineEnds && Lexeme.lineEndAhead s.rest then none else some s
    | outsideHeader => if m.header then none else some s
    | ahead test => if test s.rest then some s else none
    | seq a b =>
        match run rules fuel m a s with
        | some s' => run rules fuel m b s'
        | none => none
    | alt a b =>
        match run rules fuel m a s with
        | some s' => some s'
        | none => run rules fuel m b s
    | many a =>
        match run rules fuel m a s with
        | some s' => run rules fuel m (many a) s'
        | none => some s
    | rule r => run rules fuel m (rules r) s
    | within region a => run rules fuel (region.enter m) a s
    | frame a =>
        match run rules fuel m a ⟨s.rest, []⟩ with
        | some s' => some ⟨s'.rest, s'.built ++ s.built⟩
        | none => none
    | wrap kind => some ⟨s.rest, ReadState.wrap kind s.built⟩
    | tag role => some ⟨s.rest, ReadState.tag role s.built⟩

end Grammar
end GoExcerpt
