import GoExcerpt.Syntax.Rules.Statements

/-!
# `Syntax.SourceFile` — the syntax tree of a whole file

A file is a sequence of items, each with something that ends it. Where no item can be read, the rest of
the line is passed over and the file counts as broken, as it does where nothing ends an item; what was
read before and after stays.
-/

namespace GoExcerpt

/-- A file after parsing. -/
structure SourceFile where
  /-- the root, whose children are items, comments and statement ends -/
  root : Tree
  /-- whether some part could not be read -/
  broken : Bool

namespace SourceFile

/-- Steps that reading one item of a text may need: a text has no more lexemes than bytes, and every rule
    takes a lexeme within fewer steps than this many per lexeme. -/
def stepsFor (source : String) : Nat := 256 * (source.utf8ByteSize + 8)

/-- Reads one item. -/
def readItem (steps : Nat) (s : ReadState) : Option ReadState :=
  Grammar.run Rules.grammar steps ⟨true, false⟩ (.rule .item) s

/-- The lexemes after the first, passed over up to the next line end. -/
def skipLine (ls : List Lexeme) : List Lexeme :=
  (ls.drop 1).dropWhile (·.cls != .lineEnd)

/-- Reads items until no lexeme is left. `fuel` counts items; one per lexeme is enough. -/
def readItems (steps : Nat) : Nat → Bool → ReadState → ReadState × Bool
  | 0, broken, s => (s, broken)
  | fuel + 1, broken, s =>
      if s.rest.all Lexeme.isTrivia then
        (⟨[], ((s.rest.filter Lexeme.isComment).map (·.toLeaf .comment)).reverse ++ s.built⟩, broken)
      else
        match readItem steps s with
        | some s' =>
            match ReadState.takeTerminator s'.built s'.rest with
            | some ended => readItems steps fuel broken ended
            | none => readItems steps fuel true s'
        | none => readItems steps fuel true ⟨skipLine s.rest, s.built⟩

/-- What reading the items of a source text leaves, and whether the text is broken. -/
def readSource (source : String) : ReadState × Bool :=
  readItems (stepsFor source) (source.utf8ByteSize + 1) false ⟨Lexeme.scan source, []⟩

/-- Parses a source text. -/
def parse (source : String) : SourceFile :=
  let (s, broken) := readSource source
  let items := s.built.reverse
  let stop := match items.getLast? with
    | some t => t.extent.stop
    | none => Position.zero
  ⟨.node .sourceFile none ⟨Position.zero, stop⟩ items, broken⟩

/-- The name in the first package clause. -/
def packageName (f : SourceFile) : Option String := do
  let clause ← f.root.named.find? (·.kind == .packageClause)
  let name ← clause.named.find? (·.kind == .packageIdentifier)
  some name.text

end SourceFile
end GoExcerpt
