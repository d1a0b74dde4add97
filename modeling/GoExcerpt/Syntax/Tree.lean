import GoExcerpt.Syntax.Kind
import GoExcerpt.Syntax.Position

/-!
# `Syntax.Tree` — concrete syntax trees

A tree keeps every lexeme of the source but blanks: names, literals, punctuation and comments are leaves
that carry their text. A comment is a child of the smallest node around both of its neighbours, so it is
never the first or last child of a node.

The **role** of a tree is the part it plays in its parent; comments and most punctuation have none.
-/

namespace GoExcerpt

/-- A syntax tree: a lexeme, or a node over its children in source order. -/
inductive Tree where
  | leaf (kind : Kind) (role : Option Role) (extent : Extent) (text : String)
  | node (kind : Kind) (role : Option Role) (extent : Extent) (children : List Tree)
deriving Inhabited

namespace Tree

/-! ## Parts of a tree -/

def kind : Tree → Kind
  | leaf k _ _ _ => k
  | node k _ _ _ => k

def role : Tree → Option Role
  | leaf _ r _ _ => r
  | node _ r _ _ => r

def extent : Tree → Extent
  | leaf _ _ e _ => e
  | node _ _ e _ => e

def children : Tree → List Tree
  | leaf _ _ _ _ => []
  | node _ _ _ cs => cs

/-- Offset of the first byte. -/
def first (t : Tree) : Nat := t.extent.start.byte

/-- Offset right after the last byte. -/
def last (t : Tree) : Nat := t.extent.stop.byte

/-- The same tree in another part. -/
def withRole (r : Role) : Tree → Tree
  | leaf k _ e s => leaf k (some r) e s
  | node k _ e cs => node k (some r) e cs

def isComment (t : Tree) : Bool := t.kind == .comment

def isNamed (t : Tree) : Bool := t.kind.isNamed

/-- Children that are nodes of their own, comments included. -/
def named (t : Tree) : List Tree := t.children.filter isNamed

/-- The first child that plays part `r`. -/
def part? (t : Tree) (r : Role) : Option Tree := t.children.find? (·.role == some r)

/-- All children that play part `r`. -/
def parts (t : Tree) (r : Role) : List Tree := t.children.filter (·.role == some r)

mutual
/-- The lexemes of a tree put together, without the blanks between them. -/
def text : Tree → String
  | leaf _ _ _ s => s
  | node _ _ _ cs => textAll cs

/-- The lexemes of several trees put together. -/
def textAll : List Tree → String
  | [] => ""
  | t :: ts => t.text ++ textAll ts
end

/-! ## Visiting order -/

mutual
/-- A tree and all named nodes below it: a node first, then its children's nodes from left to right. -/
def preorder : Tree → List Tree
  | leaf k r e s => [leaf k r e s]
  | node k r e cs => node k r e cs :: preorderNamed cs

/-- The named nodes of several trees, from left to right. -/
def preorderNamed : List Tree → List Tree
  | [] => []
  | t :: ts => if t.isNamed then t.preorder ++ preorderNamed ts else preorderNamed ts
end

mutual
/-- As `preorder`, each node beside the offset where a declaration made by it goes out of scope: the
    end of the closest enclosing node that closes scopes. `outer` is that offset for the tree itself. -/
def preorderScoped (outer : Nat) : Tree → List (Tree × Nat)
  | leaf k r e s => [(leaf k r e s, outer)]
  | node k r e cs =>
      (node k r e cs, outer) ::
        preorderScopedNamed (if k.closesScope then e.stop.byte else outer) cs

/-- The named nodes of several trees with the ends of their scopes. -/
def preorderScopedNamed (outer : Nat) : List Tree → List (Tree × Nat)
  | [] => []
  | t :: ts =>
      if t.isNamed then t.preorderScoped outer ++ preorderScopedNamed outer ts
      else preorderScopedNamed outer ts
end

end Tree
end GoExcerpt
