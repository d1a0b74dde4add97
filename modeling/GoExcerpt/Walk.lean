import GoExcerpt.Collected
import GoExcerpt.Index
import GoExcerpt.Excerpt

/-!
# `Walk` — following calls from an entry function

The walk goes depth first from the entry along calls to functions of the index, no function twice, and no
further than a budget of hops allows. Each function's text is added to its package as it is reached; with
`excludeRoot` the entry only claims the first slot.
-/

namespace GoExcerpt

/-- What a walk has done so far. -/
structure WalkState where
  /-- identities reached, in order -/
  visited : List Symbol := []
  collected : Collected := []
deriving DecidableEq, Repr, Inhabited

/-- What a walk works with. -/
structure Walk where
  files : FileSystem
  index : Index
  excludeRoot : Bool

namespace Walk

/-- Adds the text of a function that is reached, or only its package for an excluded entry. -/
def collect (w : Walk) (isEntry : Bool) (e : Indexed) (c : Collected) : Except Fault Collected :=
  if isEntry && w.excludeRoot then .ok (c.mention e.package)
  else do
    let source ← e.declaration.excerpt w.files e.unitPath
    .ok (c.add e.package source)

/-- Visits a function with a budget of hops left. -/
def visit (w : Walk) (isEntry : Bool) (budget : Nat) (key : Symbol) (s : WalkState) :
    Except Fault WalkState :=
  if s.visited.contains key then .ok s
  else
    match w.index.get? key with
    | none => .ok s
    | some e => do
        let collected ← w.collect isEntry e s.collected
        let reached : WalkState := ⟨s.visited ++ [key], collected⟩
        match budget with
        | 0 => .ok reached
        | rest + 1 => e.targets.foldlM (fun s target => w.visit false rest target s) reached

/-- Walks from an entry function and gives what was collected. -/
def run (w : Walk) (entry : Symbol) (budget : Nat) : Except Fault Collected := do
  let s ← w.visit true budget entry.canonical {}
  .ok s.collected

end Walk
end GoExcerpt
