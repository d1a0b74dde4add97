/-!
# `Toml.Value` — values of a TOML document, and how tables grow

Tables remember how they came about, because that decides what may still be added to them: a table named
only on the way to another may be opened by a header later, one made by dotted keys may grow by dotted
keys only, and an inline table is closed.
-/

namespace GoExcerpt.Toml

/-- How a table came about. -/
inductive Origin where
  /-- named on the way to the table of a header -/
  | passing
  /-- named on the way to a dotted key -/
  | dotted
  /-- opened by a header of its own -/
  | header
  /-- written between braces -/
  | inline
deriving DecidableEq, Repr, Inhabited

/-- A value. Floats and dates are recognised but not kept. -/
inductive Value where
  | string (text : String)
  | integer (value : Int)
  | float
  | boolean (value : Bool)
  | datetime
  | array (items : List Value)
  | table (origin : Origin) (entries : List (String × Value))
  /-- the tables of a repeated header -/
  | tables (elements : List Value)
deriving Inhabited

namespace Value

/-- Entries with the one called `key` replaced. -/
def replace (key : String) (new : Value) : List (String × Value) → List (String × Value)
  | [] => []
  | (k, v) :: rest => if k = key then (k, new) :: rest else (k, v) :: replace key new rest

/-- Whether dotted keys may go through a table of this origin. -/
def Origin.isOpen : Origin → Bool
  | .passing | .dotted => true
  | .header | .inline => false

/-- Changes the table at the end of a chain of keys, making tables on the way as needed. `byDots` says
    that the chain comes from a dotted key rather than a header. Of repeated tables the last is meant. -/
def modify (byDots : Bool) (change : Value → Option Value) : List String → Value → Option Value
  | [], t => change t
  | key :: keys, .table origin entries =>
      match entries.lookup key with
      | none => do
          let fresh := .table (if byDots then .dotted else .passing) []
          let new ← modify byDots change keys fresh
          some (.table origin (entries ++ [(key, new)]))
      | some (.table o inner) =>
          if o = .inline || (byDots && !Origin.isOpen o) then none
          else do
            let new ← modify byDots change keys (.table o inner)
            some (.table origin (replace key new entries))
      | some (.tables elements) => do
          let new ← modify byDots change keys (← elements.getLast?)
          some (.table origin (replace key (.tables (elements.dropLast ++ [new])) entries))
      | some _ => none
  | _ :: _, _ => none

/-- Adds a key that must be new. A dotted key must end in a table made by dotted keys. -/
def addKey (viaDots : Bool) (key : String) (value : Value) : Value → Option Value
  | .table origin entries =>
      if (viaDots && origin != .dotted) || (entries.lookup key).isSome then none
      else some (.table origin (entries ++ [(key, value)]))
  | _ => none

/-- Adds a key given by its path below a table. -/
def insert (t : Value) (path : List String) (value : Value) : Option Value :=
  match path.getLast? with
  | none => none
  | some key => modify true (addKey (path.length > 1) key value) path.dropLast t

/-- Opens the table of a header below its parent. -/
def openTable (key : String) : Value → Option Value
  | .table origin entries =>
      match entries.lookup key with
      | none => some (.table origin (entries ++ [(key, .table .header [])]))
      | some (.table .passing inner) =>
          some (.table origin (replace key (.table .header inner) entries))
      | some _ => none
  | _ => none

/-- Opens one more table of a repeated header below its parent. -/
def openElement (key : String) : Value → Option Value
  | .table origin entries =>
      match entries.lookup key with
      | none => some (.table origin (entries ++ [(key, .tables [.table .header []])]))
      | some (.tables elements) =>
          some (.table origin (replace key (.tables (elements ++ [.table .header []])) entries))
      | some _ => none
  | _ => none

/-- The value of a key in a table. -/
def get? (key : String) : Value → Option Value
  | .table _ entries => entries.lookup key
  | _ => none

end Value
end GoExcerpt.Toml
