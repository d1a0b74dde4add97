/-!
# `CommandLine.Arguments` — what the words of a command line mean

Words are read from left to right. The value of an option may be attached to it or be the next word, and
is then checked when the next word turns out to be something known; so of a bad value and an unknown word
after it the unknown word is reported.
-/

namespace GoExcerpt.CommandLine

/-- Why a command line is not carried out. -/
inductive UsageFault where
  | unknownArgument
  | invalidSubcommand
  | missingSubcommand
  | missingArgument
  /-- a value is missing or empty -/
  | invalidValue
  /-- a value does not have the form it must have -/
  | valueValidation
  /-- an option is given twice -/
  | conflict
  /-- a value for an option that takes none -/
  | tooManyValues
  | help
  | version
  /-- nothing was asked for -/
  | helpForNothing
deriving DecidableEq, Repr, Inhabited

/-- Asking for help or the version is no failure. -/
def UsageFault.exitCode : UsageFault → Nat
  | .help | .version => 0
  | _ => 2

/-- All options of the program. -/
inductive Opt where
  | config | verbose | help | version
  | dir | package | excludeRoot | codeOnly | depth | output | json | force
deriving DecidableEq, Repr

/-- What an option takes. -/
inductive Takes where
  | nothing | path | text | number
deriving DecidableEq, Repr

namespace Opt

def long : Opt → String
  | config => "config"
  | verbose => "verbose"
  | help => "help"
  | version => "version"
  | dir => "dir"
  | package => "package"
  | excludeRoot => "exclude-root"
  | codeOnly => "code-only"
  | depth => "depth"
  | output => "output"
  | json => "json"
  | force => "force"

def short? : Opt → Option Char
  | config => some 'c'
  | verbose => some 'v'
  | help => some 'h'
  | version => some 'V'
  | dir => some 'd'
  | package => some 'p'
  | output => some 'o'
  | _ => none

def takes : Opt → Takes
  | config | dir | output => .path
  | package => .text
  | depth => .number
  | _ => .nothing

end Opt

/-- A command: the options it knows, whether it takes a plain word, and the commands below it. -/
structure Level where
  options : List Opt
  takesWord : Bool
  commands : List String

/-! ## Values -/

/-- The largest number an option may have. -/
def maxNumber : Nat := Nat.pow 2 64 - 1

/-- A number in decimal digits, perhaps with a plus sign. -/
def number? (text : String) : Option Nat :=
  let digits := match text.toList with
    | '+' :: rest => rest
    | cs => cs
  if digits.isEmpty || !digits.all Char.isDigit then none
  else
    let n := digits.foldl (fun n c => n * 10 + (c.toNat - 48)) 0
    if n ≤ maxNumber then some n else none

/-- Whether a value will do. -/
def checkValue (takes : Takes) (value : String) : Except UsageFault Unit :=
  match takes with
  | .path => if value.isEmpty then .error .invalidValue else .ok ()
  | .number => if (number? value).isNone then .error .valueValidation else .ok ()
  | _ => .ok ()

/-! ## Reading words -/

/-- What has been read. -/
structure Given where
  /-- options with their values; flags have an empty one -/
  options : List (Opt × String) := []
  /-- plain words -/
  words : List String := []
  /-- an option read last, with its value if that has come already -/
  pending : Option (Opt × Option String) := none
  /-- whether all that follows are plain words -/
  escaped : Bool := false
deriving Repr, Inhabited

namespace Given

def value? (g : Given) (o : Opt) : Option String := g.options.lookup o

def has (g : Given) (o : Opt) : Bool := (g.value? o).isSome

/-- Records an option that must not be there yet. -/
def record (g : Given) (o : Opt) (value : String) : Except UsageFault Given :=
  if g.has o then .error .conflict
  else
    match checkValue o.takes value with
    | .ok () => .ok { g with options := g.options ++ [(o, value)] }
    | .error e => .error e

/-- Completes the pending option. -/
def settle (g : Given) : Except UsageFault Given :=
  match g.pending with
  | none => .ok g
  | some (_, none) => .error .invalidValue
  | some (o, some value) => { g with pending := none }.record o value

/-- Whether the next word is taken as a value. -/
def awaitsValue (g : Given) : Bool :=
  match g.pending with
  | some (_, none) => true
  | _ => false

/-- An option without a value attached to it. -/
def bare (g : Given) (o : Opt) : Except UsageFault Given := do
  let g ← g.settle
  if o.takes = .nothing then
    if o = .help then .error .help
    else if o = .version then .error .version
    else g.record o ""
  else .ok { g with pending := some (o, none) }

/-- An option with a value attached to it. -/
def attached (g : Given) (o : Opt) (value : String) : Except UsageFault Given := do
  let g ← g.settle
  g.record o value

/-- A word such as `--name` or `--name=value`, without its hyphens. -/
def longWord (g : Given) (level : Level) (word : List Char) : Except UsageFault Given :=
  let name := String.ofList (word.takeWhile (· != '='))
  match level.options.find? (·.long == name) with
  | none => .error .unknownArgument
  | some o =>
      match word.dropWhile (· != '=') with
      | [] => g.bare o
      | _ :: value =>
          if o.takes = .nothing then .error .tooManyValues else g.attached o (String.ofList value)

/-- A word such as `-vd` or `-dvalue`, without its hyphen. -/
def shortWord (g : Given) (level : Level) : List Char → Except UsageFault Given
  | [] => .ok g
  | c :: rest =>
      match level.options.find? (·.short? == some c) with
      | none => .error .unknownArgument
      | some o =>
          if o.takes = .nothing then
            match g.bare o with
            | .ok g => shortWord g level rest
            | .error e => .error e
          else
            match rest with
            | [] => g.bare o
            | '=' :: value => g.attached o (String.ofList value)
            | value => g.attached o (String.ofList value)

/-- A word that has no place. -/
def misplaced (g : Given) (level : Level) (word : String) : UsageFault :=
  if level.commands.isEmpty || (g.escaped && level.commands.contains word) then .unknownArgument
  else .invalidSubcommand

/-- A plain word. -/
def plainWord (g : Given) (level : Level) (word : String) : Except UsageFault Given :=
  if level.takesWord && g.words.isEmpty then do
    let g ← g.settle
    .ok { g with words := [word] }
  else .error (g.misplaced level word)

/-- A word that names no command. -/
def word (g : Given) (level : Level) (w : String) : Except UsageFault Given :=
  if g.escaped then g.plainWord level w
  else
    match w.toList with
    | ['-', '-'] => .ok { g with escaped := true }
    | '-' :: '-' :: rest => g.longWord level rest
    | '-' :: c :: rest => g.shortWord level (c :: rest)
    | _ =>
        match g.pending with
        | some (o, none) => .ok { g with pending := some (o, some w) }
        | _ => g.plainWord level w

/-- Reads words up to a command; gives it with the words after it. -/
def read (level : Level) (g : Given) : List String →
    Except UsageFault (Given × Option (String × List String))
  | [] => do .ok (← g.settle, none)
  | w :: ws =>
      if !g.escaped && !g.awaitsValue && level.commands.contains w then do
        .ok (← g.settle, some (w, ws))
      else
        match g.word level w with
        | .ok g => read level g ws
        | .error e => .error e

end Given

/-! ## Commands -/

/-- What the program is asked to do. -/
inductive Command where
  | extract (function dir : String) (package : Option String) (excludeRoot codeOnly : Bool)
      (depth : Option Nat) (output : Option String)
  | list (dir : String) (package : Option String) (json : Bool)
  | init (dir : String) (force : Bool)
deriving DecidableEq, Repr, Inhabited

/-- A command with the settings file to use. -/
structure Invocation where
  config : Option String
  command : Command
deriving DecidableEq, Repr, Inhabited

/-- Options that every command knows. -/
def globalOptions : List Opt := [.config, .verbose, .help]

def topLevel : Level where
  options := globalOptions ++ [.version]
  takesWord := false
  commands := ["extract", "list", "init", "help"]

/-- The options and words of a command. -/
def levelOf (command : String) : Level :=
  match command with
  | "extract" =>
      ⟨globalOptions ++ [.dir, .package, .excludeRoot, .codeOnly, .depth, .output], true, []⟩
  | "list" => ⟨globalOptions ++ [.dir, .package, .json], false, []⟩
  | _ => ⟨globalOptions ++ [.dir, .force], false, []⟩

/-- The words after `help` name a command, if anything. -/
def helpOn (words : List String) : UsageFault :=
  match words with
  | [] => .help
  | [w] => if topLevel.commands.contains w then .help else .invalidSubcommand
  | _ => .invalidSubcommand

/-- The command that options and words describe. -/
def commandOf (name : String) (g : Given) : Except UsageFault Command :=
  let dir := (g.value? .dir).getD "."
  let package := g.value? .package
  match name with
  | "extract" =>
      match g.words with
      | function :: _ =>
          .ok (.extract function dir package (g.has .excludeRoot) (g.has .codeOnly)
            ((g.value? .depth).bind number?) (g.value? .output))
      | [] => .error .missingArgument
  | "list" => .ok (.list dir package (g.has .json))
  | _ => .ok (.init dir (g.has .force))

/-- What a command line asks for. A settings file named after the command wins over one before it. -/
def parse (words : List String) : Except UsageFault Invocation := do
  let (top, found) ← Given.read topLevel {} words
  match found with
  | none => if top.options.isEmpty then .error .helpForNothing else .error .missingSubcommand
  | some (name, rest) =>
      if name = "help" then .error (helpOn rest)
      else
        let (given, _) ← Given.read (levelOf name) {} rest
        let command ← commandOf name given
        .ok ⟨(given.value? .config).or (top.value? .config), command⟩

end GoExcerpt.CommandLine
