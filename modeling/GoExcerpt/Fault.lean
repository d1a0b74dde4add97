/-!
# `Fault` — everything that can go wrong, and how it is reported

A fault says what happened; `Fault.message` is the only place that words it. Faults that pass on what the
operating system said keep that as their cause, and `Fault.trail` lists a fault's message with its
causes.
-/

namespace GoExcerpt

/-- What the operating system says about a path. -/
inductive OsFault where
  | notFound
  | notDirectory
  | isDirectory
  | nameTooLong
  | notUtf8
deriving DecidableEq, Repr, Inhabited

def OsFault.message : OsFault → String
  | .notFound => "No such file or directory (os error 2)"
  | .notDirectory => "Not a directory (os error 20)"
  | .isDirectory => "Is a directory (os error 21)"
  | .nameTooLong => "File name too long (os error 36)"
  | .notUtf8 => "stream did not contain valid UTF-8"

/-- Why an ignore pattern is no pattern. -/
inductive PatternFault where
  | unclosedClass
  | unclosedAlternates
  | unopenedAlternates
  | invalidRange (low high : Char)
  | danglingEscape
deriving DecidableEq, Repr, Inhabited

def PatternFault.message : PatternFault → String
  | .unclosedClass => "unclosed character class; missing ']'"
  | .unclosedAlternates =>
      "unclosed alternate group; missing '\x7d' (maybe escape '\x7b' with '[\x7b]'?)"
  | .unopenedAlternates =>
      "unopened alternate group; missing '\x7b' (maybe escape '\x7d' with '[\x7d]'?)"
  | .invalidRange low high =>
      "invalid range; '" ++ String.ofList [low] ++ "' > '" ++ String.ofList [high] ++ "'"
  | .danglingEscape => "dangling '\\'"

/-- What is wrong with a configuration. -/
inductive ConfigFault where
  /-- the text is no configuration -/
  | malformed
  /-- a number is too large to be written -/
  | unwritable
  | zeroFileSize
  /-- `line` is the pattern as it was read, without blanks at its end -/
  | badPattern (pattern line : String) (reason : PatternFault)
deriving DecidableEq, Repr, Inhabited

def ConfigFault.message : ConfigFault → String
  | .malformed => "malformed configuration"
  | .unwritable => "number out of range"
  | .zeroFileSize => "loading.max_file_size must be greater than zero"
  | .badPattern pattern line reason =>
      "bad ignore pattern " ++ pattern ++ ": error parsing glob '" ++ line ++ "': " ++ reason.message

/-- Why a module's packages cannot be loaded. -/
inductive LoadFault where
  | unreadable (path : String) (cause : OsFault)
  | conflictingNames (first second dir : String)
  | noPackages (root : String)
deriving DecidableEq, Repr, Inhabited

def LoadFault.message : LoadFault → String
  | .unreadable path cause => path ++ ": " ++ cause.message
  | .conflictingNames first second dir =>
      "found packages " ++ first ++ " and " ++ second ++ " in " ++ dir
  | .noPackages root => "no packages found in " ++ root

/-- Why the lines of a function cannot be read. -/
inductive ExcerptFault where
  | unreadable (cause : OsFault)
  | outside (start stop count : Nat)
deriving DecidableEq, Repr, Inhabited

def ExcerptFault.message : ExcerptFault → String
  | .unreadable cause => cause.message
  | .outside start stop count =>
      "lines " ++ toString start ++ "-" ++ toString stop ++ " outside a file of " ++ toString count
        ++ " lines"

/-- Any failure of the program. -/
inductive Fault where
  | manifestUnreadable (path : String) (cause : OsFault)
  | noModuleDirective (path : String)
  | load (reason : LoadFault)
  | entryNotFound (name package : String)
  | source (path : String) (reason : ExcerptFault)
  | workdir (path : String) (cause : OsFault)
  | config (reason : ConfigFault)
  | os (cause : OsFault)
deriving DecidableEq, Repr, Inhabited

namespace Fault

def message : Fault → String
  | manifestUnreadable path cause =>
      "Cannot read module manifest " ++ path ++ ": " ++ cause.message
  | noModuleDirective path => "Invalid module manifest " ++ path ++ ": no module directive"
  | load reason => "Package load failed: " ++ reason.message
  | entryNotFound name package => "Function " ++ name ++ " not found in package " ++ package
  | source path reason => "Cannot read source of " ++ path ++ ": " ++ reason.message
  | workdir path cause =>
      "Working directory change to " ++ path ++ " failed: " ++ cause.message
  | config reason => "Configuration error: " ++ reason.message
  | os cause => "IO error: " ++ cause.message

/-- What the fault passes on from the operating system. -/
def cause? : Fault → Option OsFault
  | manifestUnreadable _ cause | workdir _ cause | os cause => some cause
  | _ => none

/-- The message followed by the message of the cause. -/
def trail (f : Fault) : String :=
  match f.cause? with
  | some cause => f.message ++ ": " ++ cause.message
  | none => f.message

end Fault
end GoExcerpt
