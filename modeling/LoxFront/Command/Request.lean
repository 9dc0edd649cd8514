/-!
# Requests

What the arguments of the command line ask for. They are read from left to
right, and the first argument that is a flag, is empty, or is one too many
decides; if there is none, a session is asked for, on a script if one is
named. The mark `--` ends the flags once: behind it every argument is a
name.
-/

namespace LoxFront

/-- What the command line is asked to do. -/
inductive Request where
  /-- Show the help. -/
  | help
  /-- The arguments make no sense: show the usage. -/
  | usage
  /-- Run the script at this path. -/
  | script (path : String)
  /-- Prompt for lines. -/
  | prompt
  deriving DecidableEq

namespace Request

/-- The argument behind which there are no flags. -/
def endOfFlags : String := "--"

/-- Whether an argument is a flag where flags are read: it starts with a
hyphen and is neither a lone one nor the end of the flags. -/
def isFlag (argument : String) : Bool :=
  ['-'].isPrefixOf argument.toList && argument != "-" && argument != endOfFlags

/-- What a flag asks for. A cluster of short flags is help if its first
letter is. -/
def ofFlag (flag : String) : Request :=
  if flag == "--help" || ['-', 'h'].isPrefixOf flag.toList then help else usage

/-- The session that is asked for when all arguments are read. -/
def ofScript : Option String → Request
  | none => prompt
  | some path => script path

/-- Reads arguments on: `flags` says whether flags are still read, and
`named` is the script that was named before, if any. -/
def read (flags : Bool) (named : Option String) : List String → Request
  | [] => ofScript named
  | argument :: rest =>
    if flags && argument == endOfFlags then read false named rest
    else if flags && isFlag argument then ofFlag argument
    else if argument.isEmpty || named.isSome then usage
    else read flags (some argument) rest

/-- **What the arguments ask for.** -/
def ofArguments (arguments : List String) : Request := read true none arguments

end Request

end LoxFront
