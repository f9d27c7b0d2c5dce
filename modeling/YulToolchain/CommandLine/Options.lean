/-!
# Command Line Options

Which options there are and how arguments are read.

An argument is an option if it starts with a dash and is longer than that. An
option has a long name after two dashes, and most have a short one after a
single dash; a long name of one letter stands for the short one. The value of an
option is what follows an equals sign after the long name, or the rest of the
argument after the short name, or else the next argument. Options without a
value can be bundled in one argument. What is no option is free, and so is
everything after `--`.

## Main definitions

* `OptionKey`, `OptionSpec`: The options.
* `Arguments`: The options and free arguments of a command line.
* `readArguments`: Reads arguments.
* `usageText`: The description of the options.
-/

namespace YulToolchain

namespace CommandLine

/-- The options by what they are for. -/
inductive OptionKey where
  | verbose | help | steps | mode
deriving DecidableEq, Repr

/-- How an option is written. -/
structure OptionSpec where
  /-- What it is for. -/
  key : OptionKey
  /-- Its short name. -/
  short : Option Char
  /-- Its long name. -/
  long : String
  /-- What its value is called, if it takes one. -/
  value : Option String
  /-- The lines of its description. -/
  description : List String
deriving DecidableEq, Repr

/-- The options in the order in which they are described. -/
def optionSpecs : List OptionSpec :=
  [⟨.verbose, some 'v', "verbose", some "LEVEL", ["enable verbose output"]⟩,
    ⟨.help, some 'h', "help", none, ["print this help menu"]⟩,
    ⟨.steps, some 'O', "steps", some "STEPS",
      ["comma separated optimiser steps (default sequence if", "omitted)"]⟩,
    ⟨.mode, none, "mode", some "MODE",
      ["print, optimize, assemble, check or run (default", "optimize)"]⟩]

/-- Why arguments can not be read. Options are named as they were written,
    except for one that is repeated, which goes by its long name. -/
inductive OptionFault where
  /-- There is no such option. -/
  | unrecognized (name : String)
  /-- The option needs a value. -/
  | valueMissing (name : String)
  /-- The option takes no value. -/
  | unexpectedValue (name : String)
  /-- The option may be given only once. -/
  | repeated (name : String)
deriving DecidableEq, Repr

/-- The wording of a fault. -/
def OptionFault.message : OptionFault → String
  | unrecognized name => "Unrecognized option: '" ++ name ++ "'"
  | valueMissing name => "Argument to option '" ++ name ++ "' missing"
  | unexpectedValue name => "Option '" ++ name ++ "' does not take an argument"
  | repeated name => "Option '" ++ name ++ "' given more than once"

/-- The option with a short name. -/
def shortOption? (c : Char) : Option OptionSpec :=
  optionSpecs.find? (·.short == some c)

/-- The option with a name after two dashes. -/
def longOption? (name : List Char) : Option OptionSpec :=
  match name with
  | [c] => shortOption? c
  | cs => optionSpecs.find? (·.long == String.ofList cs)

/-- What one argument says. -/
structure Parsed where
  /-- The options without a value. -/
  flags : List OptionKey
  /-- The option with a value, as it is named, and its value, unless that is
      the next argument. -/
  valued : Option (OptionKey × String × Option String)
deriving Repr

/-- Reads an argument after two dashes. -/
def readLong (cs : List Char) : Except OptionFault Parsed :=
  let name := cs.takeWhile (· ≠ '=')
  let value : Option String := match cs.dropWhile (· ≠ '=') with
    | [] => none
    | _ :: rest => some (String.ofList rest)
  match longOption? name with
  | none => .error (.unrecognized (String.ofList name))
  | some spec =>
    if spec.value.isSome then .ok ⟨[], some (spec.key, String.ofList name, value)⟩
    else if value.isSome then .error (.unexpectedValue (String.ofList name))
    else .ok ⟨[spec.key], none⟩

/-- Reads an argument after a single dash. -/
def readShort : List Char → Except OptionFault Parsed
  | [] => .ok ⟨[], none⟩
  | c :: rest => match shortOption? c with
    | none => .error (.unrecognized (String.singleton c))
    | some spec =>
      if spec.value.isSome then
        let value := if rest.isEmpty then none else some (String.ofList rest)
        .ok ⟨[], some (spec.key, String.singleton c, value)⟩
      else do
        let parsed ← readShort rest
        return { parsed with flags := spec.key :: parsed.flags }

/-- The options and free arguments of a command line. -/
structure Arguments where
  /-- The options with their values, in order. -/
  options : List (OptionKey × Option String)
  /-- The free arguments, in order. -/
  free : List String
deriving DecidableEq, Repr

namespace Arguments

/-- Puts options in front. -/
def addOptions (options : List (OptionKey × Option String)) (a : Arguments) : Arguments :=
  { a with options := options ++ a.options }

/-- How often an option is given. -/
def count (a : Arguments) (key : OptionKey) : Nat := a.options.countP (·.1 == key)

/-- Whether an option is given. -/
def given (a : Arguments) (key : OptionKey) : Bool := a.options.any (·.1 == key)

/-- The value of an option. -/
def value? (a : Arguments) (key : OptionKey) : Option String := (a.options.lookup key).join

end Arguments

/-- Reads the arguments one by one. -/
def scanArguments : List String → Except OptionFault Arguments
  | [] => .ok ⟨[], []⟩
  | arg :: rest => match arg.toList with
    | ['-', '-'] => .ok ⟨[], rest⟩
    | '-' :: c :: cs => do
      let ⟨flags, valued⟩ ← if c = '-' then readLong cs else readShort (c :: cs)
      let flags := flags.map fun key => (key, none)
      match valued, rest with
      | none, rest => return (← scanArguments rest).addOptions flags
      | some (key, _, some value), rest =>
        return (← scanArguments rest).addOptions (flags ++ [(key, some value)])
      | some (key, _, none), value :: rest =>
        return (← scanArguments rest).addOptions (flags ++ [(key, some value)])
      | some (_, name, none), [] => throw (.valueMissing name)
    | _ => do
      let a ← scanArguments rest
      return { a with free := arg :: a.free }

/-- Reads arguments. No option may be given more than once. -/
def readArguments (args : List String) : Except OptionFault Arguments := do
  let a ← scanArguments args
  match optionSpecs.find? (fun spec => 1 < a.count spec.key) with
  | some spec => throw (.repeated spec.long)
  | none => return a

/-- The column at which the descriptions of the options start. -/
def descriptionColumn : Nat := 24

/-- The name of an option with that of its value. -/
def OptionSpec.head (spec : OptionSpec) : String :=
  (match spec.short with
    | some c => "    -" ++ String.singleton c ++ ", "
    | none => "        ")
    ++ "--" ++ spec.long ++ (match spec.value with
      | some name => " " ++ name
      | none => "")

/-- The description of an option, with a line feed after each line. -/
def OptionSpec.usage (spec : OptionSpec) : String :=
  let head := spec.head
  let margin (used : Nat) := String.ofList (List.replicate (descriptionColumn - used) ' ')
  match spec.description with
  | [] => head ++ "\n"
  | first :: more =>
    head ++ margin head.length ++ first ++ "\n"
      ++ String.join (more.map fun line => margin 0 ++ line ++ "\n")

/-- How an option is written, in brackets. -/
def OptionSpec.brief (spec : OptionSpec) : String :=
  "[" ++ (match spec.short with
    | some c => "-" ++ String.singleton c
    | none => "--" ++ spec.long)
    ++ (match spec.value with
      | some name => " " ++ name
      | none => "") ++ "]"

/-- The description of a program and its options. -/
def usageText (program : String) : String :=
  "Usage: " ++ program ++ " path " ++ " ".intercalate (optionSpecs.map OptionSpec.brief)
    ++ "\n\nOptions:\n" ++ String.join (optionSpecs.map OptionSpec.usage)

end CommandLine

end YulToolchain
