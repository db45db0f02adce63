/-!
# Options in a line of words

An option is written `--name value` or `--name=value`, and one that has a short form also
`-n value`, `-n=value` or `-nvalue`. A value that begins with a hyphen, unless it is nothing else,
can only be given with an equals sign. `collect` reads options up to the first word that is none.
Two hyphens end the options, and nothing may stand behind them.
-/

namespace LogicDecode

/-- The names of an option. -/
structure OptionSpec where
  name : String
  short : Option Char
  /-- Whether it may be given more than once. -/
  repeatable : Bool
deriving Repr

/-- A given option, by its name. -/
structure Given where
  name : String
  value : String
deriving Repr, DecidableEq

/-- Why words are no proper command line. -/
inductive UsageError where
  | unknown (word : String)
  | missingValue (name : String)
  | repeated (name : String)
  | missing (name : String)
  | invalid (name value : String)
  | noCommand
deriving Repr, DecidableEq

/-- What a word is: an option with or without a value in the same word, the end of the options, or
anything else. -/
inductive Word where
  | option (spec : OptionSpec) (value : Option String)
  | endOfOptions
  | unknownOption
  | plain

namespace Word

/-- The parts of an option word in front of and behind the first equals sign. -/
def atEquals (cs : List Char) : List Char × Option String :=
  let name := cs.takeWhile (· ≠ '=')
  match cs.drop name.length with
  | _ :: value => (name, some (String.ofList value))
  | [] => (name, none)

def ofText (specs : List OptionSpec) (word : String) : Word :=
  match word.toList with
  | ['-', '-'] => endOfOptions
  | '-' :: '-' :: cs =>
    let (name, value) := atEquals cs
    match specs.find? fun s => s.name = String.ofList name with
    | some s => option s value
    | none => unknownOption
  | '-' :: c :: cs =>
    match specs.find? fun s => s.short = some c with
    | some s => option s (match cs with
      | [] => none
      | '=' :: value => some (String.ofList value)
      | _ => some (String.ofList cs))
    | none => unknownOption
  | _ => plain

/-- Whether a word may be the value of the option in front of it. -/
def isValue (word : String) : Bool :=
  match word.toList with
  | '-' :: _ :: _ => false
  | _ => true

end Word

/-- Reads options up to the first word that is none, and returns the rest from there. -/
def collect (specs : List OptionSpec) : List String → Except UsageError (List Given × List String)
  | [] => .ok ([], [])
  | word :: rest =>
    match Word.ofText specs word with
    | .plain => .ok ([], word :: rest)
    | .endOfOptions =>
      match rest with
      | [] => .ok ([], [])
      | word :: _ => .error (.unknown word)
    | .unknownOption => .error (.unknown word)
    | .option s (some value) => do
      let (given, rest) ← collect specs rest
      return (⟨s.name, value⟩ :: given, rest)
    | .option s none =>
      match rest with
      | [] => .error (.missingValue s.name)
      | value :: rest =>
        if Word.isValue value then do
          let (given, rest) ← collect specs rest
          return (⟨s.name, value⟩ :: given, rest)
        else .error (.missingValue s.name)

/-- The values of an option, in order. -/
def valuesOf (given : List Given) (name : String) : List String :=
  (given.filter fun g => g.name = name).map (·.value)

def checkRepeated (specs : List OptionSpec) (given : List Given) : Except UsageError Unit :=
  match specs.find? fun s => !s.repeatable && 1 < (valuesOf given s.name).length with
  | some s => .error (.repeated s.name)
  | none => .ok ()

end LogicDecode
