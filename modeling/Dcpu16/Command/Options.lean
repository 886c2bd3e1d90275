import Dcpu16.Log

/-!
# Options of the command

The command takes one input file and options in any order. Short options may be joined behind one
hyphen, the value of `-o` may follow in the same argument or in the next one, and behind `--` every
argument is an input file. `-v` may be repeated and no other option may.
-/

namespace Dcpu16.Command

structure Options where
  /-- The source file. -/
  input : String
  /-- The file to write to, if it is not derived from the source file. -/
  output? : Option String := none
  /-- How often more messages were asked for. -/
  verbosity : Nat := 0
  /-- Whether to print a listing. -/
  listing : Bool := false
  /-- Whether to print a hex dump. -/
  hexDump : Bool := false
  deriving DecidableEq

/-- The least important level of messages that are printed. -/
def Options.level (options : Options) : Level :=
  match options.verbosity with
  | 0 => .error
  | 1 => .warn
  | 2 => .info
  | _ => .debug

/-- Why there is nothing to assemble. -/
inductive Stop
  /-- The arguments make no sense. -/
  | usage
  /-- Only the version is wanted. -/
  | version
  /-- Only help is wanted. -/
  | help
  deriving DecidableEq

/-- What has been found among the arguments so far. -/
structure Found where
  input? : Option String := none
  output? : Option String := none
  /-- How many `-o` there were. -/
  outputs : Nat := 0
  verbosity : Nat := 0
  listings : Nat := 0
  hexDumps : Nat := 0
  /-- Whether the last argument was a `-o` that has no value yet. -/
  pending : Bool := false

namespace Found

def addInput (found : Found) (input : String) : Except Stop Found :=
  if found.input?.isSome then .error .usage
  else .ok { found with input? := some input }

/-- Adds a `-o` with its value. -/
def addOutput (found : Found) (output : List Char) : Found :=
  { found with output? := some (String.ofList output), outputs := found.outputs + 1 }

/-- Adds an option that is written as a word, of which a value is ignored. -/
def addLong (found : Found) (argument : List Char) : Except Stop Found :=
  match String.ofList ((argument.dropWhile (· == '-')).takeWhile (· != '=')) with
  | "listing" | "show" | "s" => .ok { found with listings := found.listings + 1 }
  | "hexdump" => .ok { found with hexDumps := found.hexDumps + 1 }
  | "version" => .error .version
  | "help" => .error .help
  | _ => .error .usage

/-- Adds options that are written as letters. -/
def addShort (found : Found) : List Char → Except Stop Found
  | [] => .ok found
  | 'v' :: rest => addShort { found with verbosity := found.verbosity + 1 } rest
  | 'd' :: rest => addShort { found with listings := found.listings + 1 } rest
  | 'x' :: rest => addShort { found with hexDumps := found.hexDumps + 1 } rest
  | ['o'] => .ok { found with outputs := found.outputs + 1, pending := true }
  | 'o' :: rest => .ok (found.addOutput (rest.dropWhile (· == '=')))
  | 'V' :: _ => .error .version
  | 'h' :: _ => .error .help
  | _ :: _ => .error .usage

def addAll (found : Found) : List String → Except Stop Found
  | [] => .ok found
  | argument :: rest =>
    match argument.toList with
    | ['-', '-'] => rest.foldlM addInput found
    | '-' :: '-' :: long => do
      let found ← addLong { found with pending := false } long
      found.addAll rest
    | '-' :: c :: short => do
      let found ← addShort { found with pending := false } (c :: short)
      found.addAll rest
    | _ =>
      if found.pending then
        addAll { found with output? := some argument, pending := false } rest
      else do
        let found ← found.addInput argument
        found.addAll rest

/-- The options that have been found, if they go together. -/
def options (found : Found) : Except Stop Options :=
  match found.input? with
  | none => .error .usage
  | some input =>
    if found.listings ≤ 1 ∧ found.hexDumps ≤ 1 ∧ found.outputs ≤ 1
        ∧ (found.outputs = 1 → found.output?.isSome) then
      .ok {
        input
        output? := found.output?
        verbosity := found.verbosity
        listing := found.listings == 1
        hexDump := found.hexDumps == 1 }
    else .error .usage

end Found

def Options.ofArguments (arguments : List String) : Except Stop Options := do
  let found ← Found.addAll {} arguments
  found.options

end Dcpu16.Command
