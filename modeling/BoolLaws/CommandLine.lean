import BoolLaws.CommandLine.Basic

/-!
# Reading the arguments

The reader with which the program is run. What is proved about the command line holds for every reader.

The arguments are one expression, flags, and limits for the reduction. A limit is given in the next
argument or after an equals sign. Each flag and each limit may stand once, and after `--` nothing is
an option.
-/

namespace BoolLaws.CommandLine

/-- The options without a value. -/
inductive Flag where
  /-- Print the truth table. -/
  | table
  /-- Print the canonical form. -/
  | canonical
  /-- Print the reduced form. -/
  | reduce
  /-- Log more, which is not asked for here. -/
  | verbose
  deriving DecidableEq

/-- The flag of a long option. -/
def Flag.ofName? : String → Option Flag
  | "table" => some .table
  | "canonical" => some .canonical
  | "reduce" => some .reduce
  | "verbose" => some .verbose
  | _ => none

/-- The flag of a letter. -/
def Flag.ofLetter? : Char → Option Flag
  | 'v' => some .verbose
  | _ => none

/-- What the option for a limit limits. -/
def limitOfName? : String → Option Resource
  | "max-passes" => some .passes
  | "max-nodes" => some .nodes
  | _ => none

/-- An argument by its form. -/
inductive Argument where
  /-- Neither an option nor the end of options. -/
  | plain (text : String)
  /-- Flags. -/
  | flags (fs : List Flag)
  /-- An option for a limit, with the value if it is attached. -/
  | limit (resource : Resource) (value : Option String)
  /-- The end of options. -/
  | endOfOptions

/-- The form of a long option, given without its dashes. -/
def Argument.ofLong? (body : List Char) : Option Argument :=
  let name := String.ofList (body.takeWhile (· ≠ '='))
  let value := (body.dropWhile (· ≠ '=')).tail?.map String.ofList
  match limitOfName? name, Flag.ofName? name, value with
  | some resource, _, value => some (.limit resource value)
  | none, some f, none => some (.flags [f])
  | _, _, _ => none

/-- The form of an argument, if it has one. -/
def Argument.ofText? (text : String) : Option Argument :=
  match text.toList with
  | ['-', '-'] => some .endOfOptions
  | '-' :: '-' :: body => ofLong? body
  | ['-'] => some (.plain text)
  | '-' :: letters => (letters.mapM Flag.ofLetter?).map .flags
  | _ => some (.plain text)

/-- The largest number that a limit can be: the largest one of 64 binary digits. -/
def largestLimit : Nat := 0xFFFFFFFFFFFFFFFF

/-- The number that decimal digits stand for. -/
def numberOfDigits (digits : List Char) : Nat :=
  digits.foldl (fun n c => 10 * n + (c.toNat - '0'.toNat)) 0

/-- A number as an option takes it: digits, with a plus sign in front or without. -/
def readNumber? (text : String) : Option Nat :=
  let digits :=
    match text.toList with
    | '+' :: rest => rest
    | cs => cs
  let n := numberOfDigits digits
  if digits ≠ [] ∧ digits.all Char.isDigit ∧ n ≤ largestLimit then some n else none

/-- The arguments read so far. -/
structure Arguments where
  /-- The text of the expression. -/
  text : Option String
  /-- The flags. -/
  flags : List Flag
  /-- The limits. -/
  limits : List (Resource × Nat)

namespace Arguments

/-- Takes the text of the expression, unless there is one already. -/
def addText? (a : Arguments) (text : String) : Option Arguments :=
  match a.text with
  | none => some { a with text := some text }
  | some _ => none

/-- Takes flags that have not been given yet. -/
def addFlags? (a : Arguments) : List Flag → Option Arguments
  | [] => some a
  | f :: fs => if f ∈ a.flags then none else addFlags? { a with flags := f :: a.flags } fs

/-- Takes a limit that has not been given yet. -/
def addLimit? (a : Arguments) (resource : Resource) (value : String) : Option Arguments :=
  match a.limits.lookup resource, readNumber? value with
  | none, some n => some { a with limits := (resource, n) :: a.limits }
  | _, _ => none

/-- Takes arguments none of which is an option. -/
def readPlain? (a : Arguments) : List String → Option Arguments
  | [] => some a
  | text :: rest => (a.addText? text).bind (·.readPlain? rest)

/-- Takes arguments. -/
def read? (a : Arguments) : List String → Option Arguments
  | [] => some a
  | [text] =>
    match Argument.ofText? text with
    | some (.plain text) => a.addText? text
    | some (.flags fs) => a.addFlags? fs
    | some (.limit resource (some value)) => a.addLimit? resource value
    | some .endOfOptions => some a
    | _ => none
  | text :: next :: rest =>
    match Argument.ofText? text with
    | some (.plain text) => (a.addText? text).bind (·.read? (next :: rest))
    | some (.flags fs) => (a.addFlags? fs).bind (·.read? (next :: rest))
    | some (.limit resource (some value)) =>
      (a.addLimit? resource value).bind (·.read? (next :: rest))
    | some (.limit resource none) => (a.addLimit? resource next).bind (·.read? rest)
    | some .endOfOptions => a.readPlain? (next :: rest)
    | none => none

/-- What the arguments ask for, where the standard limits stand for those that are not given. -/
def request? (a : Arguments) : Option Request :=
  a.text.map fun text =>
    { text
      table := decide (.table ∈ a.flags)
      canonical := decide (.canonical ∈ a.flags)
      reduce := decide (.reduce ∈ a.flags)
      maxPasses := (a.limits.lookup .passes).getD Limits.standard.maxPasses
      maxNodes := (a.limits.lookup .nodes).getD Limits.standard.maxNodes }

end Arguments

/-- What is said about arguments that do not fit. -/
def usage : String :=
  "usage: [--table] [--canonical] [--reduce] [--verbose] [--max-passes INT] " ++
    "[--max-nodes INT] EXPR"

/-- What arguments ask for, or what is said about them. -/
def readArguments (args : List String) : Except String Request :=
  match (Arguments.read? ⟨none, [], []⟩ args).bind Arguments.request? with
  | some q => .ok q
  | none => .error usage

/-- Runs the program with some arguments. -/
def run (args : List String) : Outcome :=
  runWith readArguments args

end BoolLaws.CommandLine
