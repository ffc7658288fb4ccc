import EffectGraph.Number.Reading
/-!
# Command line arguments

The command line names a subcommand, its files and its options. An option is a long name with a
value after it or after an equals sign, or a short name with a value after it, directly or after an
equals sign. After two hyphens alone every argument is a file. An option that takes one value is
given at most once; define files are given any number of times, before or after the subcommand.
-/

namespace EffectGraph.Command

/-- What the command line asks for. -/
inductive Task where
  /-- Print the nodes, ports and connections of a graph. -/
  | inspect (graph : String)
  /-- Run a graph from a node and print the values it produced. -/
  | run (graph : String) (node : UInt32) (card buff : Option UInt64) (options : Option String)
  /-- Turn a graph in JSON into bytes. -/
  | encode (input output : String)
  /-- Turn a graph in bytes into JSON. -/
  | decode (input output : String)
  deriving DecidableEq

/-- A task and the define files to load before it. -/
structure Request where
  definitions : List String
  task : Task
  deriving DecidableEq

/-- What an argument list comes to. -/
inductive Parsed where
  | request (r : Request)
  /-- The arguments ask for help or for the version. -/
  | help
  /-- The arguments do not make a request. -/
  | usage
  deriving DecidableEq

/-- An option of a subcommand. -/
structure OptionSpec where
  long : String
  short : Option Char
  deriving DecidableEq

def definesOption : OptionSpec := ⟨"defines", some 'd'⟩

def nodeOption : OptionSpec := ⟨"node", some 'n'⟩

def cardOption : OptionSpec := ⟨"card", none⟩

def buffOption : OptionSpec := ⟨"buff", none⟩

def optionsOption : OptionSpec := ⟨"options", none⟩

/-- An argument list taken apart: option values in order, the other arguments, and whether help was
asked for. -/
structure Sorted where
  values : List (OptionSpec × String) := []
  files : List String := []
  help : Bool := false

/-- How an argument begins that is no file. -/
inductive Shape where
  | file
  /-- Two hyphens alone. -/
  | separator
  /-- An option whose value is the next argument. -/
  | bare (o : OptionSpec)
  /-- An option with its value. -/
  | full (o : OptionSpec) (value : String)
  | help
  | unknown

/-- Splits a list at the first equals sign. -/
def splitEquals (cs : List Char) : List Char × Option (List Char) :=
  match cs.dropWhile (· ≠ '=') with
  | _ :: rest => (cs.takeWhile (· ≠ '='), some rest)
  | [] => (cs, none)

/-- What an argument is among the given options. -/
def shapeOf (specs : List OptionSpec) (arg : String) : Shape :=
  match arg.toList with
  | ['-', '-'] => .separator
  | '-' :: '-' :: rest =>
    let (name, value) := splitEquals rest
    match specs.find? fun o => o.long = String.ofList name with
    | some o =>
      match value with
      | some v => .full o (String.ofList v)
      | none => .bare o
    | none => if rest = "help".toList ∨ rest = "version".toList then .help else .unknown
  | '-' :: c :: rest =>
    match specs.find? fun o => o.short = some c with
    | some o =>
      match rest with
      | [] => .bare o
      | '=' :: v => .full o (String.ofList v)
      | v => .full o (String.ofList v)
    | none => if c = 'h' ∨ c = 'V' then .help else .unknown
  | _ => .file

/-- Whether an argument may be the value of the option before it. -/
def isValue (arg : String) : Bool :=
  match arg.toList with
  | '-' :: _ :: _ => false
  | _ => true

/-- Sorts the arguments of a subcommand; nothing if one of them is not known or lacks its value. -/
def sortArguments (specs : List OptionSpec) : List String → Sorted → Option Sorted
  | [], s => some s
  | arg :: rest, s =>
    match shapeOf specs arg with
    | .file => sortArguments specs rest { s with files := s.files ++ [arg] }
    | .separator => some { s with files := s.files ++ rest }
    | .full o v => sortArguments specs rest { s with values := s.values ++ [(o, v)] }
    | .bare o =>
      match rest with
      | v :: rest =>
        if isValue v then sortArguments specs rest { s with values := s.values ++ [(o, v)] }
        else none
      | [] => none
    | .help => some { s with help := true }
    | .unknown => none

namespace Sorted

/-- All values of an option. -/
def all (s : Sorted) (o : OptionSpec) : List String :=
  (s.values.filter fun v => v.1 = o).map (·.2)

/-- The value of an option that is given at most once. -/
def atMostOne (s : Sorted) (o : OptionSpec) : Option (Option String) :=
  match s.all o with
  | [] => some none
  | [v] => some (some v)
  | _ => none

/-- The value of an option that is given at most once, as `read` reads it. -/
def reading {α : Type} (s : Sorted) (o : OptionSpec) (read : List Char → Option α) :
    Option (Option α) := do
  match ← s.atMostOne o with
  | none => some none
  | some v => (read v.toList).map some

end Sorted

/-- Reads the number of a node. Unlike the other numbers it may bear a sign of either kind, so that
minus zero is zero. -/
def readNode? (cs : List Char) : Option UInt32 :=
  (readInt? cs).bind fun n =>
    if 0 ≤ n ∧ n.toNat < UInt32.size then some n.toNat.toUInt32 else none

/-- Reads the number of a card or a buff, which takes no minus sign. -/
def readEntity? (cs : List Char) : Option UInt64 :=
  (readNatBelow? UInt64.size cs).map (·.toUInt64)

/-- The options of a subcommand; nothing if there is no such subcommand. -/
def optionsOf? (name : String) : Option (List OptionSpec) :=
  if name = "inspect" ∨ name = "encode" ∨ name = "decode" then some [definesOption]
  else if name = "run" then
    some [definesOption, nodeOption, cardOption, buffOption, optionsOption]
  else none

/-- The task of a subcommand with its sorted arguments. -/
def taskOf? (name : String) (s : Sorted) : Option Task :=
  match s.files with
  | [graph] =>
    if name = "inspect" then some (.inspect graph)
    else if name = "run" then do
      let node ← (← s.reading nodeOption readNode?)
      let card ← s.reading cardOption readEntity?
      let buff ← s.reading buffOption readEntity?
      let options ← s.atMostOne optionsOption
      some (.run graph node card buff options)
    else none
  | [input, output] =>
    if name = "encode" then some (.encode input output)
    else if name = "decode" then some (.decode input output)
    else none
  | _ => none

/-- The request of a subcommand, given the define files named before it. Those named after it take
their place. -/
def parseSubcommand (definitions : List String) (name : String) (rest : List String) : Parsed :=
  match optionsOf? name with
  | none => if name = "help" then .help else .usage
  | some specs =>
    match sortArguments specs rest {} with
    | none => .usage
    | some s =>
      if s.help then .help
      else
        match taskOf? name s with
        | none => .usage
        | some task =>
          let later := s.all definesOption
          .request ⟨if later.isEmpty then definitions else later, task⟩

/-- The request of a list of arguments, given the define files named so far. -/
def parseFrom (definitions : List String) : List String → Parsed
  | [] => .usage
  | arg :: rest =>
    match shapeOf [definesOption] arg with
    | .file => parseSubcommand definitions arg rest
    | .full _ v => parseFrom (definitions ++ [v]) rest
    | .bare _ =>
      match rest with
      | v :: rest => if isValue v then parseFrom (definitions ++ [v]) rest else .usage
      | [] => .usage
    | .help => .help
    | .separator | .unknown => .usage

/-- The request of a list of arguments. -/
def parse (args : List String) : Parsed := parseFrom [] args

end EffectGraph.Command
