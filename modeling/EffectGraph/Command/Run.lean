import EffectGraph.Bytes.Snapshots
import EffectGraph.Command.Arguments
import EffectGraph.Command.Report
import EffectGraph.Command.Script
import EffectGraph.Json.Snapshots
import EffectGraph.Library.Builtins
/-!
# The command line

The subcommands: inspecting a graph, running it, and converting it between JSON and bytes. A command
that fails writes its reason to the standard error and ends with exit code 1; arguments that make no
request end with exit code 2. The aliases by which kinds are asked for and what happens in a run go
to the log.
-/

namespace EffectGraph.Command

/-! ## Texts -/

/-- What `inspect` prints for a node. -/
def nodeText (n : Node Definition) : String :=
  let consts := n.consts.entries.map fun e => "    const " ++ e.1 ++ " = " ++ e.2.text ++ "\n"
  let ports := (Graph.placedPorts n).map fun p =>
    "    " ++ p.text ++ " : " ++ p.port.decl.type.text ++ "\n"
  "[" ++ n.id.text ++ "] " ++ n.kind.name ++ " at (" ++ n.position.x.text ++ ", " ++
    n.position.y.text ++ ")\n" ++ String.join consts ++ String.join ports

/-- What `inspect` prints for a connection. -/
def connectionText (g : Graph Definition) (c : Connection) : String :=
  match g.portAt? c.source, g.portAt? c.destination with
  | some source, some destination =>
    c.kind.text ++ " " ++ source.node.text ++ "." ++ source.port.key.text ++ " -> " ++
      destination.node.text ++ "." ++ destination.port.key.text ++ "\n"
  | _, _ => ""

/-- What `inspect` prints. -/
def graphText (g : Graph Definition) : String :=
  "--- Nodes (" ++ natText g.nodes.length ++ ") ---\n" ++ String.join (g.nodes.map nodeText) ++
    "\n--- Connections (" ++ natText g.connections.length ++ ") ---\n" ++
    String.join (g.connections.map (connectionText g))

/-- What `run` prints for an output that has a value. -/
def outputText (g : Graph Definition) (scopes : Scopes) (n : Node Definition) (p : Port) : String :=
  match scopes.find? (g.portId p.index) with
  | some v =>
    "  [" ++ n.id.text ++ "] " ++ n.kind.name ++ "." ++ p.decl.name ++ " = " ++ v.text ++ "\n"
  | none => ""

/-- What `run` prints. -/
def valuesText (g : Graph Definition) (scopes : Scopes) : String :=
  "\nRun Finished in\n" ++
    String.join (g.nodes.flatMap fun n => n.outputs.map (outputText g scopes n))

/-! ## Steps -/

/-- The report of a command that fails for a reason and has logged nothing. -/
def failure (reason : String) : Report := ⟨1, [], "", "\nError: " ++ reason ++ "\n"⟩

/-- The report of a command that succeeds with an output and has logged nothing. -/
def success (output : String) : Report := ⟨0, [], output, ""⟩

/-- The report of a command with a log, which ends with an output or for a reason. -/
def conclude (log : List LogEntry) : Except String String → Report
  | .ok output => { success output with log := log }
  | .error reason => { failure reason with log := log }

@[simp] theorem conclude_nil_ok (output : String) : conclude [] (.ok output) = success output := rfl

@[simp] theorem conclude_nil_error (reason : String) :
    conclude [] (.error reason) = failure reason := rfl

/-- A script that adds to the log and may end early for a reason. -/
abbrev Step (α : Type) := ExceptT String (StateT (List LogEntry) Script) α

/-- The step that ends with a failure for a reason. -/
def stop {α : Type} (reason : String) : Step α := throw reason

/-- Adds entries to the log. -/
def note (entries : List LogEntry) : Step Unit := modify (· ++ entries)

def readBytes (path : String) : Step (Except FileError Bytes) :=
  ExceptT.mk fun log => .read path fun r => .done (.ok r, log)

def writeBytes (path : String) (content : Bytes) : Step (Except FileError Unit) :=
  ExceptT.mk fun log => .write path content fun r => .done (.ok r, log)

/-- The message for bytes that are no text. -/
def notTextReason : String := "stream did not contain valid UTF-8"

def readText (path : String) : Step String := do
  let refuse (reason : String) : Step String :=
    stop ("Failed to read file '" ++ path ++ "': " ++ reason)
  match ← readBytes path with
  | .error e => refuse e.text
  | .ok content =>
    match String.fromUTF8? content.toByteArray with
    | some s => return s
    | none => refuse notTextReason

/-- The cause of a failure to read a file of bytes: a folder can be opened but not read. -/
def openError (path : String) (e : FileError) : GraphError :=
  .codec (if e = .isDirectory then .readFile path e.text else .openFile path e.text)

def readSnapshot (path : String) : Step (Except GraphError Snapshot) := do
  match ← readBytes path with
  | .error e => return .error (openError path e)
  | .ok content => return Snapshot.decode content

/-- Loads define files one after another into a catalog. The inner graphs are numbered from `id`. -/
def loadDefinitions : List String → Nat → Catalog → Step Catalog
  | [], _, c => return c
  | path :: paths, id, c => do
    let s ← readText path
    match DefinitionRecord.ofJsonText s with
    | .error e => stop ("Failed to parse '" ++ path ++ "': " ++ e.message)
    | .ok r =>
      note ((r.graph.notices c id (some r.signature)).map .alias)
      match r.load c id with
      | .error e => stop ("Failed to load '" ++ path ++ "': " ++ e.message)
      | .ok (c, _) => loadDefinitions paths (id + 1) c

/-- The catalog of the standard kinds and the given define files. -/
def loadCatalog (paths : List String) : Step Catalog :=
  match Catalog.standard with
  | .error e => stop ("Failed to register builtins: " ++ e.message)
  | .ok c => loadDefinitions paths 1 c

/-- Reads a graph, from JSON if the file is named so and else from bytes, and rebuilds it. -/
def loadGraph (path : String) (c : Catalog) : Step (Graph Definition) := do
  let snapshot ←
    if path.endsWith ".json" then do
      let s ← readText path
      pure (Snapshot.ofJsonText s)
    else readSnapshot path
  match snapshot with
  | .error e => stop ("Failed to load graph '" ++ path ++ "': " ++ e.message)
  | .ok s =>
    note ((s.notices c 0 none).map .alias)
    match s.rebuild c 0 none with
    | .error e => stop ("Failed to rebuild graph '" ++ path ++ "': " ++ e.message)
    | .ok g => return g

/-- Reads interpreter options, the usual ones if no file is given. -/
def loadOptions : Option String → Step Options
  | none => return {}
  | some path => do
    let s ← readText path
    match Options.ofJson?.ofText? s with
    | some o => return o
    | none => stop ("Failed to parse options '" ++ path ++ "'")

/-- A host that is not consulted. -/
def silentHost : Host Unit := fun _ s => (.null, s)

/-- Runs a graph from a node with an allowance of nested steps. -/
def runGraph (allowance : Nat) (g : Graph Definition) (n : NodeId) (e : Environment) (o : Options) :
    Step String :=
  let run := Engine.runNode (exec silentHost allowance) (.top g e o g.hook) n
  match run ⟨.start .empty, [], ()⟩ with
  | none => stop "Run failed: the run did not come to an end"
  | some (r, m) => do
    note (m.log.reverse.map .event)
    match r with
    | .error e => stop ("Run failed: " ++ e.message)
    | .ok _ => return valuesText g m.memory.scopes

/-! ## Subcommands -/

/-- What a conversion prints. -/
def wroteText (path : String) (s : Snapshot) : String :=
  "Wrote " ++ path ++ " (" ++ natText s.nodes.length ++ " nodes)\n"

def encodeFile (input output : String) : Step String := do
  let s ← readText input
  match Snapshot.ofJsonText s with
  | .error e => stop e.message
  | .ok snapshot =>
    match snapshot.encode with
    | .error e => stop e.message
    | .ok content =>
      match ← writeBytes output content with
      | .error e => stop (GraphError.codec (.createFile output e.text)).message
      | .ok () => return wroteText output snapshot

def decodeFile (input output : String) : Step String := do
  match ← readSnapshot input with
  | .error e => stop e.message
  | .ok snapshot =>
    match snapshot.jsonText with
    | .error e => stop e.message
    | .ok s =>
      match ← writeBytes output s.toByteArray.toList with
      | .error e => stop ("Could not write to file '" ++ output ++ "': " ++ e.text)
      | .ok () => return wroteText output snapshot

/-- Carries out a request, with an allowance of nested steps for a run, and has its output. -/
def carryOut (allowance : Nat) (r : Request) : Step String :=
  match r.task with
  | .inspect path => do
    let c ← loadCatalog r.definitions
    let g ← loadGraph path c
    return graphText g
  | .run path node card buff options => do
    let c ← loadCatalog r.definitions
    let g ← loadGraph path c
    let o ← loadOptions options
    let e : Environment :=
      { game := .null, card := card.elim .null .card, buff := buff.elim .null .buff,
        event := .null }
    runGraph allowance g ⟨node⟩ e o
  | .encode input output => encodeFile input output
  | .decode input output => decodeFile input output

/-- How the command is used. -/
def usageText : String :=
  String.join
    ["Usage: [-d FILE]... inspect GRAPH\n",
      "       [-d FILE]... run GRAPH -n NODE [--card ID] [--buff ID] [--options FILE]\n",
      "       encode INPUT OUTPUT\n", "       decode INPUT OUTPUT\n"]

/-- Runs the command line. -/
def respond (allowance : Nat) (args : List String) : Script Report :=
  match parse args with
  | .help => .done (success usageText)
  | .usage => .done ⟨2, [], "", usageText⟩
  | .request r => ((carryOut allowance r).run.run []).bind fun (result, log) =>
    .done (conclude log result)

end EffectGraph.Command
