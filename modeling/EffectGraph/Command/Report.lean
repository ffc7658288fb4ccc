import EffectGraph.Definition.Catalog
import EffectGraph.Flow.Machine
/-!
# Reports

What a command leaves behind besides files: its exit code, the log of what it did, and what it wrote
itself to the standard output and to the standard error. The log is shown on the standard output,
too, one line for each entry that is shown at all. It comes first there, since a command writes its
result when all is done.
-/

namespace EffectGraph

/-- An entry of the log of a command. -/
inductive LogEntry where
  /-- A kind was asked for by an alias. -/
  | alias (use : AliasUse)
  /-- Something happened in a run. -/
  | event (e : Event)
  deriving DecidableEq

/-- How a command ended. -/
structure Report where
  code : UInt32
  /-- The log, oldest entry first. -/
  log : List LogEntry
  /-- What the command itself wrote to the standard output. -/
  output : String
  /-- What was written to the standard error. -/
  errors : String
  deriving DecidableEq

/-- The standard output, if entries of the log are shown by the given lines. -/
def Report.stdout (line : LogEntry → String) (r : Report) : String :=
  String.join (r.log.map line) ++ r.output

/-- The callers of a flow as an entry of the log lists them. -/
def callersText (callers : List NodeId) : String :=
  "[" ++ ", ".intercalate (callers.map fun n => "NodeId(" ++ n.text ++ ")") ++ "]"

/-- The line of an entry, without the time, the runs that it belongs to and the name of the
component that made it. Errors are shown and nothing else. -/
def LogEntry.line : LogEntry → String
  | .event (.nodeFailed n define depth callers e) =>
    "ERROR node_failed node_id=" ++ n.text ++ " define=" ++ define ++ " depth=" ++ natText depth ++
      " callers=" ++ callersText callers ++ " error=" ++ e.message ++ "\n"
  | .event (.outputEmpty n define port) =>
    "ERROR output_unpopulated node_id=" ++ n.text ++ " define=" ++ define ++ " port=" ++
      port.text ++ "\n"
  | .event (.nodeInvoked ..) | .event (.logged ..) | .alias _ => ""

end EffectGraph
