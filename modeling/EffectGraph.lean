import EffectGraph.Main
import EffectGraph.Proofs.Abandoning
import EffectGraph.Proofs.Aliases
import EffectGraph.Proofs.Attribution
import EffectGraph.Proofs.Bookkeeping
import EffectGraph.Proofs.CallDepth
import EffectGraph.Proofs.Canonical
import EffectGraph.Proofs.Cascades
import EffectGraph.Proofs.Coercion
import EffectGraph.Proofs.Commands
import EffectGraph.Proofs.Congruence
import EffectGraph.Proofs.Contract
import EffectGraph.Proofs.Conversions
import EffectGraph.Proofs.Cycles
import EffectGraph.Proofs.Declaring
import EffectGraph.Proofs.Defaulting
import EffectGraph.Proofs.Encoding
import EffectGraph.Proofs.Faithful
import EffectGraph.Proofs.Folders
import EffectGraph.Proofs.Frame
import EffectGraph.Proofs.FreeIds
import EffectGraph.Proofs.Halting
import EffectGraph.Proofs.Interfaces
import EffectGraph.Proofs.Isolating
import EffectGraph.Proofs.Leftovers
import EffectGraph.Proofs.Loading
import EffectGraph.Proofs.Memo
import EffectGraph.Proofs.Nesting
import EffectGraph.Proofs.Numerals
import EffectGraph.Proofs.Operands
import EffectGraph.Proofs.Operators
import EffectGraph.Proofs.Packing
import EffectGraph.Proofs.Pulls
import EffectGraph.Proofs.ReadingBack
import EffectGraph.Proofs.Redefining
import EffectGraph.Proofs.Refitting
import EffectGraph.Proofs.Refusal
import EffectGraph.Proofs.Rekeying
import EffectGraph.Proofs.Reordering
import EffectGraph.Proofs.Rerun
import EffectGraph.Proofs.Rewiring
import EffectGraph.Proofs.RoundTrip
import EffectGraph.Proofs.Scoping
import EffectGraph.Proofs.Spelling
import EffectGraph.Proofs.Substitution
import EffectGraph.Proofs.Supervision
import EffectGraph.Proofs.TextForms
import EffectGraph.Proofs.Undoing
import EffectGraph.Proofs.Wiring
