import Reckon.Main
import Reckon.Proofs.Grammar
import Reckon.Session
import Reckon.Proofs.Phrase
import Reckon.Proofs.Completeness
import Reckon.Proofs.Soundness
import Reckon.Proofs.Lexicon
import Reckon.Proofs.Unambiguous
import Reckon.Proofs.Lexing
import Reckon.Proofs.Parsing
import Reckon.Proofs.Shape
import Reckon.Proofs.Layout
import Reckon.Proofs.RoundTrip
import Reckon.Proofs.Numerals
import Reckon.Proofs.Safety
import Reckon.Proofs.Events
import Reckon.Proofs.Finiteness
import Reckon.Proofs.Atomicity
import Reckon.Proofs.Displacement
import Reckon.Proofs.Engines
import Reckon.Proofs.Joining
import Reckon.Proofs.Escapes
import Reckon.Proofs.Origin
import Reckon.Proofs.Outlines
import Reckon.Proofs.Listing
import Reckon.Proofs.Lockstep
import Reckon.Proofs.Nesting
import Reckon.Proofs.Chains
import Reckon.Proofs.Congruence
import Reckon.Proofs.Footprint
import Reckon.Proofs.Kinds
import Reckon.Proofs.Ordering
import Reckon.Proofs.Scoping
import Reckon.Proofs.Rounding
import Reckon.Proofs.Shortest
import Reckon.Proofs.Readback
import Reckon.Proofs.Pieces
import Reckon.Proofs.Marks
import Reckon.Proofs.Elements
import Reckon.Proofs.Positions
import Reckon.Proofs.Precedence
import Reckon.Proofs.Modes
import Reckon.Proofs.Classes
import Reckon.Proofs.Concatenation
import Reckon.Proofs.Modulo
import Reckon.Proofs.Arguments
import Reckon.Proofs.LineEndings
import Reckon.Proofs.Causes
import Reckon.Proofs.Depth
import Reckon.Proofs.Truncation
