import FrontEnd.FileTree
import FrontEnd.Main
import FrontEnd.Ty.Layout
import FrontEnd.Proofs.Checking.Run
import FrontEnd.Proofs.Checking.Derivation
import FrontEnd.Proofs.Checking.Adequacy
import FrontEnd.Proofs.Checking.Frame
import FrontEnd.Proofs.Build
import FrontEnd.Proofs.Name
import FrontEnd.Proofs.Path
import FrontEnd.Proofs.Imports
import FrontEnd.Proofs.Checking.Invariant
import FrontEnd.Proofs.Checking.Arising
import FrontEnd.Proofs.Ty.Following
import FrontEnd.Proofs.Ty.Extent
import FrontEnd.Proofs.Ty.Storage
import FrontEnd.Proofs.Termination
import FrontEnd.Proofs.Safety
import FrontEnd.Proofs.Token.Scan
import FrontEnd.Proofs.Token.Tiling
import FrontEnd.Proofs.Token.Lexemes
import FrontEnd.Proofs.Token.Spelling
import FrontEnd.Proofs.Checking.Silent
import FrontEnd.Proofs.Checking.Returns
import FrontEnd.Proofs.Reading.Moves
import FrontEnd.Proofs.Reading.Written
import FrontEnd.Proofs.Reading.Texts
import FrontEnd.Proofs.Reading.Types
import FrontEnd.Proofs.Reading.Exprs
import FrontEnd.Proofs.Syntax.Relabel
import FrontEnd.Proofs.Syntax.Printed
import FrontEnd.Proofs.RoundTrip
import FrontEnd.Proofs.Typing.Soundness
import FrontEnd.Proofs.Scoping
import FrontEnd.Proofs.Mistakes.Below
import FrontEnd.Proofs.Mistakes.Edit
import FrontEnd.Proofs.Mistakes.Replacement
import FrontEnd.Proofs.Mistakes.Tracks
import FrontEnd.Proofs.Mistakes.Rereading
import FrontEnd.Proofs.Mistakes.Respelling
import FrontEnd.Proofs.Mistakes.Reported
import FrontEnd.Proofs.Reading.Natural
import FrontEnd.Proofs.Reading.Firm
import FrontEnd.Proofs.Reading.Forward
import FrontEnd.Proofs.Syntax.Parts
import FrontEnd.Proofs.Typing.Complete
import FrontEnd.Proofs.Typing.Layouts
import FrontEnd.Proofs.Limits
import FrontEnd.Proofs.Meanings
import FrontEnd.Proofs.Scopes
import FrontEnd.Proofs.Checking.Plan
import FrontEnd.Proofs.Chain
import FrontEnd.Proofs.Functions
import FrontEnd.Proofs.Reading.Instantiation
import FrontEnd.Proofs.Syntax.Labels
import FrontEnd.Proofs.Ty.Records
import FrontEnd.Proofs.Reading.Origins
import FrontEnd.Proofs.Reading.Declared
import FrontEnd.Proofs.Sources.Steps
import FrontEnd.Proofs.Sources.Types
import FrontEnd.Proofs.Sources.Plans
import FrontEnd.Proofs.Checking.Parts
import FrontEnd.Proofs.Checking.Visits
import FrontEnd.Proofs.Log.Basic
import FrontEnd.Proofs.Log.Known
import FrontEnd.Proofs.Log.Modules
import FrontEnd.Proofs.Identity
import FrontEnd.Proofs.Lines
import FrontEnd.Proofs.Placement
import FrontEnd.Proofs.Reading.Spaced
import FrontEnd.Proofs.Grammar
import FrontEnd.Proofs.Precedence
import FrontEnd.Proofs.Bindings
import FrontEnd.Proofs.Captures
import FrontEnd.Proofs.Paths
import FrontEnd.Proofs.Checking.Upkeep
import FrontEnd.Proofs.Ty.Containment
import FrontEnd.Proofs.Containment
import FrontEnd.Proofs.Equality
import FrontEnd.Proofs.Checking.Levels
import FrontEnd.Proofs.Jumps
import FrontEnd.Proofs.Reading.Progress
import FrontEnd.Proofs.Halting
import FrontEnd.Proofs.Legibility
import FrontEnd.Proofs.Token.Literals
import FrontEnd.Proofs.Token.Longest
import FrontEnd.Proofs.Locations
import FrontEnd.Proofs.Reading.Respacing
import FrontEnd.Proofs.Unambiguous
import FrontEnd.Proofs.Reading.Numbers
