import Schematic.Session
import Schematic.Source.Scanner
import Schematic.Proofs.Layout.Flattening
import Schematic.Proofs.Source.Declared
import Schematic.Proofs.Circuit.Resolution
import Schematic.Proofs.Layout.WireLetter
import Schematic.Proofs.Load.Passage
import Schematic.Proofs.Load.Drawing
import Schematic.Proofs.Circuit.Levels
import Schematic.Proofs.Circuit.Renaming
import Schematic.Proofs.Load.Instance
import Schematic.Proofs.Circuit.Solution
import Schematic.Proofs.Load.Solution
import Schematic.Proofs.Layout.Hygiene
import Schematic.Proofs.Circuit.Rails
import Schematic.Proofs.Load.Rails
import Schematic.Proofs.Failure
import Schematic.Proofs.Source.Diagnosis
import Schematic.Proofs.Files.Reading
import Schematic.Proofs.Library.Roots
import Schematic.Proofs.Load.Safety
import Schematic.Proofs.Load.Logging
import Schematic.Proofs.Session.Opening
import Schematic.Proofs.Session.History
import Schematic.Proofs.Source.Grammar
import Schematic.Proofs.Source.Following
import Schematic.Proofs.Text.Utf8
import Schematic.Proofs.Source.Separation
import Schematic.Proofs.Source.Lines
import Schematic.Proofs.Text.Newline
import Schematic.Proofs.Source.File
import Schematic.Proofs.Load.Uncached
import Schematic.Proofs.Load.Completion
import Schematic.Proofs.Load.Acceptance
import Schematic.Proofs.Load.Appending
import Schematic.Proofs.Load.Lettering
import Schematic.Proofs.Load.Blocks
import Schematic.Proofs.Load.Cells
import Schematic.Proofs.Source.Writing
import Schematic.Proofs.Text.Numeral
import Schematic.Proofs.Source.Expressible
import Schematic.Proofs.Circuit.Uniqueness
import Schematic.Proofs.Load.Naming
import Schematic.Proofs.Library.Cache
import Schematic.Proofs.Library.Shadowing
import Schematic.Proofs.Load.Extension
import Schematic.Proofs.Circuit.Suspicion
import Schematic.Proofs.Circuit.Memoryless
import Schematic.Proofs.Load.Repetition
import Schematic.Proofs.Circuit.Monotone
import Schematic.Proofs.Load.Viewport
import Schematic.Proofs.Circuit.Convergence
import Schematic.Proofs.Load.FirstOverlap
import Schematic.Proofs.Source.Concatenation
import Schematic.Proofs.Files.Entries
import Schematic.Proofs.Library.Indexing
import Schematic.Proofs.Load.Recall
import Schematic.Proofs.Load.Commutation
import Schematic.Proofs.Source.Cutting
import Schematic.Proofs.Source.Spacing
import Schematic.Proofs.Source.Resumption
import Schematic.Proofs.Source.Promptness
import Schematic.Proofs.Source.Groups
import Schematic.Proofs.Source.Magnitude
import Schematic.Proofs.Load.Lookup
import Schematic.Proofs.Log
import Schematic.Proofs.Region
import Schematic.Proofs.Layout.Footprint
