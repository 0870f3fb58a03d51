import CellForth.FileSystem
import CellForth.Main
import CellForth.Proofs.Allocation
import CellForth.Proofs.BoundedLists
import CellForth.Proofs.BoundedOutput
import CellForth.Proofs.CompiledStrings
import CellForth.Proofs.CoreImages
import CellForth.Proofs.CountedLoops
import CellForth.Proofs.Declarations
import CellForth.Proofs.Division
import CellForth.Proofs.Domains
import CellForth.Proofs.ExactLookup
import CellForth.Proofs.Layouts
import CellForth.Proofs.Meaning
import CellForth.Proofs.NestedCalls
import CellForth.Proofs.NumberWriting
import CellForth.Proofs.PackedStrings
import CellForth.Proofs.Poison
import CellForth.Proofs.Sessions
import CellForth.Proofs.Splitting
import CellForth.Proofs.StackComments
import CellForth.Proofs.StraightLine
import CellForth.Proofs.ThreadEnds
import CellForth.Proofs.Verbosity
