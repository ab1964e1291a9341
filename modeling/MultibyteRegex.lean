import MultibyteRegex.Options
import MultibyteRegex.Text.Boundary
import MultibyteRegex.Tree.Length
import MultibyteRegex.Tree.Repeat
import MultibyteRegex.Tree.Prepare
import MultibyteRegex.Pattern.Scan
import MultibyteRegex.Pattern.Escape
import MultibyteRegex.Pattern.Bracket
import MultibyteRegex.Pattern.Atom
import MultibyteRegex.Pattern.Parse
import MultibyteRegex.Code.Program
import MultibyteRegex.Machine.Step
import MultibyteRegex.Search.Facts
import MultibyteRegex.Search.Occurrence
import MultibyteRegex.Search.Plan
import MultibyteRegex.Search.Candidates
import MultibyteRegex.Regex
import MultibyteRegex.Session
import MultibyteRegex.Grep.Arguments
import MultibyteRegex.Grep.Search
import MultibyteRegex.Main
import MultibyteRegex.Proofs.Advancing
import MultibyteRegex.Proofs.WellFormed
import MultibyteRegex.Proofs.Leaf
import MultibyteRegex.Proofs.Nesting
import MultibyteRegex.Proofs.Backtrack
import MultibyteRegex.Proofs.Emission
import MultibyteRegex.Proofs.Contract
import MultibyteRegex.Proofs.Fragment
import MultibyteRegex.Proofs.Spans
import MultibyteRegex.Proofs.Compilation
import MultibyteRegex.Proofs.Safety
import MultibyteRegex.Proofs.Outcomes
import MultibyteRegex.Proofs.Exploration
import MultibyteRegex.Proofs.Preparation
import MultibyteRegex.Proofs.Rewriting
import MultibyteRegex.Proofs.Unwinding
import MultibyteRegex.Proofs.Continuation
import MultibyteRegex.Proofs.Enumeration
import MultibyteRegex.Proofs.Repetition
import MultibyteRegex.Proofs.Simulation
import MultibyteRegex.Proofs.Listing
import MultibyteRegex.Proofs.Priority
import MultibyteRegex.Proofs.SingleByte
import MultibyteRegex.Proofs.Bounds
import MultibyteRegex.Proofs.Keys
import MultibyteRegex.Proofs.Joining
import MultibyteRegex.Proofs.Finding
import MultibyteRegex.Proofs.Planning
import MultibyteRegex.Proofs.Scanning
import MultibyteRegex.Proofs.KeySearch
import MultibyteRegex.Proofs.Soundness
import MultibyteRegex.Proofs.Leftmost
import MultibyteRegex.Proofs.Skipping
import MultibyteRegex.Proofs.LookBehind
import MultibyteRegex.Proofs.Termination
import MultibyteRegex.Proofs.Undo
import MultibyteRegex.Proofs.Idling
import MultibyteRegex.Proofs.Metering
import MultibyteRegex.Proofs.Peeking
import MultibyteRegex.Proofs.ExpandLimit
import MultibyteRegex.Proofs.Rightmost
import MultibyteRegex.Proofs.Retention
import MultibyteRegex.Proofs.Escaping
import MultibyteRegex.Proofs.Substring
import MultibyteRegex.Proofs.Caseless
import MultibyteRegex.Proofs.Indifference
import MultibyteRegex.Proofs.Extremes
import MultibyteRegex.Proofs.Longest
import MultibyteRegex.Proofs.Journal
import MultibyteRegex.Proofs.Insertion
import MultibyteRegex.Proofs.Collapsing
import MultibyteRegex.Proofs.Opening
import MultibyteRegex.Proofs.Narrowing
import MultibyteRegex.Proofs.Surrounding
import MultibyteRegex.Proofs.Stacking
import MultibyteRegex.Proofs.Reducing
import MultibyteRegex.Proofs.Layout
import MultibyteRegex.Proofs.Merging
import MultibyteRegex.Proofs.Bracketing
import MultibyteRegex.Proofs.Dividing
import MultibyteRegex.Proofs.Suffixes
import MultibyteRegex.Proofs.Retracing
import MultibyteRegex.Proofs.Transcoding
import MultibyteRegex.Proofs.Commenting
import MultibyteRegex.Proofs.Preorder
import MultibyteRegex.Proofs.Atoms
import MultibyteRegex.Proofs.Numbering
import MultibyteRegex.Proofs.Intervals
import MultibyteRegex.Proofs.Literals
import MultibyteRegex.Proofs.Words
import MultibyteRegex.Proofs.Distances
import MultibyteRegex.Proofs.Checked
import MultibyteRegex.Proofs.Overflow
import MultibyteRegex.Proofs.Anchoring
import MultibyteRegex.Proofs.Invisibility
import MultibyteRegex.Proofs.Sliding
