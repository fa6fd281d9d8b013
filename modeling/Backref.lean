import Backref.Bytes.Agreement
import Backref.Bytes.View
import Backref.Chain
import Backref.CommandLine.Arguments
import Backref.CommandLine.Environment
import Backref.CommandLine.Run
import Backref.CommandLine.Usage
import Backref.Digest
import Backref.Effort
import Backref.Files.Host
import Backref.Files.Inputs
import Backref.Files.Tree
import Backref.Limits
import Backref.Main
import Backref.Number.Binary64
import Backref.Number.Rounding
import Backref.Parse.Basic
import Backref.Parse.Greedy
import Backref.Parse.Lazy
import Backref.Parse.Setup
import Backref.Proofs.Agreement
import Backref.Proofs.Answer
import Backref.Proofs.Appending
import Backref.Proofs.BlockBoundaries
import Backref.Proofs.BruteForce
import Backref.Proofs.Buckets
import Backref.Proofs.ByteRuns
import Backref.Proofs.CanonicalBytes
import Backref.Proofs.ChainUses
import Backref.Proofs.Checked.Basic
import Backref.Proofs.Checked.Examined
import Backref.Proofs.Checked.Expand
import Backref.Proofs.Checked.Journal
import Backref.Proofs.Checked.Loops
import Backref.Proofs.Checked.Moves
import Backref.Proofs.Checked.Parse
import Backref.Proofs.Checked.Search
import Backref.Proofs.Comparators
import Backref.Proofs.Copies
import Backref.Proofs.Counts
import Backref.Proofs.DeclaredRanges
import Backref.Proofs.Deferral
import Backref.Proofs.Description
import Backref.Proofs.EventStreams
import Backref.Proofs.ExactRatios
import Backref.Proofs.Expansion
import Backref.Proofs.GreedyRun
import Backref.Proofs.GuardBytes
import Backref.Proofs.IndexedPositions
import Backref.Proofs.Isolation
import Backref.Proofs.LazyRun
import Backref.Proofs.LazyStates
import Backref.Proofs.LevelVariable
import Backref.Proofs.Loops
import Backref.Proofs.Matches
import Backref.Proofs.Merging
import Backref.Proofs.Newest
import Backref.Proofs.Numerals
import Backref.Proofs.Plain
import Backref.Proofs.Quiet
import Backref.Proofs.RollingHash
import Backref.Proofs.Round
import Backref.Proofs.RoundTrip
import Backref.Proofs.Scanning
import Backref.Proofs.Settings
import Backref.Proofs.ShortCopies
import Backref.Proofs.SizeGrammar
import Backref.Proofs.SizeMantissa
import Backref.Proofs.StillFiles
import Backref.Proofs.Tuning
import Backref.Proofs.WindowSize
import Backref.Report
import Backref.Scan
import Backref.Search.Longest
import Backref.Search.Params
import Backref.Session
import Backref.Size
import Backref.Stats.Basic
import Backref.Stats.Tally
import Backref.Text.Blank
import Backref.Text.Numeral
import Backref.Token.Basic
import Backref.Token.Expand
import Backref.Window
