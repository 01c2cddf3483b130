import Spn.Lib.Replay
import Spn.Lib.Countdown
import Spn.Lib.WaitCycle
import Spn.Paths
import Spn.Strings
import Spn.Git.Url
import Spn.Codegen.Json
import Spn.Paths.Spelling
import Spn.Dag.Types
import Spn.Dag.Keys
import Spn.Dag.Run
import Spn.Dag.Wellformed
import Spn.Dag.Dispatch
import Spn.Dag.Books
import Spn.Dag.Invariant
import Spn.Dag.Observed
import Spn.Lib.Sorted
import Spn.Dag.Canonical
import Spn.Dag.Bookkeeping
import Spn.Dag.Turns
import Spn.Dag.Stall
import Spn.Dag.Files
import Spn.Dag.CacheFiles
import Spn.Dag.CacheFields
import Spn.Dag.Lossless
import Spn.Dag.HintFile
import Spn.Dag.Soundness
import Spn.Semver
import Spn.Lib.Table
import Spn.Resolve.Types
import Spn.Resolve.Canonical
import Spn.Resolve.Search
import Spn.Resolve.Scopes
import Spn.Lib.DepthFirst
import Spn.Lib.PostOrder
import Spn.Link.Closure
import Spn.Link.Staged
import Spn.Link.Stage
import Spn.Link.OutputDir
import Spn.Link.Exact
import Spn.Link.Privacy
import Spn.Resolve.Commit
import Spn.Resolve.Answers
import Spn.Resolve.Pins
import Spn.Resolve.Rounds
import Spn.Resolve.Group
import Spn.Resolve.Instances
import Spn.Resolve.Outcome
import Spn.Resolve.Identity
import Spn.Resolve.Rollback
import Spn.Resolve.Registered
import Spn.Resolve.Reentry
import Spn.Resolve.Greedy
import Spn.Resolve.Ends
import Spn.Lib.Saturate
import Spn.Resolve.Finishing
import Spn.Resolve.Deeper
import Spn.Resolve.Halting
import Spn.Semver.Parse
import Spn.Semver.Print
import Spn.Lib.Terminated
import Spn.Lib.Words
import Spn.Lib.Worklist
import Spn.Options.Merge
import Spn.Options.Apply
import Spn.Options.Gates
import Spn.Options.Pruning
import Spn.Lib.Merkle
import Spn.Options.Fingerprint
import Spn.Options.Said
import Spn.Options.Reflect
import Spn.Options.Meaning
import Spn.Lib.Interleave
import Spn.Lib.Lines
import Spn.Publish.Git
import Spn.Publish.Steps
import Spn.Publish.Transaction
import Spn.Index.Codec
import Spn.Index.Release
import Spn.Index.Build
import Spn.Index.RoundTrip
import Spn.Index.Append
import Spn.Lib.Toml
import Spn.Lib.Framed
import Spn.Lib.Reader
import Spn.Lib.Json
import Spn.Lib.Linked
import Spn.Queue.Types
import Spn.Queue.Order
import Spn.Queue.Wake
import Spn.Queue.Reliable
import Spn.Lib.Decimal
import Spn.Lock.Build
import Spn.Lock.Text
import Spn.Lock.Parse
import Spn.Lock.Reproduce
import Spn.Lib.Glob
import Spn.Glob.Shape
import Spn.Glob.Tree
import Spn.Glob.Rows
import Spn.Dag.CacheKeys
import Spn.Glob.Determined
import Spn.Glob.Answers
import Spn.Trees.Steps
import Spn.Trees.Calls
import Spn.Trees.Kept
import Spn.Trees.Discipline
import Spn.Trees.Specs
import Spn.Trees.Filled
import Spn.Trees.Complete
import Spn.Lib.Tokens
import Spn.Compiler.Rsp
import Spn.Compiler.Occ
import Spn.Compiler.Toc
import Spn.Compiler.TocNames
import Spn.Compiler.Archive
import Spn.Compiler.OccRest
import Spn.Compiler.Depfile
import Spn.Lib.Probing
import Spn.Intern.Table
import Spn.Intern.Stable
import Spn.Paths.Within
import Spn.Dag.Apart
import Spn.Units.Packages
import Spn.Lib.Chain
import Spn.Lib.Except
import Spn.Jtd.Parse
import Spn.Jtd.Checks
import Spn.Jtd.Meaning
import Spn.Jtd.Order
import Spn.Jtd.Followed
import Spn.Lib.Rank
import Spn.Pool.Types
import Spn.Pool.Jobs
import Spn.Pool.Wake
import Spn.Pool.Progress
import Spn.Toml.Edit
import Spn.Toml.Leaves
import Spn.Toml.Strings
import Spn.Toml.Ranges
import Spn.Toml.Splices
import Spn.Toml.Document
import Spn.Toml.Sections
import Spn.Toml.Lossless
import Spn.Toml.Found
import Spn.Toml.Present
import Spn.Toml.Inline
import Spn.Toml.Insert
import Spn.Toml.Line
import Spn.Toml.ReadBack
