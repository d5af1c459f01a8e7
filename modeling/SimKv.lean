import SimKv.Election
import SimKv.Compaction
import SimKv.Acknowledgement
import SimKv.PreVote
import SimKv.Kv.Membership
import SimKv.Kv.Reads
import SimKv.Kv.Applied
import SimKv.Kv.Transfer
import SimKv.Kv.Image
import SimKv.Kv.Answers
import SimKv.Kv.OneByOne
import SimKv.Recovery
import SimKv.Conflict
import SimKv.Installation
import SimKv.Failure
import SimKv.Checker.Verdict
import SimKv.Checker.Renaming
import SimKv.Checker.Stack
import SimKv.Checker.Durability
import SimKv.Checker.Sequential
import SimKv.Checker.Watermarks
import SimKv.Uncompacted
import SimKv.Completions
import SimKv.Raft.Batches
import SimKv.Raft.Commit
import SimKv.BackUp
import SimKv.Assertions
import SimKv.Checksum
import SimKv.Random
import SimKv.Platter
import SimKv.Timers
import SimKv.Shrink
import SimKv.Honest
import SimKv.Safety
import SimKv.Calm
import SimKv.Kv.Asking
import SimKv.Kv.Backing
import SimKv.Kv.Placement
import SimKv.Kv.Verdicts
