import Mimori.Base.Base64
import Mimori.Base.Chosen
import Mimori.Base.Decimal
import Mimori.Base.Json
import Mimori.Base.JsonValue
import Mimori.Base.Linearizable
import Mimori.Base.Overwrite
import Mimori.Base.Quorum
import Mimori.Base.Replace
import Mimori.Base.Run
import Mimori.Base.Search
import Mimori.Base.Strings
import Mimori.Base.TermLog
import Mimori.Base.Utf8
import Mimori.Base.Word
import Mimori.Raft.Core
import Mimori.Raft.Outcomes
import Mimori.Raft.Rpc
import Mimori.Raft.RpcClient
import Mimori.Raft.Types
import Mimori.Cluster.Cases
import Mimori.Cluster.Effects
import Mimori.Cluster.Fixed
import Mimori.Cluster.Runs
import Mimori.Cluster.Step
import Mimori.Election.Contender
import Mimori.Election.Hint
import Mimori.Election.Leaders
import Mimori.Election.Lease
import Mimori.Election.Membership
import Mimori.Election.Outsiders
import Mimori.Election.Redirect
import Mimori.Election.Restarts
import Mimori.Election.Roles
import Mimori.Election.Safety
import Mimori.Election.Votes
import Mimori.Log.Agreement
import Mimori.Log.Change
import Mimori.Log.Compaction
import Mimori.Log.History
import Mimori.Log.Index
import Mimori.Log.Ledger
import Mimori.Log.Matching
import Mimori.Log.Merge
import Mimori.Log.Moves
import Mimori.Log.Order
import Mimori.Log.Placed
import Mimori.Log.Progress
import Mimori.Replication.Addressed
import Mimori.Replication.Heartbeat
import Mimori.Replication.Lagging
import Mimori.Replication.Monotone
import Mimori.Replication.NextIndex
import Mimori.Replication.Pipeline
import Mimori.Replication.Probe
import Mimori.Replication.Rounds
import Mimori.Replication.Speak
import Mimori.Replication.Transfer
import Mimori.Apply.Acknowledged
import Mimori.Apply.Executed
import Mimori.Apply.Restore
import Mimori.Apply.Shutdown
import Mimori.Apply.Snapshots
import Mimori.Apply.Store
import Mimori.Apply.Taken
import Mimori.Apply.Voters
import Mimori.Apply.Waiters
import Mimori.Apply.Woken
import Mimori.Storage.Config
import Mimori.Storage.Failures
import Mimori.Storage.Files
import Mimori.Storage.Meta
import Mimori.Storage.OneVote
import Mimori.Storage.Pebble
import Mimori.Storage.Peers
import Mimori.Storage.Removed
import Mimori.Storage.Restart
import Mimori.Storage.Roster
import Mimori.Storage.Stores
import Mimori.Storage.Table
import Mimori.Storage.Terms
import Mimori.Commit.Acks
import Mimori.Commit.Advance
import Mimori.Commit.Available
import Mimori.Commit.Committed
import Mimori.Commit.Complete
import Mimori.Commit.Completeness
import Mimori.Commit.Delivery
import Mimori.Commit.Deposed
import Mimori.Commit.Execution
import Mimori.Commit.Handover
import Mimori.Commit.Onward
import Mimori.Commit.Prefixes
import Mimori.Commit.Quorum
import Mimori.Commit.Reads
import Mimori.Commit.Restarts
import Mimori.Commit.Safety
import Mimori.Commit.Stores
import Mimori.Commit.Winnable
import Mimori.Commit.WriteThrough
import Mimori.Client.Backoff
import Mimori.Client.Calls
import Mimori.Client.Linear
import Mimori.Client.Once
import Mimori.Client.Places
import Mimori.Client.Retry
import Mimori.Client.Session
import Mimori.Api.Addresses
import Mimori.Api.Commands
import Mimori.Api.Refusals
