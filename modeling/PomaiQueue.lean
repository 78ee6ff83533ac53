import PomaiQueue.SegmentTheorems
import PomaiQueue.SegmentFailures
import PomaiQueue.TornEvents
import PomaiQueue.Produce
import PomaiQueue.Sequences
import PomaiQueue.Deliveries
import PomaiQueue.Leases
import PomaiQueue.Recovery
import PomaiQueue.PointInTime
import PomaiQueue.Automaton
import PomaiQueue.Oversized
import PomaiQueue.StaleAnswers
import PomaiQueue.Schedule
import PomaiQueue.Expiry
import PomaiQueue.Counts
import PomaiQueue.Rescan
import PomaiQueue.Malformed
import PomaiQueue.Sharing
import PomaiQueue.ShardActor
import PomaiQueue.Atomicity
import PomaiQueue.Consume
import PomaiQueue.Lateness
import PomaiQueue.Damage
import PomaiQueue.AckDurability
import PomaiQueue.RoundTrips
import PomaiQueue.Backlog
import PomaiQueue.Checkpoint
import PomaiQueue.Config
import PomaiQueue.Lib.RoundRobin
import PomaiQueue.Sessions
import PomaiQueue.Shards
import PomaiQueue.Contract
import PomaiQueue.ProduceDurability
import PomaiQueue.Register
import PomaiQueue.Programs
import PomaiQueue.Inspection
import PomaiQueue.Clients
