import Quantas.Lib.Transition
import Quantas.Lib.Quorum
import Quantas.Common.Faults
import Quantas.Network.Wiring
import Quantas.Network.ChannelContract
import Quantas.Network.RuntimeConfig
import Quantas.Network.Throughput
import Quantas.Network.Schedule
import Quantas.Network.Parallel
import Quantas.Network.Backends
import Quantas.Raft.System
import Quantas.Raft.Election
import Quantas.Raft.Conservation
import Quantas.Raft.Majority
import Quantas.Raft.LiveMajority
import Quantas.Raft.Nesting
import Quantas.Raft.Simulation
import Quantas.Pow.Ghost
import Quantas.Pow.Weights
import Quantas.Pow.CommonPath
import Quantas.Pow.Heights
import Quantas.Pow.Chain
import Quantas.Pow.Leaf
import Quantas.Pow.Release
import Quantas.Pow.Withheld
import Quantas.Pow.Survival
import Quantas.Pbft.Execution
import Quantas.Pbft.Uniqueness
import Quantas.Pbft.Nested
import Quantas.Pbft.ViewChanges
import Quantas.Pbft.Votes
import Quantas.Pbft.Watermarks
import Quantas.Pbft.Equivocation
import Quantas.Pbft.Pacing
import Quantas.Pbft.Steady
import Quantas.Pbft.Simulation
import Quantas.Link.AltBit
import Quantas.Link.StableDataLink
import Quantas.Tcp.CommonGraph
import Quantas.Tcp.StartGate
import Quantas.Tcp.Experiments
import Quantas.Tcp.Planners
import Quantas.Tcp.Framing
import Quantas.BoostMq.ReadyBarrier
import Quantas.BoostMq.Verdict
import Quantas.BoostMq.Accounting
import Quantas.BoostMq.Preflight
import Quantas.BoostMq.ReadyIds
import Quantas.BoostMq.Reliability
import Quantas.Kademlia.Routing
import Quantas.Chord.Routing
import Quantas.Chord.Topologies
import Quantas.BoostMq.Inbox
import Quantas.BoostMq.Progress
import Quantas.Chord.Metrics
import Quantas.Kademlia.Metrics
import Quantas.Lib.LossyRounds
import Quantas.Link.Progress
import Quantas.Pow.Convergence
import Quantas.Pow.Simulation
import Quantas.Raft.Lockstep
