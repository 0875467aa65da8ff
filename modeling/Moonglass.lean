import Moonglass.ForkChoice.Leaves
import Moonglass.ForkChoice.JustifiedState
import Moonglass.ForkChoice.Gossip
import Moonglass.ForkChoice.History
import Moonglass.StateTransition.Casper
import Moonglass.ForkChoice.Checkpoints
import Moonglass.ForkChoice.ExecutionChain
import Moonglass.StateTransition.Handoff
import Moonglass.ForkChoice.InPlace
import Moonglass.StateTransition.BuilderReuse
import Moonglass.StateTransition.HistoryRing
import Moonglass.StateTransition.AvailabilityRing
import Moonglass.StateTransition.QueueOrder
import Moonglass.StateTransition.SlashingPenalty
import Moonglass.StateTransition.MissingErrors
import Moonglass.StateTransition.SweepCoverage
import Moonglass.ForkChoice.Clock
import Moonglass.StateTransition.RegistryPass
import Moonglass.StateTransition.StakeFlow
import Moonglass.StateTransition.EffectiveBalance
import Moonglass.StateTransition.PtcDuties
import Moonglass.ForkChoice.HeadWeakness
import Moonglass.StateTransition.RewardArithmetic
import Moonglass.DataAvailability
import Moonglass.Node.Varint
import Moonglass.Ssz.FullTree
import Moonglass.StateTransition.Eth1Votes
