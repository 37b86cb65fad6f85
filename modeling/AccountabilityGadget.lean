import AccountabilityGadget.Checkpoint.Node
import AccountabilityGadget.Checkpoint.Voting
import AccountabilityGadget.Checkpoint.Pausing
import AccountabilityGadget.Consensus.Verified
import AccountabilityGadget.Consensus.Rounds
import AccountabilityGadget.Consensus.Equivocation
import AccountabilityGadget.Consensus.VoteOrder
import AccountabilityGadget.Consensus.Ancestors
import AccountabilityGadget.Consensus.Aggregation
import AccountabilityGadget.Consensus.InFlight
import AccountabilityGadget.Consensus.Overflow
import AccountabilityGadget.Consensus.Proposals
import AccountabilityGadget.Consensus.Resume
import AccountabilityGadget.Consensus.Timer
import AccountabilityGadget.Mempool.Cleanup
import AccountabilityGadget.Mempool.Replica
import AccountabilityGadget.Ledger.Agreement
import AccountabilityGadget.LongestChain.EarlyCheckpoint
import AccountabilityGadget.LongestChain.Miner
import AccountabilityGadget.LongestChain.Convergence
import AccountabilityGadget.LongestChain.PrefixOrder
import AccountabilityGadget.SignedMessages
import AccountabilityGadget.LongestChain.Adversary
import AccountabilityGadget.Ledger.Extraction
import AccountabilityGadget.Ledger.Closure
import AccountabilityGadget.LongestChain.Representation
import AccountabilityGadget.KeyText
import AccountabilityGadget.Consensus.Threshold
import AccountabilityGadget.Ledger.Duplicates
import AccountabilityGadget.Mempool.PayloadMaker
import AccountabilityGadget.Mempool.WakeUp
import AccountabilityGadget.Checkpoint.Lockstep
import AccountabilityGadget.Checkpoint.Agreement
import AccountabilityGadget.Checkpoint.Threshold32
import AccountabilityGadget.Ledger.Availability
import AccountabilityGadget.Transport.Delivery
import AccountabilityGadget.Gossip.Drain
import AccountabilityGadget.Gossip.Ports
