import L1.Acceptance
import L1.Admission
import L1.BaseFee
import L1.Clocks
import L1.ConsensusWal
import L1.Ecvrf
import L1.Eviction
import L1.Faucet
import L1.HeadersFirst
import L1.Joining
import L1.Kzg
import L1.Locator
import L1.Lottery
import L1.Messages
import L1.Packets
import L1.PeerSlots
import L1.Pruning
import L1.Reactivation
import L1.Recovery
import L1.Rollback
import L1.Sdk
import L1.Selection
import L1.Snapshots
import L1.StepLog
import L1.StmRefinement
import L1.StoredTip
import L1.Theft
import L1.Unbonding
import L1.Validity
import L1.VersionHistory
import L1.Waves
