import Serai.Primitives
import Serai.Lib.Layer
import Serai.Lib.Ledger
import Serai.Coins.Pallet
import Serai.Coins.Supply
import Serai.Dex.Pricing
import Serai.Dex.Pallet
import Serai.Tributary.Spec
import Serai.ValidatorSets.Pallet
import Serai.ValidatorSets.Calls
import Serai.ValidatorSets.Stake
import Serai.InInstructions.Pallet
import Serai.InInstructions.Validate
import Serai.InInstructions.Batches
import Serai.Dkg.Run
import Serai.Lib.Fold
import Serai.Coordinator.Cosign
import Serai.Lib.Kv
import Serai.Tributary.Block
import Serai.Tributary.Mempool
import Serai.Tributary.Provided
import Serai.Tributary.Blockchain
import Serai.Tendermint.MessageLog
import Serai.Tendermint.Round
import Serai.Tendermint.Machine
import Serai.Tendermint.Finalizer
import Serai.Tendermint.EndTime
import Serai.Processor.Amortize
import Serai.Processor.Scheduler
import Serai.Processor.PrepareSend
import Serai.Coordinator.Transaction
import Serai.Coordinator.Handle
import Serai.Coordinator.DkgShares
import Serai.Tributary.Agreement
import Serai.Tendermint.Locking
import Serai.Lib.Msm
import Serai.Crypto.Straus
import Serai.Crypto.Pippenger
import Serai.Dkg.View
import Serai.Dkg.Musig
import Serai.Bitcoin.Transaction
import Serai.Bitcoin.Send
import Serai.Monero.Clsag
import Serai.Monero.ClsagProofs
import Serai.Monero.Serialize
import Serai.MessageQueue.Queue
import Serai.Lib.KeyOrder
import Serai.ValidatorSets.Sorted
import Serai.Monero.Address
import Serai.Coordinator.SubstrateCosign
import Serai.Signals.Pallet
import Serai.Signals.LockIn
import Serai.Tendermint.Quorum
import Serai.Crypto.Ladder
import Serai.ValidatorSets.Amortize
import Serai.Monero.Seed
import Serai.Processor.Encoding
import Serai.Lib.Pratt
import Serai.Lib.FourthRoots
import Serai.Crypto.DalekField
import Serai.Monero.Polyseed
import Serai.Mini.Activation
import Serai.Lib.PrefixCode
import Serai.Crypto.Transcript
import Serai.Crypto.Aggregate
import Serai.Tributary.Validators
import Serai.Crypto.Dleq
import Serai.Frost.Nonce
import Serai.Frost.Run
import Serai.Frost.Musig
