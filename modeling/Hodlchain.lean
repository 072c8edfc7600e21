import Hodlchain.Lib.Action
import Hodlchain.Lib.Bytes
import Hodlchain.Lib.Json
import Hodlchain.Lib.Lead
import Hodlchain.Lib.MerkleTree
import Hodlchain.Lib.Orbit
import Hodlchain.Lib.Overwrite
import Hodlchain.Lib.Record
import Hodlchain.Lib.Regroup
import Hodlchain.Lib.Result
import Hodlchain.Lib.Spelling
import Hodlchain.Lib.System
import Hodlchain.Lib.Table
import Hodlchain.Lib.WaitFor
import Hodlchain.Core.Primitives
import Hodlchain.Core.Address
import Hodlchain.Core.AddressForms
import Hodlchain.Core.Consensus
import Hodlchain.Core.Tx
import Hodlchain.Core.TxsRoot
import Hodlchain.Core.Smt
import Hodlchain.Core.SmtSpec
import Hodlchain.Core.FullTree
import Hodlchain.Core.SmtUpdate
import Hodlchain.Core.State
import Hodlchain.Core.StateTree
import Hodlchain.Core.Counting
import Hodlchain.Core.Weighing
import Hodlchain.Core.SmtAccounts
import Hodlchain.Core.Rpc
import Hodlchain.Core.Binding
import Hodlchain.Core.Block
import Hodlchain.Core.Proof
import Hodlchain.Core.Signing
import Hodlchain.Core.Witness
import Hodlchain.Core.Locality
import Hodlchain.Core.Effect
import Hodlchain.Core.Supply
import Hodlchain.Core.Touched
import Hodlchain.Core.Accepted
import Hodlchain.Core.Rejected
import Hodlchain.Core.Replay
import Hodlchain.Core.OpReturn
import Hodlchain.Core.Pushes
import Hodlchain.Bitcoin.Chain
import Hodlchain.Bitcoin.RelativeLock
import Hodlchain.Wallet.Verify
import Hodlchain.Wallet.Esplora
import Hodlchain.Wallet.Bootstrap
import Hodlchain.Wallet.Balance
import Hodlchain.Wallet.SparseLedger
import Hodlchain.Wallet.Refinement
import Hodlchain.Wallet.Encryption
import Hodlchain.Wallet.WalletFile
import Hodlchain.Wallet.Unlock
import Hodlchain.Wallet.Document
import Hodlchain.Wallet.Disk
import Hodlchain.Wallet.Reclaim
import Hodlchain.Wallet.Ops
import Hodlchain.Wallet.Growth
import Hodlchain.Wallet.Determinism
import Hodlchain.Wallet.Resolution
import Hodlchain.Node.Bitcoind
import Hodlchain.Node.Links
import Hodlchain.Node.MintReplay
import Hodlchain.Node.TwoWalks
import Hodlchain.Node.Store
import Hodlchain.Node.Follower
import Hodlchain.Node.Batch
import Hodlchain.Node.Backing
import Hodlchain.Node.Termination
import Hodlchain.Node.Run
import Hodlchain.Node.History
import Hodlchain.Node.Bodies
import Hodlchain.Node.CoreStep
import Hodlchain.Node.Recovery
import Hodlchain.Node.Feed
import Hodlchain.Node.Snapshot
import Hodlchain.Node.Sections
import Hodlchain.Node.Agreement
import Hodlchain.Sequencer.Store
import Hodlchain.Sequencer.Shared
import Hodlchain.Sequencer.Producer
import Hodlchain.Node.Canonical
import Hodlchain.Node.FirstRun
import Hodlchain.Wallet.Finality
import Hodlchain.Wallet.Projection
import Hodlchain.Wallet.Lifecycle
import Hodlchain.Wallet.Failure
import Hodlchain.Wallet.Maturity
import Hodlchain.Wallet.LightHead
import Hodlchain.Wallet.Tally
import Hodlchain.Sequencer.Body
import Hodlchain.Sequencer.Production
import Hodlchain.Sequencer.Run
import Hodlchain.Sequencer.Rows
import Hodlchain.Sequencer.Mempool
import Hodlchain.Sequencer.Nonce
import Hodlchain.Sequencer.Atomic
import Hodlchain.Sequencer.Honest
import Hodlchain.Sequencer.Stamping
import Hodlchain.Sequencer.ActiveLock
import Hodlchain.Sequencer.Reorg
import Hodlchain.Sequencer.Recording
import Hodlchain.Sequencer.FirstAttestation
import Hodlchain.Sequencer.Daemon
import Hodlchain.Sequencer.MintsFirst
import Hodlchain.Sequencer.Moves
import Hodlchain.Sequencer.Interleaving
import Hodlchain.Sequencer.Nullifiers
import Hodlchain.Sequencer.Equivocation
import Hodlchain.Sequencer.Promises
import Hodlchain.Sequencer.Snapshots
import Hodlchain.Sequencer.FirstRun
import Hodlchain.Desktop.State
import Hodlchain.Desktop.Session
import Hodlchain.Desktop.Isolation
import Hodlchain.Desktop.Updates
import Hodlchain.Desktop.AddressField
import Hodlchain.Desktop.Locks
import Hodlchain.Wallet.Served
import Hodlchain.Node.Archive
import Hodlchain.Wallet.Deployment
import Hodlchain.Node.CatchUp
import Hodlchain.Node.Facade
import Hodlchain.Wallet.Posting
import Hodlchain.Wallet.Running
import Hodlchain.Wallet.Journal
import Hodlchain.Wallet.Owner
import Hodlchain.Bitcoin.Tapscript
import Hodlchain.Wallet.SpendPaths
import Hodlchain.Node.Locked
