import Tacit.Lib.LinkedTree
import Tacit.Keccak
import Tacit.Imt
import Tacit.Lib.Machine
import Tacit.Lib.Prog
import Tacit.Lib.SortedMap
import Tacit.Notes
import Tacit.Amm
import Tacit.Reflection.State
import Tacit.Bitcoin
import Tacit.Reflection.Folds
import Tacit.Reflection.SwapBatch
import Tacit.BurnDeposit
import Tacit.Reflection.Scan
import Tacit.Reflection.Sets
import Tacit.Reflection.Value
import Tacit.Reflection.Independence
import Tacit.Reflection.Exits
import Tacit.Reflection.Conservation.Notes
import Tacit.Reflection.Conservation.Swaps
import Tacit.Reflection.Conservation.Liquidity
import Tacit.Reflection.Conservation.Scan
import Tacit.Reflection.Updates
import Tacit.Reflection.Cbtc
import Tacit.Reflection.Crossout
import Tacit.Evm
import Tacit.Relay.State
import Tacit.Relay.ForkChoice
import Tacit.Relay.Difficulty
import Tacit.Relay.Mined
import Tacit.Lib.BigEndian
import Tacit.Lib.Chunks
import Tacit.Guest.Deferral
import Tacit.Pool.Drain
import Tacit.Bitcoin.Headers
import Tacit.Lib.PairedTree
import Tacit.Bitcoin.Block
import Tacit.Bitcoin.Completeness
import Tacit.Lib.Frontier
import Tacit.Lib.Zoom
import Tacit.Lib.Throws
import Tacit.Lib.Tombstones
import Tacit.Pool.ReflectionLib
import Tacit.Pool.Anchoring
import Tacit.Pool.Overflow
import Tacit.Pool.State
import Tacit.Pool.Assets
import Tacit.Pool.PublicAmm
import Tacit.Pool.Settle
import Tacit.Pool.Calls
import Tacit.Pool.Frames
import Tacit.Pool.SpendOnce
import Tacit.Pool.NoteTree
import Tacit.Pool.Floor
import Tacit.Reflection.Utxo
import Tacit.Reflection.Witnessed
import Tacit.Pool.ShareValue
import Tacit.Pool.Retirement
import Tacit.Pool.Router
import Tacit.Lib.RewardIndex
import Tacit.Reflection.Farm.Moves
import Tacit.Reflection.Farm.Ledger
import Tacit.Reflection.Farm.Progress
import Tacit.Reflection.Farm.Width
import Tacit.Reflection.Farm.Treasury
import Tacit.Reflection.Farm.Leaving
import Tacit.Controller.Farm
import Tacit.Controller.FarmSolvency
import Tacit.Collateral.Policy
import Tacit.Collateral.Engine
import Tacit.Collateral.Savings
import Tacit.Collateral.Accounts
import Tacit.Collateral.FeeBudget
import Tacit.Lib.Tally
import Tacit.Collateral.Escrow
import Tacit.Collateral.EscrowSafety
import Tacit.Guest.Batch
import Tacit.Guest.Farm
import Tacit.Guest.Receipts
import Tacit.Guest.Controller
import Tacit.Guest.Exit
import Tacit.Guest.FarmStamps
import Tacit.Guest.SavingsStamps
import Tacit.Guest.Positions
import Tacit.EvmPool.Checkpoints
import Tacit.EvmPool.Chain
import Tacit.EvmPool.Circuit
import Tacit.EvmPool.Contract
import Tacit.EvmPool.Calls
import Tacit.EvmPool.Log
import Tacit.Market.ProofMarket
import Tacit.Market.Bonds
import Tacit.Vault.TacVault
import Tacit.Vault.Ledger
import Tacit.EvmPool.Solvency
import Tacit.Amm.Quote
import Tacit.Amm.Clearing
import Tacit.Amm.ProtocolFee
import Tacit.Relay.Compact
import Tacit.Lib.Derivation
import Tacit.Provenance.Dag
import Tacit.Lib.Cursor
import Tacit.Lib.LittleEndian
import Tacit.Provenance.Blob
import Tacit.Lib.Grammar
import Tacit.Bitcoin.Wire
import Tacit.Bitcoin.Walks
import Tacit.Bitcoin.Transaction
import Tacit.Bitcoin.Binding
import Tacit.Lib.Ranks
import Tacit.Lib.InsertionSort
import Tacit.Oracle.IntervalOracle
import Tacit.Oracle.Ring
import Tacit.Oracle.Medians
import Tacit.Lib.Traceless
import Tacit.Reflection.Skips
import Tacit.Reflection.Farm.Registered
import Tacit.Lib.PauseClock
import Tacit.Vault.Steps
import Tacit.Vault.Clock
import Tacit.Vault.Loans
import Tacit.Lib.Reader
import Tacit.BtcPool.Secp
import Tacit.BtcPool.Body
import Tacit.BtcPool.Spend
import Tacit.Indexer.Chain
import Tacit.Indexer.Formats
import Tacit.Indexer.Blocks
import Tacit.Indexer.Source
import Tacit.Indexer.Honest
import Tacit.Lib.Rows
import Tacit.Lib.InsertionMap
import Tacit.Replay.Envelopes
import Tacit.Replay.Tree
import Tacit.Replay.State
import Tacit.Replay.Reach
import Tacit.Replay.Abort
import Tacit.Lib.Batch
import Tacit.EvmPool.WalletTree
import Tacit.EvmPool.WalletSound
import Tacit.EvmPool.BuildWitness
import Tacit.Lib.Caught
import Tacit.Lib.Paging
import Tacit.Lib.Parallel
import Tacit.Lib.PartitionPoint
import Tacit.Lib.Stamped
import Tacit.Replay.Accepting
import Tacit.Replay.Anchored
import Tacit.Replay.Carriers
import Tacit.Replay.Client
import Tacit.Replay.Spending
import Tacit.Replay.Wallet
import Tacit.Replay.Following
