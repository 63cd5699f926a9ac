import WalletLedger.Indexer
import WalletLedger.Store.Damage
import WalletLedger.Proofs.History
import WalletLedger.Proofs.Write
import WalletLedger.Proofs.Calls
import WalletLedger.Proofs.WellFormed
import WalletLedger.Proofs.Deposits
import WalletLedger.Proofs.TopUp
import WalletLedger.Proofs.Sources
import WalletLedger.Proofs.Payments
import WalletLedger.Proofs.Rollback
import WalletLedger.Proofs.Undo
import WalletLedger.Proofs.Locator
import WalletLedger.Proofs.Reorg
import WalletLedger.Proofs.Closure
import WalletLedger.Proofs.Settling
import WalletLedger.Proofs.Mempool
import WalletLedger.Proofs.Blocks
import WalletLedger.Proofs.Confirmed
import WalletLedger.Proofs.Share
import WalletLedger.Proofs.Advance
import WalletLedger.Proofs.Modes
import WalletLedger.Proofs.Reapply
import WalletLedger.Proofs.Staging
import WalletLedger.Proofs.Columns
import WalletLedger.Proofs.Watching
import WalletLedger.Proofs.Heights
import WalletLedger.Proofs.Refusals
import WalletLedger.Proofs.Spending
import WalletLedger.Proofs.Removal
import WalletLedger.Proofs.Rewind
import WalletLedger.Proofs.Ancestor
import WalletLedger.Proofs.Scanning
import WalletLedger.Proofs.Iterations
import WalletLedger.Proofs.BlockLists
import WalletLedger.Proofs.Backoff
import WalletLedger.Proofs.Reading
import WalletLedger.Proofs.Funds
import WalletLedger.Proofs.Buffers
import WalletLedger.Proofs.KeyEncodings
import WalletLedger.Proofs.KeyPayments
import WalletLedger.Proofs.StoredLocators
