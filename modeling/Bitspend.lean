import Bitspend.Node.Saving
import Bitspend.Node.Sending
import Bitspend.Node.Storage
import Bitspend.Node.Payment
import Bitspend.Wallet.Reports
import Bitspend.Chain.Agreement
import Bitspend.Chain.Balance
import Bitspend.Chain.Coverage
import Bitspend.Chain.FilterCheck
import Bitspend.Chain.InStep
import Bitspend.Chain.Reorg
import Bitspend.Wallet.FeePaid
import Bitspend.Wallet.Signable
import Bitspend.Wallet.Insufficient
import Bitspend.Wallet.Failures
import Bitspend.Wallet.Passes
import Bitspend.Wire.Panics
import Bitspend.Wire.Validation
import Bitspend.Wire.ShortWrites
import Bitspend.Wire.Truncation
import Bitspend.Wire.Canonical
import Bitspend.Kv.Dangling
import Bitspend.Kv.AppendOnly
import Bitspend.Kv.LastWriter
import Bitspend.Kv.Unseen
import Bitspend.Kv.Scan
import Bitspend.Kv.Crash
import Bitspend.Kv.Compaction
import Bitspend.Filter.Returns
import Bitspend.Chain.CatchUp
import Bitspend.Node.Messages
import Bitspend.Node.Scripts
