import Tessera.Net.HeadersSyncHonest
import Tessera.Net.HttpReply
import Tessera.Node.BlockStorageIntact
import Tessera.Script.SigOps
import Tessera.Script.Standard
import Tessera.Tx.Canonical
import Tessera.Tx.Commitment
import Tessera.Tx.MultisigRounds
import Tessera.Validation.Interleaving
import Tessera.Validation.LockTimes
import Tessera.Validation.MerklePath
import Tessera.Validation.Replay
import Tessera.Wallet.Dust
import Tessera.Wallet.Passphrase
import Tessera.Wallet.SelectionSound
import Tessera.Wallet.SignedSize
import Tessera.Wallet.TxoCache
