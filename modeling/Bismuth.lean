import Bismuth.Base58
import Bismuth.Bip39
import Bismuth.Circulating
import Bismuth.Codec.Failures
import Bismuth.Codec.Varint
import Bismuth.Digest.Activation
import Bismuth.Digest.Spelling
import Bismuth.Digest.Supply
import Bismuth.Drop
import Bismuth.Framing
import Bismuth.HeightLie
import Bismuth.KvStore
import Bismuth.Lwma
import Bismuth.Mempool.Bound
import Bismuth.Mempool.Shown
import Bismuth.Multisig
import Bismuth.Outbound
import Bismuth.Pool.Credit
import Bismuth.Pool.Window
import Bismuth.Preimage
import Bismuth.Resolve.Ancestor
import Bismuth.Resolve.Finality
import Bismuth.Resolve.Race
import Bismuth.SelfHeal
import Bismuth.Snapshot
import Bismuth.Stats.Rich
import Bismuth.Store.Reindex
import Bismuth.Store.RoundTrip
import Bismuth.Store.SigLookup
import Bismuth.Token.Aliases
import Bismuth.Token.Removals
import Bismuth.Versions
import Bismuth.Wallet
