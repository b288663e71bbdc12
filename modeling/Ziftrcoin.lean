import Ziftrcoin.Proofs.Clock
import Ziftrcoin.Proofs.SharedTemplate
import Ziftrcoin.Proofs.Rivals
import Ziftrcoin.Proofs.BlockSource
import Ziftrcoin.Proofs.KeyReservations
import Ziftrcoin.Proofs.BlockRegions
import Ziftrcoin.Proofs.ParallelConnect
import Ziftrcoin.Proofs.ViewRefinement
import Ziftrcoin.Proofs.FinalAlert
import Ziftrcoin.Proofs.Malleability
import Ziftrcoin.Proofs.PartialMerkle
import Ziftrcoin.Proofs.OrphanForest
import Ziftrcoin.Proofs.PeerConnection
import Ziftrcoin.Proofs.BlockIndexReload
import Ziftrcoin.Proofs.LockTimeInput
import Ziftrcoin.Proofs.SigOpBound
import Ziftrcoin.Proofs.RedeemScript
import Ziftrcoin.Proofs.FailedEncryption
import Ziftrcoin.Proofs.SighashReference
import Ziftrcoin.Proofs.BlockTemplate
import Ziftrcoin.Proofs.MedianTime
import Ziftrcoin.Proofs.ForkWarnings
import Ziftrcoin.Proofs.PaymentAccounts
import Ziftrcoin.Proofs.CombinedSignatures
import Ziftrcoin.Proofs.CoinTotal
import Ziftrcoin.Proofs.TriedEviction
import Ziftrcoin.Proofs.TimeOffset
import Ziftrcoin.Proofs.Reordering
import Ziftrcoin.Proofs.BloomSpending
import Ziftrcoin.Proofs.AddressGroups
import Ziftrcoin.Proofs.InventoryItems
import Ziftrcoin.Proofs.Rescanning
import Ziftrcoin.Proofs.AddrManReload
import Ziftrcoin.Proofs.CompactNumbers
import Ziftrcoin.Proofs.CanonicalSignature
import Ziftrcoin.Proofs.ScriptBuilding
import Ziftrcoin.Proofs.LimitedMap
import Ziftrcoin.Proofs.BaseUint
import Ziftrcoin.Proofs.Money
import Ziftrcoin.Proofs.Base64
import Ziftrcoin.Proofs.CachedSignatures
import Ziftrcoin.Proofs.KeyDerivation
import Ziftrcoin.Proofs.AddressText
