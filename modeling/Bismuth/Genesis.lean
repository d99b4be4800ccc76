import Bismuth.Digest.Process

/-!
# The genesis block and the reorg rollback

`ledger_genesis.py`, `chain_ops.seed_genesis` and `chain_ops._roll_to_locked`.
-/

namespace Bismuth
open Py

variable {π : Type} (P : Prims) (cfg : Config π)

/-! ## Genesis -/

def genesisHeight : Nat := 1

def genesisAddress : Text := "4edadac9093d9326ee4b17f869b14f1a2534f96f9c5d7b48dc9acaed".toList

def genesisBlockHash : Text := "7a0f384876aca3871adbde8622a87f8b971ede0ed8ee10425e3958a1".toList

def genesisSignature : Text :=
  "DKiWVr+GQHrsEUlu3qEQnsB5rznU4Is7RFLnPmHM1grobiUFHup0kSWiN83gBkNS9LgE57RXUEJvxMKc+9hIAzYE8EwGtO3RsXxkqPTT1v19CguN0iqE4nIM8Bur53/Djs5a1bH/R8EMersemZY1bDJ4jTeeba6yqFxmevGk/gw=".toList

def genesisPublicKey : Text :=
  "-----BEGIN PUBLIC KEY-----\nMIGfMA0GCSqGSIb3DQEBAQUAA4GNADCBiQKBgQDKvLTbDx85a1ugb/6xMMhVOq6U\n2GeYT8+Iq2z9FwIMR40l2ttGqNK7varNccFLIu8Kn4ogDQs3WSWQCxNkhZh/FqzF\nYYa3/ItPPfzrXqgajwD8q4Zt4Ymjt8+2BkImPjjFNkuTQIz2Iu3yFqOIxLdjMw7n\nUVu9tFPiUkD0VnDPLQIDAQAB\n-----END PUBLIC KEY-----".toList

def genesisRow (mode : Mode) : Row where
  height := genesisHeight
  timestamp := "1493640955.47".toList
  address := "genesis".toList
  recipient := genesisAddress
  amount := ['0']
  signature := genesisSignature
  publicKey := genesisPublicKey
  blockHash := genesisBlockHash
  fee := ['0']
  reward := match mode with
    | .integer => "100000000".toList
    | .decimal => ['1']
  operation := ['1']
  openfield := "genesis".toList

def mainnetAllocations : OrdTable Text Int where
  entries :=
    [("3e08b5538a4509d9daa99e01ca5912cda3e98a7f79ca01248c2bde16".toList, 652116733333333),
      ("4edadac9093d9326ee4b17f869b14f1a2534f96f9c5d7b48dc9acaed".toList, 315147652720086)]
  sorted := by decide +kernel

def Config.allocations : OrdTable Text Int :=
  if cfg.network = .mainnet then mainnetAllocations else ∅

def Config.genesisDifficulty : Val := .int (if cfg.network = .regnet then 16 else 1)

/-- `seed_genesis` into an empty ledger. -/
def seedGenesis : Except Err Store := do
  let st ← commitBlock P cfg.mode {} genesisHeight genesisBlockHash [genesisRow cfg.mode]
    (some cfg.genesisDifficulty) none
  setAllocations st cfg.allocations

/-! ## Going back for another branch -/

def Store.lastBlockTimestamp (mode : Mode) (st : Store) : Except Err Number := do
  let row ← (match st.tip with
    | some tip => st.coinbase P mode tip
    | none => .ok none)
  match row with
  | some r => if r.timestamp.truthy then quantizeTwo r.timestamp else return .ofRat 0
  | none => return .ofRat 0

def rollToLocked (ancestor : Nat) : Digest π Unit := do
  rollbackUnder P cfg (ancestor + 1 : Nat)
  Run.modify fun n => { n with plugins := cfg.onRollback (ancestor + 1) n.plugins }
  let stamp ← Run.lift ((← Run.get).store.lastBlockTimestamp P cfg.mode)
  Run.modify fun n => { n with lastBlockTimestamp := stamp }
  let hash ← Run.lift (← Run.get).store.lastBlockHash
  Run.modify fun n => { n with lastBlock := ancestor, lastBlockHash := hash }

end Bismuth
