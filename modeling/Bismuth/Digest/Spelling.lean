import Bismuth.Digest.Replay

/-!
# Other spellings of a signature

The duplicate check compares signature fields as texts, while the signature schemes see what base64
decodes them to. One signature has many spellings, but only one that base64 encodes to.
-/

namespace Bismuth
open Py

variable {π : Type} {P : Prims} {cfg : Config π} {keys : Text → Prop}

/-- The signature field is the base64 form of some bytes, and it is stored and indexed as it is. -/
structure RawTx.Spelled (tx : RawTx) : Prop where
  canonical : ∃ b, tx.signature = base64Encode b
  short : tx.signature.length ≤ maxTxSignatureLen
  indexable : indexableSig tx.signature = true

/-- Below the fork height every signature field of the block is. -/
def SpelledBlock (cfg : Config π) (n : Node π) (s : Submission) : Prop :=
  (detectFork cfg n).postFork = false → ∀ tx ∈ s.block, tx.Spelled

/-- Fields in base64 form that decode to the same bytes are equal. -/
theorem eq_of_base64Decode (h : ∃ b, s = base64Encode b) (h' : ∃ b, s' = base64Encode b)
    (hd : base64Decode s = base64Decode s') : s = s' := by
  obtain ⟨b, rfl⟩ := h
  obtain ⟨b', rfl⟩ := h'
  rw [base64Decode_encode, base64Decode_encode] at hd
  rw [Option.some.inj hd]

namespace Acceptance
variable {n : Node π} {s : Submission} (a : Acceptance P cfg n s)

theorem node_postFork : a.node.postFork = (detectFork cfg n).postFork := by
  rw [Node.postFork, Node.postFork, a.node_forkHeight, a.node_height, Node.height, Node.height,
    detectFork_eq]

/-- No entry of an accepted block has a signature that is on a row, but for a coinbase after the fork. -/
theorem signature_unseen (hs : cfg.Strict) (htx : tx ∈ s.block)
    (hlast : tx ∈ s.block.dropLast ∨ a.node.postFork = false) :
    n.store.signatureExists P cfg.mode tx.signature (some n.lastBlock) = .ok false := by
  obtain ⟨-, ts, t, hi, hl, -⟩ := a.entries_checked hs
  rw [← a.node_store, ← a.node_lastBlock]
  by_cases hmem : tx ∈ a.init
  · obtain ⟨ot, -, hc⟩ := hi.exists_right hmem
    exact (checkEntry_ok hs.noWaiver (Bool.and_false _) hc).1
  · have hpf := hlast.resolve_left (by rwa [a.init_eq])
    obtain rfl : tx = a.last := by
      rw [a.block, List.mem_append, List.mem_singleton] at htx
      exact htx.resolve_left hmem
    exact (checkEntry_ok hs.noWaiver (by rw [hpf, Bool.false_and]) hl).1

theorem row_signature (hr : r ∈ a.rows) (hx : ∀ tx ∈ s.block, tx.signature.length ≤ maxTxSignatureLen) :
    ∃ tx ∈ s.block, r.signature = tx.signature := by
  obtain ⟨tx, htx, f, hf, hrow⟩ := a.exists_tx hr
  obtain ⟨-, -, hfields⟩ := RawTx.fields_ok hf
  refine ⟨tx, htx, ?_⟩
  rw [hrow]
  show f.signature = tx.signature
  rw [hfields]
  exact List.take_of_length_le (hx tx htx)

end Acceptance

/-- A payment of `alice`, and the same one with a signature field that base64 reads alike. -/
def paidNode : Node Unit := nodeAfter .decimal none [minedBlock, payingBlock alice ['1']]

def respelledTx : RawTx :=
  smallTx "1500000050.00".toList alice bob ['1'] ['A', 'A', 'A', 'B', '!']

def respelledBlock : Submission :=
  smallBlock [respelledTx, aliceMines "1500000200.00".toList ['A', 'A', 'A', 'D']]

def respelledFields : TxTuple where
  timestamp := "1500000050.00".toList
  address := alice
  recipient := bob
  amount := "1.00000000".toList
  signature := ['A', 'A', 'A', 'B', '!']
  publicKey := []
  operation := ['0']
  openfield := ['0']

end Bismuth
