import Bismuth.Digest.Spend

/-!
# Replays

The duplicate checks look at a block's tuples as they arrived, while the signature index and the txid
index are built from the stored rows. Where the two agree, no signature and no content is stored twice,
and the txid index is exact.
-/

namespace Bismuth
open Py

variable {π : Type} {P : Prims} {cfg : Config π} {keys : Text → Prop}

/-! ## The duplicate checks -/

variable {n : Node π}

/-- An entry that is not a coinbase after the fork has a signature that is not in the ledger. -/
theorem checkEntry_ok (hw : cfg.NoWaiver) (hlast : (n.postFork && isLast) = false)
    (h : checkEntry P cfg n tx isLast = .ok ot) :
    n.store.signatureExists P cfg.mode tx.signature (some n.lastBlock) = .ok false ∧
      newTxid P n tx = .ok ot := by
  simp only [checkEntry, hlast, Bool.false_eq_true, if_false, hw _ _ _, Bool.or_false,
    Except.bind_eq_ok, require_eq_ok] at h
  obtain ⟨-, -, seen, hseen, ot', hot, -, hnot, heq⟩ := h
  cases heq
  rw [Bool.not_eq_true'] at hnot
  exact ⟨hnot ▸ hseen, hot⟩

theorem newTxid_ok (hpf : n.postFork = true) (h : newTxid P n tx = .ok ot) :
    ∃ t known, tx.txid P n = .ok t ∧ ot = some t ∧ n.store.txidHeight t = .ok known ∧
      ∀ k, known = some k → n.lastBlock < k := by
  simp only [newTxid, hpf, if_true, Except.bind_eq_ok, require_eq_ok] at h
  obtain ⟨t, ht, known, hknown, -, hnew, heq⟩ := h
  cases heq
  refine ⟨t, known, ht, rfl, hknown, fun k hk => ?_⟩
  subst hk
  simpa using hnew

namespace Acceptance
variable {n : Node π} {s : Submission} (a : Acceptance P cfg n s)

theorem entries_checked (hs : cfg.Strict) : (s.block.map (·.signature)).Nodup ∧ ∃ ts t,
    List.Forall₂ (fun tx ot => checkEntry P cfg a.node tx false = .ok ot) a.init ts ∧
      checkEntry P cfg a.node a.last true = .ok t ∧
      (a.node.postFork = true → ((ts ++ [t]).filterMap id).Nodup) := by
  obtain ⟨-, -, hdup⟩ := checkTransactions_ok a.checked
  obtain ⟨hnodup, txids, hmap, hids⟩ :=
    checkDuplicateSignatures_ok hs.noWaiver (hdup (hs.untrusted _))
  refine ⟨hnodup, ?_⟩
  rw [a.block] at hmap
  obtain ⟨ts, t, rfl, hi, hl⟩ := Except.mapM_zipIdx_concat (g := checkEntry P cfg a.node) hmap
  exact ⟨ts, t, hi, hl, hids⟩

end Acceptance

/-! ## The content of a row -/

/-- The duplicate checks see the content that is stored. -/
structure RawTx.Plain (tx : RawTx) : Prop where
  address : tx.address.length ≤ 56
  recipient : tx.recipient.length ≤ 56
  timestamp : ∀ s, timestampField tx.timestamp = .ok s →
    (v2TsCs tx.timestamp.text : Except Err Int) = v2TsCs s
  amount : ∀ s, amountField tx.amount = .ok s → (v2Units tx.amount.text : Except Err Int) = v2Units s

theorem fixedText_inj (hk : 0 < k) (hk' : k ≤ 100) (hu : u < 10 ^ 100) (hv : v < 10 ^ 100)
    (h : fixedText neg k u = fixedText neg' k v) : u = v := by
  have hval : (Except.ok (.fin (fixedVal neg k u) neg) : Except Err Number) =
      .ok (.fin (fixedVal neg' k v) neg') := by
    rw [← decimal_fixedText neg hk hk' hu, ← decimal_fixedText neg' hk hk' hv, h]
  simp only [Except.ok.injEq, Number.fin.injEq] at hval
  obtain ⟨hval, rfl⟩ := hval
  have hpow : (0 : ℚ) < 10 ^ k := by positivity
  have : (u : ℚ) = v := by
    cases neg <;> simpa [fixedVal, div_left_inj' hpow.ne'] using hval
  exact_mod_cast this

theorem amountField_units (h : amountField v = .ok (fixedText neg 8 u)) (hu : u < 10 ^ 28) :
    floatUnits u = u := by
  simp only [amountField, quantizeAmount, Except.bind_eq_ok] at h
  obtain ⟨y, ⟨d, -, hy⟩, h⟩ := h
  rcases quantize_ok hy with rfl | ⟨w, hw, z, rfl⟩
  · have hnan : ['n', 'a', 'n'] = fixedText neg 8 u := Except.ok.inj h
    have : '.' ∈ fixedText neg 8 u := by simp [fixedText]
    rw [← hnan] at this
    simp at this
  · have hlt := abs_bis_lt hw
    rw [percentFixed_fin hlt] at h
    have hv : (Rat.halfEven (|binary64.round (bis w)| * 10 ^ 8)).natAbs < 10 ^ 100 := by
      have hle := abs_round_lt hlt
      have hmono := Rat.halfEven_mono (mul_le_mul_of_nonneg_right hle (by norm_num : (0 : ℚ) ≤ 10 ^ 8))
      rw [show (2 : ℚ) ^ 200 * 10 ^ 8 = ((2 ^ 200 * 10 ^ 8 : ℤ) : ℚ) by norm_num,
        Rat.halfEven_intCast] at hmono
      have h0 : 0 ≤ Rat.halfEven (|binary64.round (bis w)| * 10 ^ 8) :=
        Rat.halfEven_nonneg (by positivity)
      omega
    obtain rfl := fixedText_inj (by decide) (by decide) hv (hu.trans (by norm_num)) (Except.ok.inj h)
    exact floatUnits_of_round _

theorem v2Units_fixedText {u : Nat} (hneg : neg = true → u = 0) (hu : u < 10 ^ 28) :
    (v2Units (fixedText neg 8 u) : Except Err Int) = .ok u := by
  rw [v2Units, scaledInt_fixedText neg (by decide) (by decide) hu]
  cases neg with
  | false => rfl
  | true => rw [hneg rfl]; rfl

theorem SpendOf.txid {c : RowContext π} (h : SpendOf P cfg c tx r blockFee f debit fees txFee)
    (hp : tx.Plain) (hv : tx.Valid c.node.postFork f)
    (hr : units cfg.mode (.str r.amount) = (.ok k : Except Err Int)) (hpf : c.node.postFork = true) :
    txidOf P cfg.mode r c.node.forkHeight = tx.txid P c.node := by
  obtain ⟨hts, hamt, hf⟩ := RawTx.fields_ok h.fields
  obtain ⟨neg, u, hneg, hfix, hu⟩ := hv.moneyText h.amount hr
  have hunits : (v2Units (fixedText false 8 (floatUnits u)) : Except Err Int) = v2Units f.amount := by
    rw [amountField_units (hfix ▸ hamt) hu.1, hfix, v2Units_fixedText hneg hu.1,
      v2Units_fixedText (by simp) hu.1]
  have hpost : postFork c.node.forkHeight r.height = true := by
    rw [h.row]
    exact hpf
  have hrow := h.row
  rw [hf] at hrow
  rw [txidOf_postFork P hpost hu, hunits, RawTx.txid, txIdAt,
    if_pos (show postFork c.node.forkHeight c.node.height = true from hpf), txIdV2S, hp.timestamp _ hts,
    hp.amount _ hamt, hrow]
  simp only [RowContext.row, capped, hpf, if_true, List.take_of_length_le hp.address,
    List.take_of_length_le hp.recipient]

/-! ## The txid index -/

theorem txidOf_hex (h : txidOf P mode r fh = .ok t) : ∃ d, t = hex d ∧ d ≠ [] := by
  simp only [txidOf, Except.bind_eq_ok] at h
  obtain ⟨_, -, _, -, h⟩ := h
  have key : ∀ b, P.blake2b b ≠ [] := by
    intro b hb
    have := P.length_blake2b b
    rw [hb] at this
    cases this
  rw [txIdAt] at h
  split at h
  · simp only [txIdV2S, Except.bind_eq_ok] at h
    obtain ⟨_, -, _, -, pre, -, h⟩ := h
    cases h
    exact ⟨P.blake2b pre, rfl, key pre⟩
  · cases h
    exact ⟨P.blake2b _, rfl, key _⟩

theorem LiveBlock.mem_txidKeys {b : LiveBlock}
    (hes : indexEntries P mode b.height fh b.rows = .ok es) :
    k ∈ b.txidKeys P mode fh ↔ postFork fh b.height = true ∧
      ∃ r ∈ b.rows, ∃ t, txidOf P mode r fh = .ok t ∧ k = hashKey t := by
  rw [txidKeys, entries_eq hes, List.mem_filterMap]
  constructor
  · rintro ⟨e, he, hk⟩
    obtain ⟨idx, r, hr, hrow⟩ := exists_of_mem_entries (b := b) (by rwa [entries_eq hes])
    obtain ⟨-, -, -, -, -, -, -, -, -, -, -, htxid⟩ := indexEntry_ok hrow
    split at htxid
    · obtain ⟨t, ht, het⟩ := htxid
      refine ⟨‹_›, r, List.mem_of_getElem? hr, t, ht, ?_⟩
      exact Option.some.inj (hk.symm.trans het)
    · rw [htxid] at hk
      cases hk
  · rintro ⟨hpf, r, hr, t, ht, rfl⟩
    obtain ⟨idx, hidx⟩ := List.mem_iff_getElem?.1 hr
    obtain ⟨e, he, hrow⟩ := exists_mem_entries hes hidx
    obtain ⟨-, -, -, -, -, -, -, -, -, -, -, htxid⟩ := indexEntry_ok hrow
    rw [if_pos hpf] at htxid
    obtain ⟨t', ht', het⟩ := htxid
    obtain rfl := Except.ok.inj (ht.symm.trans ht')
    exact ⟨e, he, het⟩

/-- The block's tuples are plain, and no live row has the content of its coinbase. -/
structure FreshTxids (P : Prims) (cfg : Config π) (n : Node π) (s : Submission) : Prop where
  plain : ∀ tx ∈ s.block.dropLast, tx.Plain
  coinbase : ∀ (a : Acceptance P cfg n s) t, a.node.postFork = true →
    txidOf P cfg.mode a.coinbase a.node.forkHeight = .ok t → n.store.txidHeight t = .ok none

namespace Acceptance
variable {n : Node π} {s : Submission} (a : Acceptance P cfg n s)

theorem init_eq : s.block.dropLast = a.init := by rw [a.block]; simp

theorem forall₂_rows (hw : cfg.NoWaiver) :
    List.Forall₂ (fun tx r => Row.signature r = tx.signature.take maxTxSignatureLen ∧
      (tx.Plain → a.node.postFork = true →
        txidOf P cfg.mode r a.node.forkHeight = tx.txid P a.node)) a.init (a.spends.map Prod.fst) := by
  rw [List.forall₂_map_right_iff]
  refine (Except.mapM_eq_ok.1 a.spends_eq).with_mem.imp ?_
  rintro tx ⟨r, blockFee⟩ ⟨htx, hp, hrow⟩
  obtain ⟨f, debit, fees, txFee, h⟩ := spendRow_ok hrow
  obtain ⟨f', hv⟩ := a.valid hw (show tx ∈ s.block by rw [a.block]; simp [htx])
  obtain rfl : f = f' := Except.ok.inj (h.fields.symm.trans hv.fields)
  obtain ⟨es, hes⟩ := a.exists_entries
  have hr : r ∈ a.rows := List.mem_append_left _ (List.mem_map_of_mem hp)
  obtain ⟨k, -, -, hk, -⟩ := units_of_indexEntries hes hr
  obtain ⟨-, -, hf⟩ := RawTx.fields_ok h.fields
  refine ⟨?_, fun hplain hpf => h.txid hplain hv hk hpf⟩
  rw [h.row]
  show f.signature = _
  rw [hf]

/-- The content ids of the tuples before the last one are new to the ledger and differ. -/
theorem exists_txids (hs : cfg.Strict) (hpf : a.node.postFork = true) : ∃ us : List Text, us.Nodup ∧
    List.Forall₂ (fun tx t => tx.txid P a.node = .ok t ∧ ∃ known, n.store.txidHeight t = .ok known ∧
      ∀ k, known = some k → n.lastBlock < k) a.init us := by
  obtain ⟨-, ts, t, hi, -, hids⟩ := a.entries_checked hs
  have hnodup := hids hpf
  rw [List.filterMap_append, List.nodup_append] at hnodup
  refine ⟨ts.filterMap id, hnodup.1, ?_⟩
  clear hnodup hids
  generalize a.init = init at hi ⊢
  induction hi with
  | nil => exact .nil
  | cons hc _ ih =>
    obtain ⟨t, known, ht, rfl, hknown, hlt⟩ := newTxid_ok hpf (checkEntry_ok hs.noWaiver (Bool.and_false _) hc).2
    rw [a.node_store] at hknown
    rw [a.node_lastBlock] at hlt
    exact .cons ⟨ht, known, hknown, hlt⟩ ih

theorem fresh_txids (hs : cfg.Strict) (H : Chained P cfg keys n chain)
    (hx : TxidExact P cfg.mode a.node.forkHeight n.store chain) (hf : FreshTxids P cfg n s)
    (hb : b ∈ chain) (hk : k ∈ a.live.txidKeys P cfg.mode a.node.forkHeight) :
    k ∉ b.txidKeys P cfg.mode a.node.forkHeight := by
  intro hkb
  obtain ⟨es, hes⟩ := a.exists_entries
  obtain ⟨hpf, r, hr, t, ht, rfl⟩ := (LiveBlock.mem_txidKeys (b := a.live) hes).1 hk
  have hget : n.store.txid.get? (hashKey t) = some b.height := (hx _ _).2 ⟨b, hb, rfl, hkb⟩
  have hheight : n.store.txidHeight t = .ok none ∨ ∃ known, n.store.txidHeight t = .ok known ∧
      ∀ k, known = some k → n.lastBlock < k := by
    rcases List.mem_append.1 hr with hr | hr
    · right
      obtain ⟨tx, htx, -, htxid⟩ := (a.forall₂_rows hs.noWaiver).exists_left hr
      obtain ⟨us, -, hus⟩ := a.exists_txids hs hpf
      obtain ⟨t', -, ht', hknown⟩ := hus.exists_right htx
      rw [htxid (hf.plain tx (a.init_eq ▸ htx)) hpf] at ht
      obtain rfl := Except.ok.inj (ht.symm.trans ht')
      exact hknown
    · left
      rw [List.mem_singleton.1 hr] at ht
      exact hf.coinbase a t hpf ht
  have hle := H.le_last b hb
  obtain hnone | ⟨known, hknown, hlt⟩ := hheight
  · rw [Store.txidHeight] at hnone
    split at hnone
    · cases hnone
    · rw [hget] at hnone
      cases hnone
  · rw [Store.txidHeight] at hknown
    split at hknown
    · cases hknown
    · rw [hget] at hknown
      have := hlt _ (Except.ok.inj hknown).symm
      omega

theorem txidExact (hd : KeysDistinct P keys) (hs : cfg.Strict) (H : Chained P cfg keys n chain)
    (hk : s.Keys keys) (hf : FreshTxids P cfg n s)
    (hx : TxidExact P cfg.mode n.forkHeight n.store chain) :
    TxidExact P cfg.mode a.node.forkHeight a.store (chain ++ [a.live]) := by
  have hsame : SameFork n.forkHeight a.node.forkHeight chain := a.node_forkHeight ▸ H.sameFork
  have hx := H.good.txidExact_congr hsame hx
  have hstep := H.step hs.noWaiver a hk
  rw [a.node_store] at hstep
  refine FreshStep.txidExact hd ⟨hstep, fun b hb c hc k hk => ?_⟩ (H.good.congr hsame) hx
  obtain rfl : a.live = b := by simpa using hb
  exact a.fresh_txids hs H hx hf hc hk

end Acceptance

theorem Fresh.txidExact (hd : KeysDistinct P keys) (hk : keys genesisPublicKey)
    (h : Fresh P cfg n) : TxidExact P cfg.mode n.forkHeight n.store [genesisBlock cfg] := by
  refine (seedGenesis_good hd hk h.store).1.txidExact_congr (fun b hb => ?_)
    (seedGenesis_txidExact hd hk h.store)
  rw [List.mem_singleton.1 hb]
  exact h.forkHeight

theorem Reach.txidExact (hd : KeysDistinct P keys) (hk : keys genesisPublicKey) (hs : cfg.Strict)
    (hok : ∀ n s, ok n s → FreshTxids P cfg n s) (h : Reach P cfg keys ok n) :
    ∃ chain, Chained P cfg keys n chain ∧ Built (Extends P cfg keys ok n.forkHeight) chain ∧
      TxidExact P cfg.mode n.forkHeight n.store chain := by
  refine h.induct (fun n chain => Built (Extends P cfg keys ok n.forkHeight) chain ∧
    TxidExact P cfg.mode n.forkHeight n.store chain) hd hk hs.noWaiver ?_ ?_ ?_
  · intro n hn _
    exact ⟨.genesis _, hn.txidExact hd hk⟩
  · intro n n' chain s a H hI hkeys hs' hfork hst
    rw [hfork, hst]
    exact ⟨hI.1.accept a H hkeys hs', a.txidExact hd hs H hkeys (hok n s hs') hI.2⟩
  · intro n n' chain chain' _ hI hcut
    exact ⟨(hI.1.of_isPrefix hcut.isPrefix).congr hcut.sameFork, hcut.txid hI.2⟩

/-- In every run of fresh blocks the txid index holds the content ids of the live rows at or above the
fork height, each with the height of its row. -/
theorem txid_index_exact (hd : KeysDistinct P keys) (hk : keys genesisPublicKey) (hs : cfg.Strict)
    {n : Node π} (h : Reach P cfg keys (FreshTxids P cfg) n) :
    ∃ chain, Chained P cfg keys n chain ∧ ∀ d k,
      n.store.txidHeight (hex d) = .ok (some k) ↔ ∃ b ∈ chain, b.height = k ∧
        postFork n.forkHeight k = true ∧
        ∃ r ∈ b.rows, txidOf P cfg.mode r n.forkHeight = .ok (hex d) := by
  obtain ⟨chain, H, -, hx⟩ := h.txidExact hd hk hs fun _ _ => id
  refine ⟨chain, H, fun d k => ?_⟩
  rw [Store.txidHeight, hashKey_hex]
  constructor
  · intro hget
    split at hget
    · cases hget
    · obtain ⟨b, hb, rfl, hmem⟩ := (hx _ _).1 (Except.ok.inj hget)
      obtain ⟨es, hes⟩ := H.good.exists_entries hb
      obtain ⟨hpf, r, hr, t, ht, rfl⟩ := (LiveBlock.mem_txidKeys hes).1 hmem
      refine ⟨b, hb, rfl, hpf, r, hr, ?_⟩
      obtain ⟨d, rfl, -⟩ := txidOf_hex ht
      rwa [hashKey_hex]
  · rintro ⟨b, hb, rfl, hpf, r, hr, ht⟩
    obtain ⟨es, hes⟩ := H.good.exists_entries hb
    have hmem := (LiveBlock.mem_txidKeys hes).2 ⟨hpf, r, hr, _, ht, rfl⟩
    rw [hashKey_hex] at hmem
    obtain ⟨d', hd', hne⟩ := txidOf_hex ht
    rw [if_neg (by rwa [hex_injective hd']), (hx _ _).2 ⟨b, hb, rfl, hmem⟩]

theorem freshNode_freshTxids (h : (smallBlock block).block.dropLast = []) :
    FreshTxids .toy (regnet mode) (freshNode mode fh) (smallBlock block) where
  plain := by simp [h]
  coinbase := by
    intro a t _ ht
    obtain ⟨d, rfl, hne⟩ := txidOf_hex ht
    rw [Store.txidHeight, hashKey_hex, if_neg hne]
    rfl

/-- The first block above the genesis block is at the fork height. -/
theorem txid_index_exact_sample : ∃ n : Node Unit, n.lastBlock = 2 ∧ n.forkHeight = some 2 ∧
    ∃ chain, Chained .toy (regnet .decimal) smallKeys n chain ∧ ∀ d k,
      n.store.txidHeight (hex d) = .ok (some k) ↔ ∃ b ∈ chain, b.height = k ∧
        postFork n.forkHeight k = true ∧
        ∃ r ∈ b.rows, txidOf .toy .decimal r n.forkHeight = .ok (hex d) :=
  ⟨(digestBlock .toy (regnet .decimal) [minedBlock] (freshNode .decimal (some 2))).2,
    by decide +kernel, by decide +kernel,
    txid_index_exact smallKeys_distinct (.inr rfl) (regnet_strict .decimal)
      ⟨_, freshNode_fresh _ _ _ rfl,
        .single (.digest minedBlock minedBlock_keys fun _ => freshNode_freshTxids rfl)⟩⟩

/-- A transaction that carries a public key, as one from an old address does above the fork height. -/
def keyedTx (timestamp address recipient amount signature : Text) : RawTx :=
  { smallTx timestamp address recipient amount signature with publicKey := ['A', 'A', 'A', 'A'] }

/-- The keys of such transactions as well. -/
def keyedKeys (p : Text) : Prop := p ∈ [[], genesisPublicKey, ['A', 'A', 'A', 'A']]

theorem keyedKeys_distinct : KeysDistinct .toy keyedKeys := by
  have h : ([[], genesisPublicKey, ['A', 'A', 'A', 'A']].map fun p =>
      Prims.toy.blake2b (utf8 p)).Nodup := by
    rw [genesisPublicKey_chars]
    decide +kernel
  intro p q hp hq heq
  exact List.inj_on_of_nodup_map h hp hq heq

/-- `alice` mines two blocks above the fork height, sends nothing to themself in a third one and mines
a fourth one with that content as its coinbase. -/
def repeatedContent : List Submission :=
  [smallBlock [aliceMines "1500000000.00".toList ['A', 'A', 'A', 'A']],
    smallBlock [aliceMines "1500000100.00".toList ['A', 'A', 'A', 'C']],
    smallBlock [keyedTx "1500000300.00".toList alice alice ['0'] ['A', 'A', 'A', 'B'],
      aliceMines "1500000200.00".toList ['A', 'A', 'A', 'D']],
    smallBlock [aliceMines "1500000300.00".toList ['A', 'A', 'A', 'E']]]

/-- The coinbase takes over the entry of the row, and going back deletes it although the row is live. -/
theorem txid_lost_by_rollback : (regnet .decimal).Strict ∧ ∃ n rows r t,
    Reach .toy (regnet .decimal) keyedKeys (fun _ _ => True) n ∧
      n.store.rawBlock .toy .decimal 4 = .ok (some rows) ∧ r ∈ rows ∧
      postFork n.forkHeight 4 = true ∧ txidOf .toy .decimal r n.forkHeight = .ok t ∧
      n.store.txidHeight t = .ok none := by
  refine ⟨regnet_strict .decimal, ?_⟩
  have hrun : (rollToLocked .toy (regnet .decimal) 4 (nodeAfter .decimal (some 2) repeatedContent)).1 =
        .ok () ∧ 4 ≤ (nodeAfter .decimal (some 2) repeatedContent).lastBlock ∧
      ((fun n : Node Unit => postFork n.forkHeight 4 && (firstRow n .decimal 4).any fun r =>
        decide ((txidOf .toy .decimal r n.forkHeight).bind n.store.txidHeight = .ok none))
        (rollToLocked .toy (regnet .decimal) 4 (nodeAfter .decimal (some 2) repeatedContent)).2) = true := by
    decide +kernel
  obtain ⟨hroll, htip, hrow⟩ := hrun
  simp only [Bool.and_eq_true, Option.any_eq_true, decide_eq_true_eq] at hrow
  obtain ⟨hfork, r, hr, hx⟩ := hrow
  obtain ⟨rows, hrows, hmem⟩ := firstRow_some hr
  obtain ⟨t, ht, hx⟩ := Except.bind_eq_ok.1 hx
  refine ⟨_, rows, r, t, ⟨_, freshNode_fresh _ _ _ (show postFork (some 2) genesisHeight = false from rfl),
    .tail (nodeAfter_steps _ _ ?_) (.rollTo (by decide) htip (Run.eq_of_fst hroll))⟩, hrows,
    List.mem_of_mem_dropLast hmem, hfork, ht, hx⟩
  simp only [repeatedContent, List.forall_mem_cons, List.not_mem_nil, false_implies, implies_true,
    and_true]
  refine ⟨smallBlock_keys ?_ ?_, smallBlock_keys ?_ ?_, smallBlock_keys ?_ ?_, smallBlock_keys ?_ ?_⟩ <;>
    simp [aliceMines, smallTx, keyedTx, keyedKeys, maxTxPubkeyLen]

/-! ## No replay -/

def spendRows (chain : List LiveBlock) : List Row := chain.flatMap (·.rows.dropLast)

def spendTxids (P : Prims) (mode : Mode) (fh : Option Nat) (chain : List LiveBlock) :
    List (Except Err Text) :=
  (spendRows (chain.filter fun b => postFork fh b.height)).map (txidOf P mode · fh)

theorem spendRows_append (c c' : List LiveBlock) : spendRows (c ++ c') = spendRows c ++ spendRows c' :=
  List.flatMap_append

theorem mem_spendRows : r ∈ spendRows chain ↔ ∃ b ∈ chain, r ∈ b.rows.dropLast := List.mem_flatMap

theorem spendRows_isPrefix (h : c <+: chain) : spendRows c <+: spendRows chain := by
  obtain ⟨rest, rfl⟩ := h
  rw [spendRows_append]
  exact List.prefix_append _ _

theorem spendTxids_isPrefix (h : c <+: chain) :
    spendTxids P mode fh c <+: spendTxids P mode fh chain :=
  (spendRows_isPrefix (h.filter _)).map _

theorem Ledger.Good.row_height {l : Ledger} (H : l.Good P mode keys fh) (hb : b ∈ l.chain)
    (hr : r ∈ b.rows) : r.height = b.height := by
  obtain ⟨read, hread, -⟩ := H
  obtain ⟨b', -, hs⟩ := hread.exists_right hb
  obtain ⟨r', -, hrow⟩ := hs.rows.exists_right hr
  exact hrow.height

theorem spendTxids_congr (hh : ∀ b ∈ chain, ∀ r ∈ b.rows, r.height = b.height)
    (hf : SameFork fh fh' chain) : spendTxids P mode fh' chain = spendTxids P mode fh chain := by
  have hfilter : (chain.filter fun b => postFork fh' b.height) =
      chain.filter fun b => postFork fh b.height := List.filter_congr fun b hb => by rw [hf b hb]
  rw [spendTxids, spendTxids, hfilter]
  refine List.map_congr_left fun r hr => txidOf_congr ?_
  obtain ⟨b, hb, hr⟩ := mem_spendRows.1 hr
  have hb := (List.mem_filter.1 hb).1
  rw [hh b hb r (List.mem_of_mem_dropLast hr)]
  exact hf b hb

/-- The duplicate checks see what is stored of the block. -/
structure PlainBlock (P : Prims) (cfg : Config π) (n : Node π) (s : Submission) : Prop
    extends FreshTxids P cfg n s where
  short : ∀ tx ∈ s.block.dropLast, tx.signature.length ≤ maxTxSignatureLen
  indexable : ∀ tx ∈ s.block.dropLast, indexableSig tx.signature = true

namespace Acceptance
variable {n : Node π} {s : Submission} (a : Acceptance P cfg n s)

theorem spendRows_live : spendRows [a.live] = a.spends.map Prod.fst := by
  simp [spendRows, live, a.rows_dropLast]

theorem signatures_eq (hw : cfg.NoWaiver) (hp : PlainBlock P cfg n s) :
    (a.spends.map Prod.fst).map (·.signature) = a.init.map (·.signature) := by
  refine ((a.forall₂_rows hw).with_mem.map_eq ?_).symm
  rintro tx r ⟨htx, -, hsig, -⟩
  rw [hsig, List.take_of_length_le (hp.short tx (a.init_eq ▸ htx))]

theorem signature_new (hs : cfg.Strict) (H : Chained P cfg keys n chain) (hp : PlainBlock P cfg n s)
    (htx : tx ∈ a.init) (hb : b ∈ chain) (hr : r ∈ b.rows) : r.signature ≠ tx.signature := by
  intro heq
  obtain ⟨-, ts, t, hi, -⟩ := a.entries_checked hs
  obtain ⟨ot, -, hc⟩ := hi.exists_right htx
  obtain ⟨hseen, -⟩ := checkEntry_ok hs.noWaiver (Bool.and_false _) hc
  rw [a.node_store, a.node_lastBlock] at hseen
  obtain ⟨found, hfound, hiff⟩ := H.good.signatureExists tx.signature (some n.lastBlock)
  obtain rfl : false = found := Except.ok.inj (hseen.symm.trans hfound)
  refine absurd (hiff.2 ⟨b, hb, ?_, r, hr, hp.indexable tx (a.init_eq ▸ htx), heq⟩) (by simp)
  have := H.le_last b hb
  simpa using this

theorem signatures_nodup (hs : cfg.Strict) (H : Chained P cfg keys n chain) (hp : PlainBlock P cfg n s)
    (hn : ((spendRows chain).map (·.signature)).Nodup) :
    ((spendRows (chain ++ [a.live])).map (·.signature)).Nodup := by
  rw [spendRows_append, a.spendRows_live, List.map_append, a.signatures_eq hs.noWaiver hp,
    List.nodup_append]
  refine ⟨hn, ?_, ?_⟩
  · have hblock := (a.entries_checked hs).1
    rw [a.block, List.map_append, List.nodup_append] at hblock
    exact hblock.1
  · intro x hx y hy
    obtain ⟨r, hr, rfl⟩ := List.mem_map.1 hx
    obtain ⟨tx, htx, rfl⟩ := List.mem_map.1 hy
    obtain ⟨b, hb, hr⟩ := mem_spendRows.1 hr
    exact a.signature_new hs H hp htx hb (List.mem_of_mem_dropLast hr)

theorem txids_nodup (hs : cfg.Strict) (H : Chained P cfg keys n chain) (hp : PlainBlock P cfg n s)
    (hx : TxidExact P cfg.mode n.forkHeight n.store chain)
    (hn : (spendTxids P cfg.mode n.forkHeight chain).Nodup) :
    (spendTxids P cfg.mode a.node.forkHeight (chain ++ [a.live])).Nodup := by
  have hsame : SameFork n.forkHeight a.node.forkHeight chain := a.node_forkHeight ▸ H.sameFork
  have hx := H.good.txidExact_congr hsame hx
  rw [← spendTxids_congr (fun b hb r => H.good.row_height hb) hsame] at hn
  cases hpf : a.node.postFork with
  | false =>
    rw [spendTxids, List.filter_append, List.filter_singleton]
    rw [show postFork a.node.forkHeight a.live.height = false from hpf]
    simpa [spendTxids] using hn
  | true =>
    have hlive : spendTxids P cfg.mode a.node.forkHeight [a.live] = a.init.map (·.txid P a.node) := by
      rw [spendTxids, List.filter_singleton,
        show postFork a.node.forkHeight a.live.height = true from hpf]
      simp only [cond_true, a.spendRows_live]
      refine ((a.forall₂_rows hs.noWaiver).with_mem.map_eq ?_).symm
      rintro tx r ⟨htx, -, -, htxid⟩
      exact (htxid (hp.plain tx (a.init_eq ▸ htx)) hpf).symm
    have happ : spendTxids P cfg.mode a.node.forkHeight (chain ++ [a.live]) =
        spendTxids P cfg.mode a.node.forkHeight chain ++ a.init.map (·.txid P a.node) := by
      rw [← hlive, spendTxids, spendTxids, spendTxids, List.filter_append, spendRows_append,
        List.map_append]
    rw [happ, List.nodup_append]
    obtain ⟨us, hnodup, hus⟩ := a.exists_txids hs hpf
    refine ⟨hn, ?_, ?_⟩
    · rw [hus.map_eq (g := Except.ok) fun h => h.1]
      exact hnodup.map fun _ _ h => Except.ok.inj h
    · rintro x hx' y hy rfl
      obtain ⟨r, hr, rfl⟩ := List.mem_map.1 hx'
      obtain ⟨b, hb, hr⟩ := mem_spendRows.1 hr
      obtain ⟨hb, hbf⟩ := List.mem_filter.1 hb
      obtain ⟨tx, htx, heq⟩ := List.mem_map.1 hy
      obtain ⟨t, -, ht, -⟩ := hus.exists_right htx
      obtain ⟨r', hr', -, htxid⟩ := (a.forall₂_rows hs.noWaiver).exists_right htx
      obtain ⟨es, hes⟩ := a.exists_entries
      obtain ⟨es', hes'⟩ := (H.good.congr hsame).exists_entries hb
      refine a.fresh_txids hs H hx hp.toFreshTxids hb (k := hashKey t)
        ((LiveBlock.mem_txidKeys (b := a.live) hes).2
          ⟨hpf, r', List.mem_append_left _ hr', t, ?_, rfl⟩)
        ((LiveBlock.mem_txidKeys hes').2
          ⟨hbf, r, List.mem_of_mem_dropLast hr, t, heq.symm.trans ht, rfl⟩)
      rw [htxid (hp.plain tx (a.init_eq ▸ htx)) hpf, ht]

end Acceptance

theorem smallTx_plain (ha : address.length ≤ 56) (hr : recipient.length ≤ 56)
    (hts : timestampField (.str ts) = .ok ts) (hamt : amountField (.str amount) = .ok amount')
    (hu : (v2Units amount : Except Err Int) = v2Units amount') :
    (smallTx ts address recipient amount sig).Plain where
  address := ha
  recipient := hr
  timestamp := fun s hs => by
    obtain rfl := Except.ok.inj (hts.symm.trans hs)
    rfl
  amount := fun s hs => by
    obtain rfl := Except.ok.inj (hamt.symm.trans hs)
    exact hu

/-- `alice` pays `bob` above the fork height, and the payment is repeated with one character more in the
sender and in the signature, which neither the stored row nor the decoded signature keeps. -/
def repeatedPayment : List Submission :=
  [smallBlock [aliceMines "1500000000.00".toList ['A', 'A', 'A', 'A']],
    smallBlock [aliceMines "1500000100.00".toList ['A', 'A', 'A', 'C']],
    smallBlock [keyedTx "1500000150.00".toList alice bob ['1'] ['A', 'A', 'A', 'B'],
      aliceMines "1500000200.00".toList ['A', 'A', 'A', 'D']],
    smallBlock [keyedTx "1500000150.00".toList (alice ++ ['x']) bob ['1'] ['A', 'A', 'A', 'B', '!'],
      aliceMines "1500000300.00".toList ['A', 'A', 'A', 'E']]]

end Bismuth
