import Bismuth.Store.Heights
import Bismuth.Store.Keys
import Mathlib

/-!
# Where the rows are

After any commits and rollbacks, whatever the rows hold, every body reads back, and the address and the
signature index have one key for each sender, recipient and indexable signature of a stored row.
-/

namespace Bismuth
open Py Relation

variable {P : Prims} {mode : Mode}

/-! ## Bodies that read back -/

/-- `r'` is what comes back for `r`, as far as the indexes and the rewards go. -/
structure Row.Back (mode : Mode) (r r' : Row) : Prop where
  address : r'.address = r.address
  recipient : r'.recipient = r.recipient
  signature : r'.signature = r.signature
  reward : r'.reward = r.reward ∨ ∃ u : Nat, numUnits mode r.reward = (.ok u : Except Err Int) ∧
    r'.reward = moneyText mode u

/-- The body at height `n` was made for `rows` and reads back, whatever keys are registered. -/
def BodyBack (P : Prims) (mode : Mode) (n : Nat) (rows : List Row) (body : Body) : Prop :=
  ∀ f : Nat → Text, ∃ rows', expand P mode f n body = .ok rows' ∧ List.Forall₂ (Row.Back mode) rows rows'

theorem legacyTxs_back (h : legacyTxs P st rows = (st', txs)) (f : Nat → Text) (n : Nat) :
    List.Forall₂ (Row.Back mode) rows (txs.map fun t => t.row n (f t.pubkeyId)) := by
  induction rows generalizing st txs with
  | nil =>
    cases h
    exact .nil
  | cons r rows ih =>
    rcases h1 : pubkeyId P st r.publicKey with ⟨st1, i⟩
    rcases h2 : legacyTxs P st1 rows with ⟨st2, txs2⟩
    simp only [legacyTxs, h1, h2] at h
    cases h
    exact .cons ⟨rfl, rfl, rfl, .inl rfl⟩ (ih h2)

theorem readTx_back (h : packRow P mode (r.withId i) ai ri = (.ok b : Except Err Bytes)) (f : Nat → Text) (n : Nat)
    (bh : Text) {l : List Text} (ha : l[ai]? = some r.address) (hri : l[ri]? = some r.recipient) :
    ∃ r', readTx mode f n bh l b = .ok r' ∧ Row.Back mode r r' := by
  obtain ⟨cs, ua, uf, ur, -, -, -, hur, hu⟩ := unpackRow_packRow P mode h
  refine ⟨{ r.repacked mode cs ua uf ur with height := n, publicKey := f i, blockHash := bh }, ?_,
    ⟨rfl, rfl, rfl, .inr ⟨ur, hur, rfl⟩⟩⟩
  rw [readTx, hu, Except.ok_bind]
  simp only [UnpackedTx.row, listGet_eq ha, listGet_eq hri, Except.ok_bind, Row.withId, Row.repacked]
  rfl

theorem packedTxs_back {st st' : Store} {addrs' txs : List Bytes} (ha : AddrsOf P seen addrs)
    (h : packedTxs P mode st seen addrs rows = .ok (st', addrs', txs)) : ∃ seen', AddrsOf P seen' addrs' ∧
      seen <+: seen' ∧ ∀ (f : Nat → Text) (n : Nat) (bh : Text) (l : List Text), seen' <+: l →
        ∃ rows', txs.mapM (readTx mode f n bh l) = .ok rows' ∧ List.Forall₂ (Row.Back mode) rows rows' := by
  induction rows generalizing st seen addrs txs with
  | nil =>
    cases h
    exact ⟨seen, ha, List.prefix_rfl, fun _ _ _ _ _ => ⟨[], rfl, .nil⟩⟩
  | cons r rows ih =>
    rcases h1 : pubkeyId P st r.publicKey with ⟨st1, i⟩
    simp only [packedTxs, h1, Except.bind_eq_ok, Prod.exists] at h
    obtain ⟨ai, s1, a1, hai, ri, s2, a2, hri, b, hb, st2, a3, txs2, h2, h⟩ := h
    cases h
    obtain ⟨ha1, p1, i1⟩ := addrRef_spec ha hai
    obtain ⟨ha2, p2, i2⟩ := addrRef_spec ha1 hri
    obtain ⟨seen', ha', p3, hread⟩ := ih ha2 h2
    refine ⟨seen', ha', (p1.trans p2).trans p3, fun f n bh l hl => ?_⟩
    obtain ⟨rows', hrows', hback⟩ := hread f n bh l hl
    obtain ⟨r', hr', hrback⟩ := readTx_back hb f n bh (getElem?_of_isPrefix (p2.trans (p3.trans hl)) i1)
      (getElem?_of_isPrefix (p3.trans hl) i2)
    refine ⟨r' :: rows', ?_, .cons hrback hback⟩
    rw [List.mapM_cons, hr', hrows']
    rfl

theorem makeBody_back {hash : Text} (h : makeBody P mode st n hash rows forkHeight = .ok (st', body)) :
    BodyBack P mode n rows body := by
  intro f
  simp only [makeBody] at h
  split at h
  · simp only [Except.bind_eq_ok, Prod.exists] at h
    obtain ⟨st1, addrs, txs, h1, h⟩ := h
    cases h
    obtain ⟨seen, ha, -, hread⟩ := packedTxs_back (show AddrsOf P [] [] from rfl) h1
    rw [AddrsOf] at ha
    simp only [expand, ha, Except.ok_bind]
    exact hread f n _ seen List.prefix_rfl
  · rcases h2 : legacyTxs P st rows with ⟨st2, txs⟩
    rw [h2] at h
    cases h
    exact ⟨_, rfl, legacyTxs_back h2 f n⟩

theorem putBody_back {hash : Text} (h : putBody P mode st n hash rows forkHeight = .ok st') :
    ∃ body, BodyBack P mode n rows body ∧ st'.blocks = st.blocks.put n body ∧ st'.addr = st.addr ∧
      st'.sig = st.sig := by
  simp only [putBody, Except.bind_eq_ok, Prod.exists] at h
  obtain ⟨st₁, body, hbody, k, hk, k', -, h⟩ := h
  obtain ⟨-, -, rfl⟩ := heightKey_ok hk
  have hkeys := (makeBody_frame hbody).1
  cases h
  rw [OnlyKeys] at hkeys
  rw [hkeys]
  exact ⟨body, makeBody_back hbody, rfl, rfl, rfl⟩

/-! ## Keys -/

/-- A key that row `i` of the block at height `n` has in the address index. -/
def AddrKeyOf (n i : Nat) (r : Row) (k : Bytes) : Prop :=
  k = addrPrefix .sender r.address ++ posBytes n i ∨ k = addrPrefix .recipient r.recipient ++ posBytes n i

def SigKeyOf (n i : Nat) (r : Row) (k : Bytes) : Prop :=
  indexableSig r.signature ∧ k = sigPrefix r.signature ++ posBytes n i

theorem AddrKeyOf.back (hr : Row.Back mode r r') : AddrKeyOf n i r' k ↔ AddrKeyOf n i r k := by
  rw [AddrKeyOf, AddrKeyOf, hr.address, hr.recipient]

theorem SigKeyOf.back (hr : Row.Back mode r r') : SigKeyOf n i r' k ↔ SigKeyOf n i r k := by
  rw [SigKeyOf, SigKeyOf, hr.signature]

def KeysAt (K : Nat → Nat → Row → Bytes → Prop) (b : Nat × List Row) (k : Bytes) : Prop :=
  ∃ (i : Nat) (r : Row), b.2[i]? = some r ∧ K b.1 i r k

def Ends (K : Nat → Nat → Row → Bytes → Prop) : Prop :=
  ∀ n i r k, K n i r k → ∃ p, k = p ++ posBytes n i

theorem ends_addr : Ends AddrKeyOf := fun _ _ _ _ h => h.elim (fun h => ⟨_, h⟩) fun h => ⟨_, h⟩

theorem ends_sig : Ends SigKeyOf := fun _ _ _ _ h => ⟨_, h.2⟩

theorem KeysAt.back {K : Nat → Nat → Row → Bytes → Prop}
    (hK : ∀ n i r r' k, Row.Back mode r r' → (K n i r' k ↔ K n i r k)) {n : Nat}
    (h : List.Forall₂ (Row.Back mode) rows rows') : KeysAt K (n, rows') k ↔ KeysAt K (n, rows) k := by
  rw [List.forall₂_iff_get] at h
  obtain ⟨hlen, hget⟩ := h
  constructor
  · rintro ⟨i, r', hr', hk⟩
    obtain ⟨hi, rfl⟩ := List.getElem?_eq_some_iff.1 hr'
    have hi' : i < rows.length := hlen ▸ hi
    exact ⟨i, rows[i], List.getElem?_eq_getElem hi', (hK _ _ _ _ _ (hget i hi' hi)).1 hk⟩
  · rintro ⟨i, r, hr, hk⟩
    obtain ⟨hi, rfl⟩ := List.getElem?_eq_some_iff.1 hr
    have hi' : i < rows'.length := hlen ▸ hi
    exact ⟨i, rows'[i], List.getElem?_eq_getElem hi', (hK _ _ _ _ _ (hget i hi hi')).2 hk⟩

theorem indexEntries_keys (h : indexEntries P mode n forkHeight rows = .ok es) :
    (∀ k, k ∈ es.flatMap (·.addr) ↔ KeysAt AddrKeyOf (n, rows) k) ∧
    (∀ k, k ∈ es.filterMap (·.sig) ↔ KeysAt SigKeyOf (n, rows) k) ∧
    ∀ (i : Nat) (r : Row), rows[i]? = some r → PosFits n i := by
  have hback : ∀ e ∈ es, ∃ (i : Nat) (r : Row), rows[i]? = some r ∧ indexEntry P mode n forkHeight i r = .ok e := by
    intro e he
    obtain ⟨⟨r, i⟩, hmem, hi⟩ := Except.exists_of_mem_mapM h he
    exact ⟨i, r, List.mem_zipIdx_iff_getElem?.1 hmem, hi⟩
  have hforth : ∀ (i : Nat) (r : Row), rows[i]? = some r → ∃ e ∈ es, indexEntry P mode n forkHeight i r = .ok e := by
    intro i r hr
    exact Except.exists_mem_of_mapM (a := (r, i)) h (List.mem_zipIdx_iff_getElem?.2 hr)
  have hentry : ∀ {i r e}, indexEntry P mode n forkHeight i r = .ok e → PosFits n i ∧
      (∀ k, k ∈ e.addr ↔ AddrKeyOf n i r k) ∧ ∀ k, e.sig = some k ↔ SigKeyOf n i r k := by
    intro i r e hi
    obtain ⟨q, _, _, _, hq, -, -, -, hs, haddr, -⟩ := indexEntry_ok hi
    obtain ⟨hfits, rfl⟩ := posKey_eq hq
    refine ⟨hfits, fun k => by simp [haddr, AddrKeyOf], fun k => ?_⟩
    rw [hs, SigKeyOf]
    by_cases hind : indexableSig r.signature = true
    · rw [if_pos hind, Option.some.injEq, eq_comm]
      exact ⟨fun h => ⟨hind, h⟩, And.right⟩
    · rw [if_neg hind]
      exact ⟨fun h => (by cases h), fun h => absurd h.1 hind⟩
  refine ⟨fun k => ?_, fun k => ?_, fun i r hr => ?_⟩
  · rw [List.mem_flatMap]
    constructor
    · rintro ⟨e, he, hk⟩
      obtain ⟨i, r, hr, hi⟩ := hback e he
      exact ⟨i, r, hr, ((hentry hi).2.1 k).1 hk⟩
    · rintro ⟨i, r, hr, hk⟩
      obtain ⟨e, he, hi⟩ := hforth i r hr
      exact ⟨e, he, ((hentry hi).2.1 k).2 hk⟩
  · rw [List.mem_filterMap]
    constructor
    · rintro ⟨e, he, hk⟩
      obtain ⟨i, r, hr, hi⟩ := hback e he
      exact ⟨i, r, hr, ((hentry hi).2.2 k).1 hk⟩
    · rintro ⟨i, r, hr, hk⟩
      obtain ⟨e, he, hi⟩ := hforth i r hr
      exact ⟨e, he, ((hentry hi).2.2 k).2 hk⟩
  · obtain ⟨e, -, hi⟩ := hforth i r hr
    exact (hentry hi).1

/-! ## The invariant -/

/-- The store holds the blocks `chain`, as they were committed, and the keys of their rows. -/
structure Placed (P : Prims) (mode : Mode) (st : Store) (chain : List (Nat × List Row)) : Prop where
  blocks : List.Forall₂ (fun e b => e.1 = b.1 ∧ BodyBack P mode b.1 b.2 e.2) st.blocks.entries chain
  fits : ∀ b ∈ chain, ∀ (i : Nat) (r : Row), b.2[i]? = some r → PosFits b.1 i
  addr : st.addr.Holds fun k _ => ∃ b ∈ chain, KeysAt AddrKeyOf b k
  sig : st.sig.Holds fun k _ => ∃ b ∈ chain, KeysAt SigKeyOf b k

namespace Placed
variable {st st' : Store} {chain : List (Nat × List Row)}

theorem empty : Placed P mode {} [] where
  blocks := .nil
  fits := by simp
  addr := .empty (by simp)
  sig := .empty (by simp)

section
variable (H : Placed P mode st chain)
include H

theorem heights : st.blocks.entries.map Prod.fst = chain.map Prod.fst :=
  H.blocks.map_eq fun h => h.1

theorem eq_of_height (ha : a ∈ chain) (hb : b ∈ chain) (h : a.1 = b.1) : a = b := by
  have hnodup : (chain.map Prod.fst).Nodup := H.heights ▸ st.blocks.nodup_keys
  exact List.inj_on_of_nodup_map hnodup ha hb h

theorem height_eq {K : Nat → Nat → Row → Bytes → Prop} (hK : Ends K) (ha : a ∈ chain)
    (hb : b ∈ chain) (hka : KeysAt K a k) (hkb : KeysAt K b k) : a.1 = b.1 := by
  obtain ⟨i, r, hr, hk⟩ := hka
  obtain ⟨j, s, hs, hk'⟩ := hkb
  obtain ⟨p, rfl⟩ := hK _ _ _ _ hk
  obtain ⟨p', he⟩ := hK _ _ _ _ hk'
  exact ((H.fits a ha i r hr).inj (H.fits b hb j s hs) he).1

/-- Taking out the keys of one block leaves those of the others. -/
theorem erase_keys {K : Nat → Nat → Row → Bytes → Prop} (hK : Ends K) (hb : b ∈ chain)
    {t : OrdTable Bytes Unit} (ht : t.Holds fun k _ => ∃ b ∈ chain, KeysAt K b k) {ks : List Bytes}
    (hks : ∀ k, k ∈ ks ↔ KeysAt K b k) :
    (t.eraseAll ks).Holds fun k _ => ∃ c ∈ chain.filter (·.1 ≠ b.1), KeysAt K c k := by
  refine (ht.eraseAll ks).congr fun k _ => ?_
  constructor
  · rintro ⟨⟨c, hc, hk⟩, hnot⟩
    refine ⟨c, List.mem_filter.2 ⟨hc, decide_eq_true fun he => ?_⟩, hk⟩
    obtain rfl := H.eq_of_height hc hb he
    exact hnot ((hks k).2 hk)
  · rintro ⟨c, hc, hk⟩
    obtain ⟨hc, hne⟩ := List.mem_filter.1 hc
    refine ⟨⟨c, hc, hk⟩, fun hmem => ?_⟩
    exact of_decide_eq_true hne (H.height_eq hK hc hb hk ((hks k).1 hmem))

theorem commit {hash : Text} {difficulty : Option Val}
    (h : commitBlock P mode st n hash rows difficulty forkHeight = .ok st') :
    Placed P mode st' (chain ++ [(n, rows)]) := by
  obtain ⟨st1, es, pkref, bal, m, htip, hput, hes, -, -, -, rfl⟩ := commitBlock_ok h
  obtain ⟨body, hbody, hblocks, haddr, hsig⟩ := putBody_back hput
  obtain ⟨hkaddr, hksig, hfits⟩ := indexEntries_keys hes
  have habove : ∀ e ∈ st.blocks.entries, e.1 < n := by
    intro e he
    obtain ⟨k, v⟩ := e
    obtain ⟨m, hm, hle⟩ := OrdTable.exists_le_lastKey? (OrdTable.mem_entries.1 he)
    rw [Store.tip, hm, Option.any_some, decide_eq_false_iff_not, not_not] at htip
    change k < n
    omega
  have hwrite : ∀ {K : Nat → Nat → Row → Bytes → Prop} {t : OrdTable Bytes Unit} {ks : List Bytes},
      (t.Holds fun k _ => ∃ b ∈ chain, KeysAt K b k) → (∀ k, k ∈ ks ↔ KeysAt K (n, rows) k) →
      (t.putAll (ks.map (·, ()))).Holds fun k _ => ∃ b ∈ chain ++ [(n, rows)], KeysAt K b k := by
    intro K t ks ht hks
    refine (ht.putAll fun _ _ _ _ => rfl).congr fun k _ => ?_
    simp [or_and_right, exists_or, hks]
  constructor
  · change List.Forall₂ _ st1.blocks.entries _
    rw [hblocks, OrdTable.entries_put_of_lt _ habove]
    exact H.blocks.append (.cons ⟨rfl, hbody⟩ .nil)
  · intro b hb
    rcases List.mem_append.1 hb with hb | hb
    · exact H.fits b hb
    · rw [List.mem_singleton.1 hb]
      exact hfits
  · change (st1.addr.putAll _).Holds _
    rw [haddr]
    exact hwrite H.addr hkaddr
  · change (st1.sig.putAll _).Holds _
    rw [hsig]
    exact hwrite H.sig hksig

theorem rollbackBlock
    (h : Bismuth.rollbackBlock P mode forkHeight st acc removed n = .ok (st', acc', removed')) :
    Placed P mode st' (chain.filter (·.1 ≠ n)) := by
  simp only [Bismuth.rollbackBlock] at h
  split at h
  · cases h
  rename_i body hbody
  simp only [Except.bind_eq_ok, Prod.exists] at h
  obtain ⟨rows', hexp, st1, acc1, hindex, m, -, typed, -, h⟩ := h
  cases h
  obtain ⟨es, pkref, hes, -, -, rfl⟩ := indexRows_ok hindex
  obtain ⟨⟨n', rows⟩, hb, hn, hback⟩ := H.blocks.exists_right (OrdTable.mem_entries.2 hbody)
  obtain rfl : n = n' := hn
  obtain ⟨rows'', hexp', hrows⟩ := hback st.pubkey
  obtain rfl : rows' = rows'' := Except.ok.inj (hexp.symm.trans hexp')
  obtain ⟨hkaddr, hksig, -⟩ := indexEntries_keys hes
  constructor
  · change List.Forall₂ _ (st.blocks.erase n).entries _
    rw [OrdTable.entries_erase]
    refine List.rel_filter (fun e b he => ?_) H.blocks
    change decide (e.1 ≠ n) = true ↔ decide (b.1 ≠ n) = true
    rw [he.1]
  · intro b hb
    exact H.fits b (List.mem_filter.1 hb).1
  · exact H.erase_keys ends_addr hb H.addr fun k =>
      (hkaddr k).trans (KeysAt.back (K := AddrKeyOf) (fun _ _ _ _ _ => AddrKeyOf.back) hrows)
  · exact H.erase_keys ends_sig hb H.sig fun k =>
      (hksig k).trans (KeysAt.back (K := SigKeyOf) (fun _ _ _ _ _ => SigKeyOf.back) hrows)

theorem rollbackBlocks
    (h : Bismuth.rollbackBlocks P mode forkHeight st acc removed ns = .ok (st', acc', removed')) :
    ∃ chain', chain'.Sublist chain ∧ Placed P mode st' chain' := by
  induction ns generalizing st acc removed chain with
  | nil =>
    cases h
    exact ⟨chain, .refl _, H⟩
  | cons n ns ih =>
    simp only [Bismuth.rollbackBlocks, Except.bind_eq_ok, Prod.exists] at h
    obtain ⟨st1, acc1, removed1, h1, h⟩ := h
    obtain ⟨chain', hsub, H'⟩ := ih (H.rollbackBlock h1) h
    exact ⟨chain', hsub.trans List.filter_sublist, H'⟩

theorem rollback (h : Bismuth.rollback P mode st k forkHeight = .ok (st', removed)) :
    ∃ chain', chain'.Sublist chain ∧ Placed P mode st' chain' := by
  simp only [Bismuth.rollback, Except.bind_eq_ok, Prod.exists] at h
  obtain ⟨start, -, st1, acc, removed1, h1, bal, -, h⟩ := h
  obtain ⟨chain', hsub, H'⟩ := H.rollbackBlocks h1
  refine ⟨chain', hsub, ?_⟩
  split at h <;> cases h <;> exact ⟨H'.blocks, H'.fits, H'.addr, H'.sig⟩

end

end Placed

/-! ## Reading the blocks -/

def Store.chainRows (P : Prims) (mode : Mode) (st : Store) : Except Err (List (Nat × List Row)) :=
  st.blocks.entries.mapM fun e => do return (e.1, ← expand P mode st.pubkey e.1 e.2)

/-- The store gives the blocks `blocks`, finds their rows at their positions and has the keys of these rows. -/
structure Shown (P : Prims) (mode : Mode) (st : Store) (blocks : List (Nat × List Row)) : Prop where
  chainRows : st.chainRows P mode = .ok blocks
  sorted : blocks.Pairwise fun a b => a.1 < b.1
  fits : ∀ b ∈ blocks, ∀ (i : Nat) (r : Row), b.2[i]? = some r → PosFits b.1 i
  rowAt : ∀ b ∈ blocks, ∀ (i : Nat) (r : Row), b.2[i]? = some r →
    st.rowAt P mode ((b.1 : Int), i) = some <$> typedRow r
  addr : st.addr.Holds fun k _ => ∃ b ∈ blocks, KeysAt AddrKeyOf b k
  sig : st.sig.Holds fun k _ => ∃ b ∈ blocks, KeysAt SigKeyOf b k

/-- `b'` is the block `b` as it reads back. -/
structure BlockBack (mode : Mode) (b b' : Nat × List Row) : Prop where
  height : b'.1 = b.1
  rows : List.Forall₂ (Row.Back mode) b.2 b'.2

theorem KeysAt.block {K : Nat → Nat → Row → Bytes → Prop}
    (hK : ∀ n i r r' k, Row.Back mode r r' → (K n i r' k ↔ K n i r k)) (h : BlockBack mode b b') :
    KeysAt K b' k ↔ KeysAt K b k := by
  obtain ⟨n, rows⟩ := b
  obtain ⟨n', rows'⟩ := b'
  obtain rfl : n' = n := h.height
  exact KeysAt.back hK h.rows

theorem Placed.shown {st : Store} {chain : List (Nat × List Row)} (H : Placed P mode st chain) :
    ∃ blocks, Shown P mode st blocks ∧ List.Forall₂ (BlockBack mode) chain blocks := by
  have hread : ∀ e ∈ st.blocks.entries, ∃ b, (do return (e.1, ← expand P mode st.pubkey e.1 e.2)) =
      (.ok b : Except Err (Nat × List Row)) := by
    intro e he
    obtain ⟨b, -, hn, hback⟩ := H.blocks.exists_right he
    obtain ⟨rows, hrows, -⟩ := hback st.pubkey
    exact ⟨(e.1, rows), by rw [hn, hrows]; rfl⟩
  obtain ⟨blocks, hblocks⟩ := Except.exists_mapM_ok hread
  have hof : List.Forall₂ (fun e b => b.1 = e.1 ∧ expand P mode st.pubkey e.1 e.2 = .ok b.2)
      st.blocks.entries blocks := by
    refine (Except.mapM_eq_ok.1 hblocks).imp fun e b h => ?_
    obtain ⟨rows, hrows, h⟩ := Except.bind_eq_ok.1 h
    cases h
    exact ⟨rfl, hrows⟩
  have hchain : List.Forall₂ (BlockBack mode) chain blocks := by
    refine H.blocks.flip.comp hof fun {b e b'} h h' => ?_
    obtain ⟨hn, hback⟩ := h
    obtain ⟨rows, hrows, hrel⟩ := hback st.pubkey
    have hexp := h'.2
    rw [hn, hrows] at hexp
    exact ⟨h'.1.trans hn, Except.ok.inj hexp ▸ hrel⟩
  have hkeys : ∀ {K : Nat → Nat → Row → Bytes → Prop} {t : OrdTable Bytes Unit},
      (∀ n i r r' k, Row.Back mode r r' → (K n i r' k ↔ K n i r k)) →
      (t.Holds fun k _ => ∃ b ∈ chain, KeysAt K b k) → t.Holds fun k _ => ∃ b ∈ blocks, KeysAt K b k := by
    intro K t hK ht
    refine ht.congr fun k _ => ?_
    constructor
    · rintro ⟨b, hb, hk⟩
      obtain ⟨b', hb', hbb⟩ := hchain.exists_right hb
      exact ⟨b', hb', (KeysAt.block hK hbb).2 hk⟩
    · rintro ⟨b', hb', hk⟩
      obtain ⟨b, hb, hbb⟩ := hchain.exists_left hb'
      exact ⟨b, hb, (KeysAt.block hK hbb).1 hk⟩
  have hfits : ∀ b ∈ blocks, ∀ (i : Nat) (r : Row), b.2[i]? = some r → PosFits b.1 i := by
    intro b' hb' i r hr
    obtain ⟨b, hb, hbb⟩ := hchain.exists_left hb'
    have hi := (List.getElem?_eq_some_iff.1 hr).1
    rw [← hbb.rows.length_eq] at hi
    rw [hbb.height]
    exact H.fits b hb i _ (List.getElem?_eq_getElem hi)
  refine ⟨blocks, ⟨hblocks, ?_, hfits, ?_, ?_, ?_⟩, hchain⟩
  · rw [← List.pairwise_map, ← hof.map_eq fun h => h.1.symm, List.pairwise_map]
    exact st.blocks.sorted
  · intro b hb i r hr
    have hn := (hfits b hb i r hr).height
    obtain ⟨⟨n, body⟩, he, hn', hexp⟩ := hof.exists_left hb
    obtain rfl : b.1 = n := hn'
    have hget := OrdTable.mem_entries.1 he
    rw [Store.rowAt, Store.getBlockRaw, heightKey_natCast (by omega), Except.ok_bind, Store.rawBlock, hget]
    simp only [hexp, Except.ok_bind, Except.pure_eq_ok, Option.bind_some, hr]
    cases typedRow r <;> rfl
  · exact hkeys (fun _ _ _ _ _ => AddrKeyOf.back) H.addr
  · exact hkeys (fun _ _ _ _ _ => SigKeyOf.back) H.sig

/-! ## Histories -/

/-- A commit of rows that satisfy `ok`, or a rollback, with any fork height. -/
inductive Edit (P : Prims) (mode : Mode) (ok : List Row → Prop) : Store → Store → Prop
  | commit {hash : Text} {difficulty : Option Val} : ok rows →
    commitBlock P mode st n hash rows difficulty forkHeight = .ok st' → Edit P mode ok st st'
  | rollback : rollback P mode st k forkHeight = .ok (st', removed) → Edit P mode ok st st'

/-- A store that commits of such rows and rollbacks made. -/
def Store.Reached (P : Prims) (mode : Mode) (ok : List Row → Prop) (st : Store) : Prop :=
  ReflTransGen (Edit P mode ok) {} st

variable {ok : List Row → Prop}

theorem Edit.placed {st st' : Store} (h : Edit P mode ok st st')
    (H : ∃ chain, Placed P mode st chain ∧ ∀ b ∈ chain, ok b.2) :
    ∃ chain, Placed P mode st' chain ∧ ∀ b ∈ chain, ok b.2 := by
  obtain ⟨chain, H, hchain⟩ := H
  cases h with
  | commit hok h =>
    refine ⟨_, H.commit h, fun b hb => ?_⟩
    rcases List.mem_append.1 hb with hb | hb
    · exact hchain b hb
    · rw [List.mem_singleton.1 hb]
      exact hok
  | rollback h =>
    obtain ⟨chain', hsub, H'⟩ := H.rollback h
    exact ⟨chain', H', fun b hb => hchain b (hsub.subset hb)⟩

theorem Store.Reached.placed {st : Store} (h : st.Reached P mode ok) :
    ∃ chain, Placed P mode st chain ∧ ∀ b ∈ chain, ok b.2 := by
  induction h with
  | refl => exact ⟨[], .empty, by simp⟩
  | tail _ h ih => exact h.placed ih

theorem Store.Reached.shown {st : Store} (h : st.Reached P mode ok) : ∃ blocks, Shown P mode st blocks ∧
      ∀ b ∈ blocks, ∃ rows, ok rows ∧ List.Forall₂ (Row.Back mode) rows b.2 := by
  obtain ⟨chain, H, hok⟩ := h.placed
  obtain ⟨blocks, H', hchain⟩ := H.shown
  refine ⟨blocks, H', fun b' hb' => ?_⟩
  obtain ⟨b, hb, hbb⟩ := hchain.exists_left hb'
  exact ⟨b.2, hok b hb, hbb.rows⟩

end Bismuth
