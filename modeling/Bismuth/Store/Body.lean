import Bismuth.Store.Stored

/-!
# Stored bodies

A block body reads back as the rows that were written: exactly before the fork, and up to
`Row.Same` after it.
-/

namespace Bismuth
open Py

variable {P : Prims} {mode : Mode} {keys : Text → Prop}

/-! ## The table of public keys -/

/-- The public keys that are stored are told apart by their digests. -/
def KeysDistinct (P : Prims) (keys : Text → Prop) : Prop :=
  ∀ p q, keys p → keys q → P.blake2b (utf8 p) = P.blake2b (utf8 q) → p = q

/-- Every registered id reads back as the key it was given to, and the next id is free. -/
structure KeyTable (P : Prims) (keys : Text → Prop) (st : Store) : Prop where
  known : st.pk.get? d = some i → ∃ p, keys p ∧ P.blake2b (utf8 p) = d ∧ st.pkr.get? i = some p
  fresh : st.pkr.get? i = some p → i < st.pk.entries.length

/-- `st'` differs from `st` only in keys registered since. -/
structure KeysExtend (st st' : Store) : Prop where
  eq : st' = { st with pk := st'.pk, pkr := st'.pkr }
  pkr : ∀ {i p}, st.pkr.get? i = some p → st'.pkr.get? i = some p

theorem KeysExtend.refl (st : Store) : KeysExtend st st := ⟨rfl, id⟩

theorem KeysExtend.trans (h : KeysExtend st st') (h' : KeysExtend st' st'') :
    KeysExtend st st'' := by
  refine ⟨?_, fun hp => h'.pkr (h.pkr hp)⟩
  have h1 := h.eq; have h2 := h'.eq
  rw [h1] at h2
  exact h2

theorem pubkeyId_spec (hst : KeyTable P keys st) (hd : KeysDistinct P keys) (hp : keys p)
    (h : pubkeyId P st p = (st', i)) :
    KeyTable P keys st' ∧ KeysExtend st st' ∧ st'.pkr.get? i = some p := by
  simp only [pubkeyId] at h
  split at h
  · rename_i i hi
    cases h
    obtain ⟨q, hq, he, hr⟩ := hst.known hi
    exact ⟨hst, .refl st, hd q p hq hp he ▸ hr⟩
  · rename_i hn
    cases h
    have hfree : ∀ {i q}, st.pkr.get? i = some q → i ≠ st.pk.entries.length :=
      fun h he => (hst.fresh h).ne he
    refine ⟨⟨fun {d i} hi => ?_, fun {i q} hq => ?_⟩, ⟨rfl, fun {i q} hq => ?_⟩, by simp⟩
    · simp only [OrdTable.get?_put] at hi ⊢
      split at hi <;> rename_i hd'
      · cases hi
        exact ⟨p, hp, hd'.symm, by simp⟩
      · obtain ⟨q, hq, he, hr⟩ := hst.known hi
        exact ⟨q, hq, he, by rw [if_neg (hfree hr), hr]⟩
    · simp only [OrdTable.get?_put] at hq
      rw [OrdTable.length_entries_put _ hn]
      split at hq <;> rename_i hi
      · omega
      · have := hst.fresh hq
        omega
    · simp only [OrdTable.get?_put]
      rw [if_neg (hfree hq), hq]

/-- The stores differ in their tables of public keys alone. -/
def OnlyKeys (st st' : Store) : Prop := st' = { st with pk := st'.pk, pkr := st'.pkr }

theorem OnlyKeys.trans (h : OnlyKeys st st') (h' : OnlyKeys st' st'') : OnlyKeys st st'' := by
  rw [OnlyKeys] at h h' ⊢
  rw [h] at h'
  exact h'

theorem pubkeyId_onlyKeys (P : Prims) (st : Store) (pk : Text) : OnlyKeys st (pubkeyId P st pk).1 := by
  rw [pubkeyId]
  split <;> rfl

theorem legacyTxs_onlyKeys (P : Prims) (st : Store) (rows : List Row) :
    OnlyKeys st (legacyTxs P st rows).1 := by
  induction rows generalizing st with
  | nil => rfl
  | cons r rows ih => exact (pubkeyId_onlyKeys P st _).trans (ih _)

theorem packedTxs_onlyKeys (h : packedTxs P mode st seen addrs rows = .ok (st', addrs', txs)) :
    OnlyKeys st st' := by
  induction rows generalizing st seen addrs addrs' txs with
  | nil =>
    cases h
    rfl
  | cons r rows ih =>
    simp only [packedTxs, Except.bind_eq_ok, Prod.exists] at h
    obtain ⟨ai, seen₁, addrs₁, -, ri, seen₂, addrs₂, -, blob, -, st₁, addrs₃, txs₁, hrec, h⟩ := h
    cases h
    exact (pubkeyId_onlyKeys P st _).trans (ih hrec)

variable {hash : Text}

/-- A body has the hash it was made with; below the fork it is a list of fields. -/
theorem makeBody_frame (h : makeBody P mode st n hash rows forkHeight = .ok (st', body)) :
    OnlyKeys st st' ∧ (postFork forkHeight n = false → ∃ txs, body = .legacy hash txs) ∧
      ∀ d, hash = hex d → body.hash = hash := by
  rw [makeBody] at h
  split at h <;> rename_i hfork
  · simp only [Except.bind_eq_ok, Prod.exists] at h
    obtain ⟨st₁, addrs, txs, htxs, h⟩ := h
    cases h
    refine ⟨packedTxs_onlyKeys htxs, fun hf => ?_, fun d hd => ?_⟩
    · rw [hf] at hfork
      cases hfork
    · rw [hd, fromHex_hex]
      rfl
  · cases h
    exact ⟨legacyTxs_onlyKeys P st rows, fun _ => ⟨_, rfl⟩, fun _ _ => rfl⟩

theorem legacyTxs_keys {st st' : Store} (hst : KeyTable P keys st) (hd : KeysDistinct P keys)
    (hk : ∀ r ∈ rows, keys r.publicKey) (h : legacyTxs P st rows = (st', txs)) :
    KeyTable P keys st' ∧ KeysExtend st st' := by
  induction rows generalizing st txs with
  | nil =>
    cases h
    exact ⟨hst, .refl _⟩
  | cons r rows ih =>
    simp only [legacyTxs] at h
    rcases h1 : pubkeyId P st r.publicKey with ⟨st1, i⟩
    rw [h1] at h
    cases h
    obtain ⟨k1, e1, -⟩ := pubkeyId_spec hst hd (hk r (by simp)) h1
    obtain ⟨k2, e2⟩ := ih k1 (fun r hr => hk r (by simp [hr])) rfl
    exact ⟨k2, e1.trans e2⟩

theorem packedTxs_keys {st st' : Store} (hst : KeyTable P keys st) (hd : KeysDistinct P keys)
    (hk : ∀ r ∈ rows, keys r.publicKey) (h : packedTxs P mode st seen addrs rows = .ok (st', addrs', txs)) :
    KeyTable P keys st' ∧ KeysExtend st st' := by
  induction rows generalizing st seen addrs txs with
  | nil =>
    cases h
    exact ⟨hst, .refl _⟩
  | cons r rows ih =>
    rcases h1 : pubkeyId P st r.publicKey with ⟨st1, i⟩
    simp only [packedTxs, h1, Except.bind_eq_ok, Prod.exists] at h
    obtain ⟨ai, s1, a1, -, ri, s2, a2, -, b, -, st2, a3, txs2, h2, h⟩ := h
    cases h
    obtain ⟨k1, e1, -⟩ := pubkeyId_spec hst hd (hk r (by simp)) h1
    obtain ⟨k2, e2⟩ := ih k1 (fun r hr => hk r (by simp [hr])) h2
    exact ⟨k2, e1.trans e2⟩

/-- The keys of any rows are registered beside those that are known. -/
theorem makeBody_keys (hst : KeyTable P keys st) (hd : KeysDistinct P keys)
    (hk : ∀ r ∈ rows, keys r.publicKey) (h : makeBody P mode st n hash rows forkHeight = .ok (st', body)) :
    KeyTable P keys st' ∧ KeysExtend st st' := by
  rw [makeBody] at h
  split at h
  · simp only [Except.bind_eq_ok, Prod.exists] at h
    obtain ⟨st1, addrs, txs, h1, h⟩ := h
    cases h
    exact packedTxs_keys hst hd hk h1
  · cases h
    exact legacyTxs_keys hst hd hk rfl

/-- `f` reads the registered ids. -/
def Reads (pkr : OrdTable Nat Text) (f : Nat → Text) : Prop :=
  ∀ {i p}, pkr.get? i = some p → f i = p

theorem Store.reads_pubkey (st : Store) : Reads st.pkr st.pubkey := fun h => by
  rw [Store.pubkey, h, Option.getD_some]

/-- The body at height `h` expands to `rows`, whatever keys are registered later. -/
def Expands (P : Prims) (mode : Mode) (pkr : OrdTable Nat Text) (h : Nat) (body : Body)
    (rows : List Row) : Prop :=
  ∀ f : Nat → Text, Reads pkr f → expand P mode f h body = .ok rows

theorem Expands.extend {t t' : OrdTable Nat Text} (h : ∀ {i p}, t.get? i = some p → t'.get? i = some p)
    (H : Expands P mode t n body rows) : Expands P mode t' n body rows :=
  fun f hf => H f fun hp => hf (h hp)

/-! ## Bodies before the fork -/

theorem legacyTxs_spec (hst : KeyTable P keys st) (hd : KeysDistinct P keys)
    (hk : ∀ r ∈ rows, keys r.publicKey) (hh : ∀ r ∈ rows, r.height = n)
    (h : legacyTxs P st rows = (st', txs)) :
    KeyTable P keys st' ∧ KeysExtend st st' ∧ ∀ f : Nat → Text, Reads st'.pkr f →
      (txs.map fun t => t.row n (f t.pubkeyId)) = rows := by
  induction rows generalizing st st' txs with
  | nil =>
    cases h
    exact ⟨hst, .refl st, fun f _ => rfl⟩
  | cons r rows ih =>
    simp only [legacyTxs] at h
    rcases h1 : pubkeyId P st r.publicKey with ⟨st1, i⟩
    rcases h2 : legacyTxs P st1 rows with ⟨st2, txs2⟩
    rw [h1] at h
    simp only [h2] at h
    cases h
    obtain ⟨k1, e1, g1⟩ := pubkeyId_spec hst hd (hk r (by simp)) h1
    obtain ⟨k2, e2, g2⟩ := ih k1 (fun r hr => hk r (by simp [hr])) (fun r hr => hh r (by simp [hr])) h2
    refine ⟨k2, e1.trans e2, fun f hf => ?_⟩
    rw [List.map_cons, g2 f hf]
    congr 1
    have hfi : f i = r.publicKey := hf (e2.pkr g1)
    have hn := hh r (by simp)
    cases r
    simp_all [IdTx.row, Row.withId]

/-! ## Bodies after the fork -/

/-- The stored form of the addresses of `seen`. -/
def AddrsOf (P : Prims) (seen : List Text) (addrs : List Bytes) : Prop :=
  addrs.mapM (unpackAddr P) = (.ok seen : Except Err (List Text))

theorem addrRef_spec (hs : AddrsOf P seen addrs) (h : addrRef P a seen addrs =
    (.ok (j, seen', addrs') : Except Err _)) :
    AddrsOf P seen' addrs' ∧ seen <+: seen' ∧ seen'[j]? = some a := by
  simp only [addrRef] at h
  split at h
  · rename_i i hi
    cases h
    obtain ⟨hlt, he, -⟩ := List.idxOf?_eq_some_iff.1 hi
    exact ⟨hs, List.prefix_rfl, by rw [List.getElem?_eq_getElem hlt, he]⟩
  · simp only [Except.bind_eq_ok] at h
    obtain ⟨b, hb, h⟩ := h
    cases h
    refine ⟨?_, List.prefix_append _ _, by simp⟩
    rw [AddrsOf] at hs
    simp [AddrsOf, List.mapM_append, hs, unpackAddr_packAddr P hb]

theorem listGet_eq {l : List α} (h : l[i]? = some a) : listGet l i = (.ok a : Except Err α) := by
  simp [listGet, h]

theorem getElem?_of_isPrefix {l l' : List α} {i : Nat} (h : l <+: l') (hi : l[i]? = some a) :
    l'[i]? = some a := by
  obtain ⟨t, rfl⟩ := h
  rw [List.getElem?_append_left (List.getElem?_eq_some_iff.1 hi).1, hi]

def readTx (mode : Mode) (f : Nat → Text) (n : Nat) (bh : Text) (addrs : List Text) (b : Bytes) :
    Except Err Row := do
  let t ← unpackRow mode b
  t.row n (f t.pubkeyId) bh addrs

/-- `r'` is what the body of the block `bh` at height `n` gives back for `r`. -/
structure RowOf (P : Prims) (mode : Mode) (forkHeight : Option Nat) (n : Nat) (bh : Text)
    (r r' : Row) : Prop where
  same : Row.Same P mode forkHeight r r'
  stored : Row.Stored mode n bh r'
  back : Row.ReadsBack mode forkHeight r r'

theorem Row.Stored.rowOf (hr : Row.Stored mode n bh r) (h : Row.ReadsBack mode forkHeight r r') :
    RowOf P mode forkHeight n bh r r' := by
  have hback := h
  rw [Row.ReadsBack, hr.height] at h
  split at h <;> rename_i hfork
  · obtain ⟨cs, ua, uf, ur, hcs, h1, h2, h3, rfl⟩ := h
    obtain ⟨m1, m2, m3⟩ := hr.units_eq h1 h2 h3
    exact ⟨hr.repacked_same hfork hcs m1 m2 m3, hr.repacked hcs m1 m2 m3, hback⟩
  · cases h
    exact ⟨.refl r, hr, hback⟩

theorem readTx_packRow (hheight : r.height = n) (hhash : r.blockHash = bh) (hfork : postFork forkHeight n)
    (h : packRow P mode (r.withId i) ai ri = (.ok b : Except Err Bytes)) :
    ∃ r', Row.ReadsBack mode forkHeight r r' ∧ ∀ (f : Nat → Text) (l : List Text),
      f i = r.publicKey → l[ai]? = some r.address → l[ri]? = some r.recipient →
      readTx mode f n bh l b = .ok r' := by
  obtain ⟨cs, ua, uf, ur, hcs, h1, h2, h3, hu⟩ := unpackRow_packRow P mode h
  refine ⟨r.repacked mode cs ua uf ur, ?_, fun f l hf ha hri => ?_⟩
  · rw [Row.ReadsBack, if_pos (hheight ▸ hfork)]
    exact ⟨cs, ua, uf, ur, hcs, h1, h2, h3, rfl⟩
  rw [readTx, hu, Except.ok_bind]
  simp only [UnpackedTx.row, listGet_eq ha, listGet_eq hri, Except.ok_bind, Row.withId, hf,
    Row.repacked, hheight, hhash]
  rfl

theorem packedTxs_spec (hd : KeysDistinct P keys) (hfork : postFork forkHeight n)
    {st st' : Store} {addrs' txs : List Bytes} (hst : KeyTable P keys st)
    (hk : ∀ r ∈ rows, keys r.publicKey) (hs : ∀ r ∈ rows, r.height = n ∧ r.blockHash = bh)
    (ha : AddrsOf P seen addrs) (h : packedTxs P mode st seen addrs rows = .ok (st', addrs', txs)) :
    KeyTable P keys st' ∧ KeysExtend st st' ∧ ∃ seen' rows',
      AddrsOf P seen' addrs' ∧ seen <+: seen' ∧
      List.Forall₂ (Row.ReadsBack mode forkHeight) rows rows' ∧
      ∀ f, Reads st'.pkr f → ∀ l, seen' <+: l → txs.mapM (readTx mode f n bh l) = .ok rows' := by
  induction rows generalizing st seen addrs txs with
  | nil =>
    cases h
    exact ⟨hst, .refl _, seen, [], ha, List.prefix_rfl, .nil, fun _ _ _ _ => rfl⟩
  | cons r rows ih =>
    rcases h1 : pubkeyId P st r.publicKey with ⟨st1, i⟩
    simp only [packedTxs, h1, Except.bind_eq_ok, Prod.exists] at h
    obtain ⟨ai, s1, a1, hai, ri, s2, a2, hri, b, hb, st2, a3, txs2, h2, h⟩ := h
    cases h
    obtain ⟨k1, e1, g1⟩ := pubkeyId_spec hst hd (hk r (by simp)) h1
    obtain ⟨ha1, p1, i1⟩ := addrRef_spec ha hai
    obtain ⟨ha2, p2, i2⟩ := addrRef_spec ha1 hri
    obtain ⟨k2, e2, seen', rows', ha', p3, hrows, hread⟩ :=
      ih k1 (fun r hr => hk r (by simp [hr])) (fun r hr => hs r (by simp [hr])) ha2 h2
    obtain ⟨hheight, hhash⟩ := hs r (by simp)
    obtain ⟨r', hr', hget⟩ := readTx_packRow hheight hhash hfork hb
    refine ⟨k2, e1.trans e2, seen', r' :: rows', ha', (p1.trans p2).trans p3,
      .cons hr' hrows, fun f hf l hl => ?_⟩
    have hi : f i = r.publicKey := hf (e2.pkr g1)
    rw [List.mapM_cons, hget f l hi (getElem?_of_isPrefix (p2.trans (p3.trans hl)) i1)
      (getElem?_of_isPrefix (p3.trans hl) i2), hread f hf l hl]
    rfl

theorem makeBody_reads (hd : KeysDistinct P keys) (hst : KeyTable P keys st)
    (hk : ∀ r ∈ rows, keys r.publicKey) (hs : ∀ r ∈ rows, r.height = n ∧ r.blockHash = hash)
    (hhash : ∀ b, fromHex hash = some b → hex b = hash)
    (h : makeBody P mode st n hash rows forkHeight = .ok (st', body)) :
    KeyTable P keys st' ∧ KeysExtend st st' ∧ ∃ rows',
      List.Forall₂ (Row.ReadsBack mode forkHeight) rows rows' ∧ Expands P mode st'.pkr n body rows' := by
  simp only [makeBody] at h
  split at h <;> rename_i hfork
  · simp only [Except.bind_eq_ok, Prod.exists] at h
    obtain ⟨st1, addrs, txs, h1, h⟩ := h
    have hback : body.hash = hash := by
      cases hb : fromHex hash with
      | none =>
        rw [hb] at h
        cases h
        rfl
      | some b =>
        rw [hb] at h
        cases h
        exact hhash b hb
    cases h
    obtain ⟨k1, e1, seen, rows', ha, -, hrows, hread⟩ :=
      packedTxs_spec hd hfork hst hk hs (show AddrsOf P [] [] from rfl) h1
    refine ⟨k1, e1, rows', hrows, fun f hf => ?_⟩
    rw [AddrsOf] at ha
    simp only [expand, ha, Except.ok_bind, hback]
    exact hread f hf seen List.prefix_rfl
  · rcases h2 : legacyTxs P st rows with ⟨st2, txs⟩
    rw [h2] at h
    cases h
    obtain ⟨k2, e2, g2⟩ := legacyTxs_spec hst hd hk (fun r hr => (hs r hr).1) h2
    refine ⟨k2, e2, rows, List.forall₂_same.2 fun r hr => ?_, fun f hf => congrArg Except.ok (g2 f hf)⟩
    rw [Row.ReadsBack, (hs r hr).1, if_neg hfork]

/-! ## Writing a body -/

theorem heightKey_ok (h : heightKey n = (.ok k : Except Err Nat)) :
    0 ≤ n ∧ n < 2 ^ 64 ∧ k = n.toNat := by
  simp only [heightKey] at h
  split at h <;> cases h
  exact ⟨And.left ‹_›, And.right ‹_›, rfl⟩

theorem heightKey_natCast {n : Nat} (h : n < 2 ^ 64) : heightKey n = (.ok n : Except Err Nat) := by
  rw [heightKey, if_pos ⟨by omega, by exact_mod_cast h⟩]; rfl

theorem lmdbKey_ok (h : lmdbKey k = (.ok k' : Except Err Bytes)) :
    k' = k ∧ k ≠ [] ∧ k.length ≤ 511 := by
  simp only [lmdbKey] at h
  split at h <;> cases h
  rename_i hk
  rw [not_or, not_lt] at hk
  exact ⟨rfl, hk⟩

theorem hashKey_hex (b : Bytes) : hashKey (hex b) = b := by simp [hashKey, fromHex_hex]

theorem putBody_frame (h : putBody P mode st n hash rows forkHeight = .ok st') :
    ∃ body, n < 2 ^ 64 ∧ (postFork forkHeight n = false → ∃ txs, body = .legacy hash txs) ∧
      (∀ d, hash = hex d → body.hash = hash) ∧ st' = { st with
        blocks := st.blocks.put n body, hashes := st.hashes.put (hashKey hash) n, pk := st'.pk,
        pkr := st'.pkr } := by
  simp only [putBody, Except.bind_eq_ok, Prod.exists] at h
  obtain ⟨st₁, body, hbody, k, hk, k', hk', h⟩ := h
  obtain ⟨-, hlt, rfl⟩ := heightKey_ok hk
  obtain ⟨rfl, -⟩ := lmdbKey_ok hk'
  obtain ⟨hkeys, hlegacy, hhash⟩ := makeBody_frame hbody
  cases h
  refine ⟨body, by omega, hlegacy, hhash, ?_⟩
  rw [OnlyKeys] at hkeys
  rw [hkeys]

structure BodyOf (P : Prims) (mode : Mode) (forkHeight : Option Nat) (pkr : OrdTable Nat Text)
    (n : Nat) (b : Bytes) (rows : List Row) (body : Body) (rows' : List Row) : Prop where
  hash : body.hash = hex b
  hashKey : body.hashKey = b
  rows : List.Forall₂ (RowOf P mode forkHeight n (hex b)) rows rows'
  expands : Expands P mode pkr n body rows'

theorem hashKey_of_makeBody (h : makeBody P mode st n (hex b) rows forkHeight = .ok (st', body)) :
    body.hashKey = b := by
  simp only [makeBody] at h
  split at h
  · simp only [fromHex_hex, Except.bind_eq_ok, Prod.exists] at h
    obtain ⟨st1, addrs, txs, -, h⟩ := h
    cases h
    rfl
  · cases h
    exact hashKey_hex b

theorem makeBody_spec (hd : KeysDistinct P keys) (hst : KeyTable P keys st)
    (hk : ∀ r ∈ rows, keys r.publicKey) (hs : ∀ r ∈ rows, Row.Stored mode n (hex b) r)
    (h : makeBody P mode st n (hex b) rows forkHeight = .ok (st', body)) :
    KeyTable P keys st' ∧ KeysExtend st st' ∧
      ∃ rows', BodyOf P mode forkHeight st'.pkr n b rows body rows' := by
  obtain ⟨k1, e1, rows', hrows, hexp⟩ := makeBody_reads hd hst hk
    (fun r hr => ⟨(hs r hr).height, (hs r hr).blockHash⟩) (fun b' hb' => by rw [fromHex_hex] at hb'; cases hb'; rfl) h
  refine ⟨k1, e1, rows', (makeBody_frame h).2.2 b rfl, hashKey_of_makeBody h, ?_, hexp⟩
  refine hrows.with_mem.imp ?_
  rintro r r' ⟨hr, -, hback⟩
  exact (hs r hr).rowOf hback

theorem putBody_reads (hd : KeysDistinct P keys) (hst : KeyTable P keys st)
    (hk : ∀ r ∈ rows, keys r.publicKey) (hs : ∀ r ∈ rows, r.height = n ∧ r.blockHash = hash)
    (hhash : ∀ b, fromHex hash = some b → hex b = hash)
    (h : putBody P mode st n hash rows forkHeight = .ok st') :
    ∃ body rows', st'.blocks = st.blocks.put n body ∧
      List.Forall₂ (Row.ReadsBack mode forkHeight) rows rows' ∧ Expands P mode st'.pkr n body rows' := by
  simp only [putBody, Except.bind_eq_ok, Prod.exists] at h
  obtain ⟨st1, body, h1, m, hm, k, hkey, h⟩ := h
  obtain ⟨-, -, rfl⟩ := heightKey_ok hm
  obtain ⟨-, he, rows', hrows, hexp⟩ := makeBody_reads hd hst hk hs hhash h1
  cases h
  refine ⟨body, rows', ?_, hrows, hexp⟩
  rw [he.eq]

theorem putBody_keys (hst : KeyTable P keys st) (hd : KeysDistinct P keys)
    (hk : ∀ r ∈ rows, keys r.publicKey) (h : putBody P mode st n hash rows forkHeight = .ok st') :
    KeyTable P keys st' ∧ ∀ {i p}, st.pkr.get? i = some p → st'.pkr.get? i = some p := by
  simp only [putBody, Except.bind_eq_ok, Prod.exists] at h
  obtain ⟨st1, body, h1, m, hm, k, hkey, h⟩ := h
  obtain ⟨hk1, he⟩ := makeBody_keys hst hd hk h1
  cases h
  exact ⟨⟨hk1.known, hk1.fresh⟩, he.pkr⟩

theorem putBody_spec (hd : KeysDistinct P keys) (hst : KeyTable P keys st)
    (hk : ∀ r ∈ rows, keys r.publicKey) (hs : ∀ r ∈ rows, Row.Stored mode n (hex b) r)
    (h : putBody P mode st n (hex b) rows forkHeight = .ok st') :
    ∃ pk pkr body rows', BodyOf P mode forkHeight pkr n b rows body rows' ∧ KeyTable P keys st' ∧
      (∀ {i p}, st.pkr.get? i = some p → pkr.get? i = some p) ∧ b ≠ [] ∧
      st' = { st with
        blocks := st.blocks.put n body, hashes := st.hashes.put b n, pk, pkr } := by
  simp only [putBody, Except.bind_eq_ok, Prod.exists] at h
  obtain ⟨st1, body, h1, m, hm, k, hkey, h⟩ := h
  obtain ⟨-, -, rfl⟩ := heightKey_ok hm
  obtain ⟨rfl, hne, -⟩ := lmdbKey_ok hkey
  obtain ⟨hk1, he, rows', hbody⟩ := makeBody_spec hd hst hk hs h1
  rw [hashKey_hex] at hne h
  cases h
  refine ⟨st1.pk, st1.pkr, body, rows', hbody, ⟨hk1.known, hk1.fresh⟩, he.pkr, hne, ?_⟩
  rw [he.eq]

end Bismuth
