import Bismuth.Digest.Spend

/-!
# The supply

The sum of all balances changes with a block by its reward less its fees, whatever the block moves from
one address to another. A reward is the mining reward and the fees of the block, so that only the mining
reward is new.
-/

namespace Bismuth
open Py

variable {π : Type} {P : Prims} {cfg : Config π}

def Store.supply (st : Store) : Int := st.bal.sum netUnits

def Acc.net (acc : Acc) : Int := (acc.map fun e => netUnits e.2).sum

/-! ## The balance table -/

theorem Acc.net_add (a : Text) (d : Parts) (acc : Acc) : (acc.add a d).net = acc.net + netUnits d := by
  induction acc with
  | nil => simp [Acc.add, Acc.net]
  | cons e acc ih =>
    rw [Acc.add]
    split
    · simp only [Acc.net, List.map_cons, List.sum_cons, map_add]
      omega
    · simp only [Acc.net, List.map_cons, List.sum_cons] at ih ⊢
      omega

theorem Acc.net_fold_write (acc l : Acc) : (acc.fold .write l).net = acc.net + l.net := by
  induction l generalizing acc with
  | nil => simp [Acc.fold, Acc.net]
  | cons e l ih =>
    have h := ih (acc.add e.1 e.2)
    rw [Acc.net_add] at h
    rw [show acc.fold .write (e :: l) = (acc.add e.1 e.2).fold .write l from rfl, h]
    simp only [Acc.net, List.map_cons, List.sum_cons]
    omega

theorem applyBalance_sum (h : applyBalance bal a d = .ok bal') :
    bal'.sum netUnits = bal.sum netUnits + netUnits d := by
  rw [applyBalance] at h
  split at h <;> rename_i hd
  · cases h
    rw [hd, map_zero, add_zero]
  · simp only [Except.bind_eq_ok] at h
    obtain ⟨k, -, h⟩ := h
    have hold : ((bal.get? k).map netUnits).getD 0 = netUnits ((bal.get? k).getD 0) := by
      cases bal.get? k <;> simp
    have hnew : netUnits ((bal.get? k).getD 0 + d) = netUnits ((bal.get? k).getD 0) + netUnits d :=
      map_add _ _ _
    split at h <;> rename_i hzero
    · cases h
      rw [hzero, map_zero] at hnew
      rw [OrdTable.sum_erase, hold]
      omega
    · obtain ⟨p, hp, h⟩ := Except.bind_eq_ok.1 h
      cases h
      obtain rfl : (bal.get? k).getD 0 + d = p := by
        rw [balPack] at hp
        split at hp
        · exact Except.ok.inj hp
        · cases hp
      rw [OrdTable.sum_put, hold, hnew]
      omega

theorem applyBalances_sum (h : applyBalances bal acc = .ok bal') :
    bal'.sum netUnits = bal.sum netUnits + acc.net := by
  induction acc generalizing bal with
  | nil =>
    cases h
    simp [Acc.net]
  | cons e acc ih =>
    obtain ⟨bal₁, h1, h⟩ := Except.bind_eq_ok.1 h
    rw [ih h, applyBalance_sum h1]
    simp only [Acc.net, List.map_cons, List.sum_cons]
    omega

/-! ## One block -/

/-- What some rows add to the supply: their rewards less their fees. -/
def issuedUnits (mode : Mode) (rows : List Row) : Int :=
  (rows.map fun r => unitsOf mode r.reward - unitsOf mode r.fee).sum

theorem issuedUnits_append (mode : Mode) (rows rows' : List Row) :
    issuedUnits mode (rows ++ rows') = issuedUnits mode rows + issuedUnits mode rows' := by
  simp [issuedUnits]

theorem indexEntry_net (h : indexEntry P mode n forkHeight idx r = .ok e) :
    e.deltas.net = unitsOf mode r.reward - unitsOf mode r.fee := by
  obtain ⟨q, amt, reward, fee, -, hamt, hreward, hfee, -, -, hdeltas, -⟩ := indexEntry_ok h
  rw [hdeltas, unitsOf_eq hreward, unitsOf_eq hfee]
  simp only [Acc.net, netUnits, AddMonoidHom.coe_mk, ZeroHom.coe_mk, List.map_cons, List.map_nil,
    List.sum_cons, List.sum_nil]
  omega

theorem indexEntries_net (h : indexEntries P mode n forkHeight rows = .ok es) :
    Acc.net (es.flatMap (·.deltas)) = issuedUnits mode rows := by
  have hall := (Except.mapM_eq_ok.1 h).imp fun _ _ h => indexEntry_net h
  rw [issuedUnits, ← List.zipIdx_map_fst 0 rows, List.map_map]
  clear h
  generalize rows.zipIdx = l at hall
  induction hall with
  | nil => rfl
  | cons hr _ ih =>
    simp only [Acc.net, List.flatMap_cons, List.map_append, List.sum_append, List.map_cons,
      List.sum_cons] at ih hr ⊢
    rw [ih, hr]
    rfl

/-- A commit changes the supply by the rewards of the rows less their fees, and leaves the allocations. -/
theorem commitBlock_supply {hash : Text}
    (h : commitBlock P mode st n hash rows d forkHeight = .ok st') :
    st'.supply = st.supply + issuedUnits mode rows ∧ st'.alloc = st.alloc := by
  obtain ⟨st₁, es, pkref, bal, m, -, hbody, hes, -, hbal, -, rfl⟩ := commitBlock_ok h
  obtain ⟨body, -, -, -, hst⟩ := putBody_frame hbody
  have hsum := applyBalances_sum hbal
  rw [Acc.net_fold_write, indexEntries_net hes, hst, Acc.net, List.map_nil, List.sum_nil,
    zero_add] at hsum
  refine ⟨hsum, ?_⟩
  show st₁.alloc = st.alloc
  rw [hst]

theorem setAllocations_supply (hst : st.alloc = none) (h : setAllocations st alloc = .ok st') :
    st'.supply = st.supply + alloc.sum id := by
  simp only [setAllocations, Except.bind_eq_ok] at h
  obtain ⟨bal, hbal, h⟩ := h
  split at h
  · cases h
    show bal.sum netUnits = _
    rw [applyBalances_sum hbal, Store.allocations, hst, Store.supply, OrdTable.sum, Acc.net]
    refine congrArg₂ _ rfl (congrArg List.sum ?_)
    rw [List.map_map]
    have hkeys : (∅ : OrdTable Text Int).entries.map Prod.fst ++ (alloc.entries.map Prod.fst).filter
        (fun a => ((∅ : OrdTable Text Int).get? a).isNone) = alloc.entries.map Prod.fst :=
      List.filter_eq_self.2 fun _ _ => rfl
    rw [Option.getD_none, hkeys, List.map_map]
    refine List.map_congr_left fun e he => ?_
    simp [netUnits, OrdTable.mem_entries.1 he]
  · cases h

/-- What a block issues, in units: its mining reward, and the fees that it moves to its coinbase. -/
structure Issue where
  minted : Int
  fees : Int

/-- The coinbase of the accepted block is credited with the fees that the other rows pay and with the
mining reward, to within the rounding of the reward's text. -/
structure IssueOf {n : Node π} {s : Submission} (a : Acceptance P cfg n s) (i : Issue) : Prop where
  fees : i.fees = (a.spends.map fun p => unitsOf cfg.mode p.1.fee).sum
  reward : unitsOf cfg.mode a.coinbase.reward = i.minted + i.fees
  mined : ∃ q z, calculateMiningReward cfg n = .ok (.fin q z) ∧
    i.minted + i.fees = Rat.halfEven (context28.round (q + bis i.fees) * 10 ^ 8) ∧
    |i.minted - q * 10 ^ 8| ≤ 1 / 2 + (q * 10 ^ 8 + i.fees) / 10 ^ 27 / 2

/-- Rounding a reward to the context and then to units moves it by little more than half a unit. -/
theorem abs_reward_sub_le {q : ℚ} (hq : 1 / 2 ≤ q) :
    |(Rat.halfEven (context28.round q * 10 ^ 8) : ℚ) - q * 10 ^ 8| ≤
      1 / 2 + q * 10 ^ 8 / 10 ^ 27 / 2 := by
  have h0 : 0 < q := by linarith
  have hlog : -1 ≤ Int.log 10 |q| := by
    rw [abs_of_pos h0]
    refine (Int.zpow_le_iff_le_log (by norm_num) h0).1 (le_trans ?_ hq)
    norm_num
  have hround : |context28.round q - q| ≤ q / 10 ^ 27 / 2 := by
    have h := context28.abs_round_sub_le_mul h0.ne' (by simp only [context28]; omega)
    rw [abs_of_pos h0] at h
    refine h.trans (le_of_eq ?_)
    norm_num [context28]
    ring
  have hhalf := Rat.abs_halfEven_sub_le (context28.round q * 10 ^ 8)
  rw [abs_le] at hround hhalf ⊢
  constructor <;> linarith [hround.1, hround.2, hhalf.1, hhalf.2]

theorem calculateMiningReward_congr {n n' : Node π} (h : n'.lastBlock = n.lastBlock) :
    calculateMiningReward cfg n' = calculateMiningReward cfg n := by
  simp only [calculateMiningReward, Node.height, h]

namespace Acceptance
variable {n : Node π} {s : Submission} (a : Acceptance P cfg n s)

/-- The spends of a block earn nothing, and its coinbase pays no fee. -/
theorem issuedUnits_rows : issuedUnits cfg.mode (a.spends.map Prod.fst ++ [a.coinbase]) =
    unitsOf cfg.mode a.coinbase.reward - (a.spends.map fun p => unitsOf cfg.mode p.1.fee).sum := by
  have hzero := (MoneyText.zero cfg.mode).unitsOf
  have hspends : ∀ p ∈ a.spends, unitsOf cfg.mode p.1.reward = 0 := by
    intro p hp
    obtain ⟨tx, -, f, debit, fees, fee, h⟩ := a.exists_spend hp
    rw [h.row]
    exact hzero
  have hcoinbase : unitsOf cfg.mode a.coinbase.fee = 0 := by
    obtain ⟨f, mined, text, h⟩ := a.exists_coinbase
    rw [h.row]
    exact hzero
  rw [issuedUnits_append, issuedUnits, issuedUnits, List.map_singleton, List.sum_singleton, hcoinbase,
    List.map_map]
  have hneg : (a.spends.map ((fun r => unitsOf cfg.mode r.reward - unitsOf cfg.mode r.fee) ∘ Prod.fst)).sum =
      -(a.spends.map fun p => unitsOf cfg.mode p.1.fee).sum := by
    rw [List.sum_neg, List.map_map]
    refine congrArg List.sum (List.map_congr_left fun p hp => ?_)
    simp [hspends p hp]
  omega

theorem exists_issue : ∃ i, IssueOf a i ∧ a.store.supply = n.store.supply + i.minted := by
  obtain ⟨us, hus⟩ := a.exists_fees
  obtain ⟨q, z, u, hq, hle, hu, hround⟩ := a.exists_reward hus
  have hfees : (a.spends.map fun p => unitsOf cfg.mode p.1.fee).sum = (us.sum : Nat) := by
    clear hround
    generalize a.spends = l at hus
    induction hus with
    | nil => rfl
    | cons h _ ih => rw [List.map_cons, List.sum_cons, List.sum_cons, ih, h.1.unitsOf, Nat.cast_add]
  generalize us.sum = v at hround hfees
  have hv : bis v * 10 ^ 8 = v := by
    rw [bis]
    push_cast
    ring
  have hmined : |(u : ℚ) - v - q * 10 ^ 8| ≤ 1 / 2 + (q * 10 ^ 8 + v) / 10 ^ 27 / 2 := by
    have h := abs_reward_sub_le (q := q + bis v) (by
      have : 0 ≤ bis v := by rw [bis]; positivity
      linarith)
    rw [← hround, add_mul, hv, Int.cast_natCast] at h
    rwa [sub_sub, add_comm (v : ℚ)]
  refine ⟨⟨u - v, v⟩, ⟨hfees.symm, ?_, q, z, ?_, ?_, ?_⟩, ?_⟩
  · rw [hu.unitsOf]
    exact (sub_add_cancel _ _).symm
  · rw [← hq]
    exact (calculateMiningReward_congr a.node_lastBlock).symm
  · rw [← hround]
    exact sub_add_cancel _ _
  · exact_mod_cast hmined
  · rw [(commitBlock_supply a.commit).1, a.node_store, a.issuedUnits_rows, hu.unitsOf, hfees]

end Acceptance

/-! ## Chains from a fresh ledger -/

/-- The blocks `bs` were accepted one after the other on a fresh ledger, each by the node it stands next
to. In between, anything may happen that leaves the ledger alone. -/
inductive Grown (P : Prims) (cfg : Config π) : List (Node π × Submission) → Node π → Prop
  | fresh : Fresh P cfg n → Grown P cfg [] n
  | idle : Grown P cfg bs n → n'.store = n.store → Grown P cfg bs n'
  | accept : Grown P cfg bs n → acceptBlock P cfg s n = (.ok (), n') → Grown P cfg (bs ++ [(n, s)]) n'

theorem seedGenesis_supply (h : seedGenesis P cfg = .ok st) :
    st.supply = cfg.allocations.sum id + 10 ^ 8 := by
  rw [seedGenesis] at h
  obtain ⟨st₁, hcommit, h⟩ := Except.bind_eq_ok.1 h
  have hgenesis : issuedUnits cfg.mode [genesisRow cfg.mode] = 10 ^ 8 := by
    rcases cfg.mode <;> decide +kernel
  obtain ⟨hsupply, halloc⟩ := commitBlock_supply hcommit
  rw [setAllocations_supply halloc h, hsupply, hgenesis]
  show 0 + 10 ^ 8 + _ = _
  ring

/-- The supply is the allocations, the reward of the genesis block and what the blocks have minted. -/
theorem supply_conserved {n : Node π} (h : Grown P cfg bs n) :
    ∃ issues : List Issue,
      List.Forall₂ (fun b i => ∃ a : Acceptance P cfg b.1 b.2, IssueOf a i) bs issues ∧
      n.store.supply = cfg.allocations.sum id + 10 ^ 8 + (issues.map (·.minted)).sum := by
  induction h with
  | fresh h => exact ⟨[], .nil, by simpa using seedGenesis_supply h.store⟩
  | idle _ hst ih => rwa [hst]
  | accept _ hacc ih =>
    obtain ⟨issues, hissues, hsupply⟩ := ih
    obtain ⟨a, mempool, rfl⟩ := acceptBlock_ok hacc
    obtain ⟨i, hi, hstep⟩ := a.exists_issue
    refine ⟨issues ++ [i], List.rel_append hissues (.cons ⟨a, hi⟩ .nil), ?_⟩
    show a.store.supply = _
    rw [hstep, hsupply, List.map_append, List.sum_append, ← add_assoc]
    simp

/-- Two blocks on a fresh ledger, the second with a fee. -/
theorem supply_conserved_sample : ∃ n₀ n₁ n : Node Unit,
    Grown .toy (regnet .decimal) [(n₀, minedBlock), (n₁, payingBlock alice ['1', '0'])] n ∧
    n.store.supply = 2619999000 ∧
    ∃ issues : List Issue, List.Forall₂
        (fun b i => ∃ a : Acceptance .toy (regnet .decimal) b.1 b.2, IssueOf a i)
        [(n₀, minedBlock), (n₁, payingBlock alice ['1', '0'])] issues ∧
      n.store.supply =
        (regnet .decimal).allocations.sum id + 10 ^ 8 + (issues.map (·.minted)).sum := by
  have hrun : (acceptBlock .toy (regnet .decimal) minedBlock (freshNode .decimal none)).1 = .ok () ∧
      (acceptBlock .toy (regnet .decimal) (payingBlock alice ['1', '0'])
        (acceptBlock .toy (regnet .decimal) minedBlock (freshNode .decimal none)).2).1 = .ok () ∧
      (acceptBlock .toy (regnet .decimal) (payingBlock alice ['1', '0'])
        (acceptBlock .toy (regnet .decimal) minedBlock (freshNode .decimal none)).2).2.store.supply =
          2619999000 := by
    decide +kernel
  obtain ⟨h1, h2, hsupply⟩ := hrun
  have hgrown := ((Grown.fresh (freshNode_fresh .decimal ∅ 0 (by rfl : postFork none _ = false))).accept
    (Run.eq_of_fst h1)).accept (Run.eq_of_fst h2)
  exact ⟨_, _, _, hgrown, hsupply, supply_conserved hgrown⟩

end Bismuth
