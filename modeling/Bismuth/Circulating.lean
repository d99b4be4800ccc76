import Bismuth.Fee
import Bismuth.Store.Immature
import Bismuth.Store.Range

/-!
# Circulating supply

`/api/supply`: the rewards less the fees of the chain. A thread sums them up once from the balances; the figure is kept
in memory and in a file, and a request adds the blocks above the height of the figure to it.
-/

namespace Bismuth

namespace Circulating
open Py Relation

/-- What `_supply_cache` holds, and its file. -/
structure Cache where
  height : Nat
  circ : Number
  mode : Mode

structure Sys where
  ledger : Ledger := ∅
  hddBlock : Nat := 0
  memory : Option Cache := none
  disk : Option Cache := none
  /-- The thread of `start_supply_compute`: it has been started, or it has its figure and has not stored it yet. -/
  computing : Option (Option Cache) := none

inductive Answer where
  | ok (height : Nat) (circulating : Number)
  | computing (height : Nat)

section
variable (P : Prims) (mode : Mode)

def typedSupply (t : TypedRow) : Except Err Int := do
  return (← units mode t.reward) - (← units mode t.fee)

def supplyUnitsRange (st : Store) (lo hi : Nat) : Except Err Int := do
  let blocks ← st.blocksInRange P mode (lo + 1) hi
  return (← (blocks.flatMap Prod.snd).mapM (typedSupply mode)).sum

/-- The sum over `iter_balances`. -/
def balancesTotal (st : Store) : Int := (st.bal.entries.map fun e => e.2.2.1 - e.2.2.2.2).sum

/-- The rounds of `supply_units_total`; `seen i` is the store at the `i`-th read. -/
def supplyRounds (seen : Nat → Store) : (rounds i : Nat) → (total : Int) → Nat × Int
  | 0, i, total => ((seen i).tip.getD 0, total)
  | rounds + 1, i, _ =>
    let total := balancesTotal (seen (i + 1))
    if (seen (i + 2)).tip = (seen i).tip then ((seen i).tip.getD 0, total) else supplyRounds seen rounds (i + 3) total

def supplyUnitsTotal (seen : Nat → Store) : Nat × Int := supplyRounds seen 5 0 0

namespace Sys
variable (s : Sys)

/-- `load_supply_cache`. -/
def load : Option Cache := s.disk.filter (·.mode = mode)

/-- `start_supply_compute`: nothing while the thread runs. -/
def startCompute : Sys := if s.computing.isSome then s else { s with computing := some none }

def read : Sys :=
  let (tip, total) := supplyUnitsTotal fun _ => s.ledger.store
  match (toDecimal total : Except Err Number) with
  | .ok circ => { s with computing := some (some ⟨tip, circ, mode⟩) }
  | .error _ => { s with computing := none }

/-- It stores its figure. -/
def finish (c : Cache) : Sys := { s with memory := some c, disk := some c, computing := none }

/-- A restart, with `node_block_init` and `_warm_supply_cache`. -/
def restart : Sys :=
  let s := { s with hddBlock := s.ledger.store.tip.getD 0, memory := s.load mode, computing := none }
  if s.memory.isNone then s.startCompute else s

/-- The figure at the height of the node. -/
def topUp (c : Cache) : Except Err Cache := do
  let added ← toDecimal (← supplyUnitsRange P mode s.ledger.store c.height s.hddBlock)
  return ⟨s.hddBlock, ← add c.circ added, mode⟩

/-- The answer while there is no figure. -/
def compute (height : Nat) : Except Err Answer × Sys := (.ok (.computing height), s.startCompute)

/-- `_supply` with the figure `c`. -/
def answer (c : Cache) : Except Err Answer × Sys :=
  if c.mode = mode then
    if s.hddBlock ≤ c.height then (Answer.ok c.height <$> quantizeEightNum c.circ, s)
    else
      match s.topUp P mode c with
      | .error _ => s.compute s.hddBlock
      | .ok c' =>
        let s := { s with memory := some c', disk := some c' }
        match quantizeEightNum c'.circ with
        | .ok x => (.ok (.ok c'.height x), s)
        | .error _ => s.compute s.hddBlock
  else s.compute s.hddBlock

def supply : Except Err Answer × Sys :=
  match s.memory with
  | some c => s.answer P mode c
  | none =>
    match s.load mode with
    | some c => { s with memory := some c }.answer P mode c
    | none => s.compute s.hddBlock

end Sys

variable (keys : Text → Prop) (forkHeight : Option Nat)

/-- A commit, a rollback, a request, a step of the thread or a restart. The height of the node follows the tip. -/
inductive Step : Sys → Sys → Prop
  | ledger : Bismuth.Step P mode keys forkHeight s.ledger l →
    Step s { s with ledger := l, hddBlock := l.store.tip.getD 0 }
  | request : Step s (s.supply P mode).2
  | read : s.computing = some none → Step s (s.read mode)
  | finish : s.computing = some (some c) → Step s (s.finish c)
  | restart : Step s (s.restart mode)

end

variable {P : Prims} {mode : Mode} {keys : Text → Prop} {forkHeight : Option Nat}

/-! ## The supply of a chain -/

def rowsSupply (mode : Mode) (rows : List Row) : Int :=
  (rows.map fun r => unitsOf mode r.reward - unitsOf mode r.fee).sum

def chainSupply (mode : Mode) (chain : List LiveBlock) : Int := rowsSupply mode (chain.flatMap (·.rows))

def allocated (st : Store) : Int := (st.allocations.entries.map Prod.snd).sum

theorem rowsSupply_append (mode : Mode) (rows rows' : List Row) :
    rowsSupply mode (rows ++ rows') = rowsSupply mode rows + rowsSupply mode rows' := by simp [rowsSupply]

theorem chainSupply_cons (mode : Mode) (b : LiveBlock) (chain : List LiveBlock) :
    chainSupply mode (b :: chain) = rowsSupply mode b.rows + chainSupply mode chain := by
  rw [chainSupply, List.flatMap_cons, rowsSupply_append]
  rfl

theorem chainSupply_append (mode : Mode) (chain chain' : List LiveBlock) :
    chainSupply mode (chain ++ chain') = chainSupply mode chain + chainSupply mode chain' := by
  rw [chainSupply, List.flatMap_append, rowsSupply_append]
  rfl

theorem rowsSupply_same {rows rows' : List Row} (h : SameRows P mode forkHeight rows rows') :
    rowsSupply mode rows' = rowsSupply mode rows := by
  have hmap := h.map_eq (f := fun r => unitsOf mode r.reward - unitsOf mode r.fee)
    (g := fun r => unitsOf mode r.reward - unitsOf mode r.fee) fun hr => by
      simp only [unitsOf, hr.reward, hr.fee]
  rw [rowsSupply, rowsSupply, hmap]

theorem chainSupply_shows {chain read : List LiveBlock} (h : ShowsAll P mode forkHeight chain read) :
    chainSupply mode read = chainSupply mode chain := by
  induction h with
  | nil => rfl
  | cons hb _ ih => rw [chainSupply_cons, chainSupply_cons, ih, rowsSupply_same hb.sameRows]

/-! ## The sum of the balances -/

def Parts.net : Parts →+ Int where
  toFun p := p.2.1 - p.2.2.2
  map_zero' := rfl
  map_add' p q := by
    show p.2.1 + q.2.1 - (p.2.2.2 + q.2.2.2) = _
    ring

theorem net_deltas {b : LiveBlock} (h : b.Ok P mode forkHeight) :
    ((b.deltas P mode forkHeight).map fun e => Parts.net e.2).sum = rowsSupply mode b.rows := by
  obtain ⟨es, hes⟩ := h.indexed
  rw [LiveBlock.deltas, LiveBlock.entries_eq hes]
  have hrel : List.Forall₂ (fun (x : Row × Nat) e => indexEntry P mode b.height forkHeight x.2 x.1 = .ok e)
      b.rows.zipIdx es := Except.mapM_eq_ok.1 hes
  rw [rowsSupply, ← List.zipIdx_map_fst 0 b.rows, List.map_map]
  clear hes
  generalize b.rows.zipIdx = l at hrel ⊢
  induction hrel with
  | nil => rfl
  | @cons x e l es hx _ ih =>
    obtain ⟨q, amt, reward, fee, -, -, hreward, hfee, -, -, hd, -⟩ := indexEntry_ok hx
    rw [List.flatMap_cons, List.map_append, List.sum_append, ih, List.map_cons, List.sum_cons, hd]
    simp [Parts.net, unitsOf_eq hreward, unitsOf_eq hfee, sub_eq_add_neg]

variable {chain : List LiveBlock}

theorem net_chain (hok : ∀ b ∈ chain, b.Ok P mode forkHeight) :
    ((chain.flatMap (·.deltas P mode forkHeight)).map fun e => Parts.net e.2).sum = chainSupply mode chain := by
  induction chain with
  | nil => rfl
  | cons b chain ih =>
    rw [List.flatMap_cons, List.map_append, List.sum_append, ih fun c hc => hok c (List.mem_cons_of_mem b hc),
      net_deltas (hok b List.mem_cons_self), chainSupply_cons]

theorem chainTotal_eq_tally (chain : List LiveBlock) (k : Bytes) :
    chainTotal P mode forkHeight chain k = tally abytes (chain.flatMap (·.deltas P mode forkHeight)) k := by
  induction chain with
  | nil => rfl
  | cons b chain ih =>
    rw [List.flatMap_cons, tally_append, ← ih]
    rfl

/-- The balances of a ledger sum up to the supply of its chain and the allocations. -/
theorem balancesTotal_eq {l : Ledger} (H : l.Good P mode keys forkHeight) :
    balancesTotal l.store = chainSupply mode l.chain + allocated l.store := by
  obtain ⟨read, hread, HI⟩ := H
  have htally : ∀ k, (l.store.bal.get? k).getD 0 = tally abytes
      (read.flatMap (·.deltas P mode forkHeight) ++ allocAcc l.store.allocations) k := by
    intro k
    rw [tally_append, ← chainTotal_eq_tally]
    exact HI.bal k
  have hsum := congrArg Parts.net (OrdTable.sum_values_of_tally htally)
  rw [map_list_sum, map_list_sum, List.map_map, List.map_map, List.map_append, List.sum_append] at hsum
  have halloc : ((allocAcc l.store.allocations).map (Parts.net ∘ Prod.snd)).sum = allocated l.store := by
    rw [allocAcc, List.map_map, allocated]
    congr 1
    refine List.map_congr_left fun e _ => ?_
    simp [Parts.net]
  calc balancesTotal l.store = (l.store.bal.entries.map (Parts.net ∘ Prod.snd)).sum := rfl
    _ = _ := hsum
    _ = chainSupply mode l.chain + allocated l.store := by
        rw [halloc, ← chainSupply_shows hread, ← net_chain HI.ok]
        rfl

/-! ## The blocks above a height -/

/-- The rewards and the fees of a block are below `2 ^ 26`. -/
def Small (mode : Mode) (b : LiveBlock) : Prop :=
  ∀ r ∈ b.rows, unitsOf mode r.reward < 2 ^ 26 * 10 ^ 8 ∧ unitsOf mode r.fee < 2 ^ 26 * 10 ^ 8

theorem units_typed {s s' : Text} (hmoney : ∃ u, MoneyText mode s' u)
    (hsame : units mode (.str s') = (units mode (.str s) : Except Err Int)) (hsmall : unitsOf mode s < 2 ^ 26 * 10 ^ 8)
    (hv : numeric s' = .ok v) : units mode v = (.ok (unitsOf mode s) : Except Err Int) := by
  obtain ⟨u, hu⟩ := hmoney
  have heq : unitsOf mode s = u := unitsOf_eq (hsame.symm.trans hu.units)
  rw [heq] at hsmall
  obtain ⟨v', hv', hunits, -⟩ := hu.units_typed (by exact_mod_cast hsmall)
  cases hv.symm.trans hv'
  rw [hunits, heq]

theorem typedSupply_reads (h : Row.Reads P mode forkHeight n bh r t) (hreward : unitsOf mode r.reward < 2 ^ 26 * 10 ^ 8)
    (hfee : unitsOf mode r.fee < 2 ^ 26 * 10 ^ 8) :
    typedSupply mode t = .ok (unitsOf mode r.reward - unitsOf mode r.fee) := by
  obtain ⟨r', hrow, ht⟩ := h
  obtain ⟨-, -, hf, hr, -⟩ := typedRow_ok ht
  rw [typedSupply, units_typed hrow.stored.reward hrow.same.reward hreward hr,
    units_typed hrow.stored.fee hrow.same.fee hfee hf]
  rfl

theorem typedSupply_chain {tbs : List TypedBlock} (hsmall : ∀ b ∈ chain, Small mode b)
    (h : List.Forall₂ (LiveBlock.Typed P mode forkHeight) chain tbs) :
    ∃ us, (tbs.flatMap Prod.snd).mapM (typedSupply mode) = .ok us ∧ us.sum = chainSupply mode chain := by
  induction h with
  | nil => exact ⟨[], rfl, rfl⟩
  | @cons b t chain tbs hb _ ih =>
    obtain ⟨us, hus, hsum⟩ := ih fun c hc => hsmall c (List.mem_cons_of_mem b hc)
    have hrows : t.2.mapM (typedSupply mode) = .ok (b.rows.map fun r => unitsOf mode r.reward - unitsOf mode r.fee) := by
      rw [Except.mapM_eq_ok, List.forall₂_map_right_iff]
      refine hb.rows.with_mem.flip.imp ?_
      rintro t r ⟨hr, -, hreads⟩
      have hsm := hsmall b List.mem_cons_self r hr
      exact typedSupply_reads hreads hsm.1 hsm.2
    refine ⟨(b.rows.map fun r => unitsOf mode r.reward - unitsOf mode r.fee) ++ us, ?_, ?_⟩
    · rw [List.flatMap_cons, List.mapM_append, hrows, Except.ok_bind, hus]
      rfl
    · rw [List.sum_append, hsum, chainSupply_cons]
      rfl

/-- The blocks above `lo` up to `hi`. -/
def span (lo hi : Nat) (chain : List LiveBlock) : List LiveBlock :=
  chain.filter fun b => lo < b.height ∧ b.height ≤ hi

theorem supplyUnitsRange_eq {l : Ledger} (H : l.Good P mode keys forkHeight) (hsmall : ∀ b ∈ l.chain, Small mode b)
    {lo hi : Nat} (hlo : lo + 1 < 2 ^ 64) (hhi : hi + 1 < 2 ^ 64) :
    supplyUnitsRange P mode l.store lo hi = .ok (chainSupply mode (span lo hi l.chain)) := by
  obtain ⟨tbs, htbs, htyped⟩ := H.typedChain
  have hspan : List.Forall₂ (LiveBlock.Typed P mode forkHeight) (span lo hi l.chain)
      (between ((lo : Int) + 1) hi tbs) := by
    refine List.rel_filter (fun b t hbt => ?_) htyped
    show decide _ = true ↔ decide _ = true
    rw [decide_eq_true_eq, decide_eq_true_eq, hbt.height]
    omega
  have hsmall' : ∀ b ∈ span lo hi l.chain, Small mode b := fun b hb => hsmall b (List.mem_of_mem_filter hb)
  obtain ⟨us, hus, hsum⟩ := typedSupply_chain hsmall' hspan
  rw [supplyUnitsRange, Store.blocksInRange_eq htbs (by omega) (by omega), Except.ok_bind, hus, ← hsum]
  rfl

theorem chainSupply_span (hsorted : chain.Pairwise fun a b => a.height < b.height) {lo hi : Nat} (h : lo ≤ hi) :
    chainSupply mode (upTo lo chain) + chainSupply mode (span lo hi chain) = chainSupply mode (upTo hi chain) := by
  have hsplit := List.filter_append_filter (p := fun b : LiveBlock => b.height ≤ lo) (q := fun b => lo < b.height)
    (l := upTo hi chain) (fun b => by simp)
    ((hsorted.filter _).imp fun hlt hb => by
      simp only [decide_eq_true_eq] at hb ⊢
      omega)
  rw [← chainSupply_append, ← hsplit, upTo, upTo, span, List.filter_filter, List.filter_filter]
  congr 2 <;> refine List.filter_congr fun b _ => ?_ <;> rw [← Bool.decide_and, decide_eq_decide] <;> omega

/-! ## What the figures say -/

namespace Sys

/-- Every figure that the node has or is about to have. -/
def caches (s : Sys) : List Cache := s.memory.toList ++ s.disk.toList ++ s.computing.join.toList

theorem mem_caches {s : Sys} {c : Cache} :
    c ∈ s.caches ↔ s.memory = some c ∨ s.disk = some c ∨ s.computing = some (some c) := by
  simp only [caches, List.mem_append, Option.mem_toList, Option.join_eq_some_iff, or_assoc]

/-- A state in which no figure is for a height above the tip; the amounts are those of the network. -/
structure Steady (mode : Mode) (fixed : Int) (s : Sys) : Prop where
  first : ∀ b ∈ s.ledger.chain, 0 < b.height
  small : ∀ b ∈ s.ledger.chain, Small mode b
  bound : ∀ h, |chainSupply mode (upTo h s.ledger.chain) + fixed| < 10 ^ 28
  alloc : s.caches ≠ [] → allocated s.ledger.store = fixed
  kept : ∀ c ∈ s.caches, c.height ≤ s.ledger.store.tip.getD 0

end Sys

structure Cache.Valid (mode : Mode) (fixed : Int) (chain : List LiveBlock) (c : Cache) : Prop where
  inMode : c.mode = mode
  circ : IsBis c.circ (chainSupply mode (upTo c.height chain) + fixed)

/-- The node follows its ledger, and its figures are right. -/
structure Inv (P : Prims) (mode : Mode) (keys : Text → Prop) (forkHeight : Option Nat) (fixed : Int) (s : Sys) :
    Prop where
  good : s.ledger.Good P mode keys forkHeight
  first : ∀ b ∈ s.ledger.chain, 0 < b.height
  height : s.hddBlock = s.ledger.store.tip.getD 0
  valid : ∀ c ∈ s.caches, c.Valid mode fixed s.ledger.chain

section
variable {fixed : Int} {s s' : Sys} {l l' : Ledger}

/-- A figure stays right while the chain up to its height does. -/
theorem Cache.Valid.of_upTo {chain chain' : List LiveBlock} {c : Cache} (h : c.Valid mode fixed chain)
    (heq : upTo c.height chain' = upTo c.height chain) : c.Valid mode fixed chain' := ⟨h.inMode, heq ▸ h.circ⟩

theorem upTo_eq_nil {chain : List LiveBlock} (h : ∀ b ∈ chain, 0 < b.height) : upTo (0 : Nat) chain = [] := by
  rw [upTo, List.filter_eq_nil_iff]
  intro b hb
  have := h b hb
  simp only [decide_eq_true_eq]
  omega

/-- A step of the ledger that leaves the tip at or above a height leaves the chain up to there. -/
theorem upTo_of_step (hd : KeysDistinct P keys) (h : Bismuth.Step P mode keys forkHeight l l')
    (H : l.Good P mode keys forkHeight) (hfirst : ∀ b ∈ l.chain, 0 < b.height)
    (hfirst' : ∀ b ∈ l'.chain, 0 < b.height) {n : Nat} (hn : n ≤ l.store.tip.getD 0)
    (hn' : n ≤ l'.store.tip.getD 0) : upTo n l'.chain = upTo n l.chain := by
  have H' := h.good hd H
  cases h with
  | @commit m digest rows chain st st' difficulty hnew hfresh hcommit =>
    have hlt : n < m := by
      obtain hnil | ⟨init, last, hlast⟩ := List.eq_nil_or_concat' chain
      · have htip : (Ledger.mk st chain).store.tip = none := by rw [H.exact.tip, hnil]; rfl
        have hpos : 0 < m := hfirst' ⟨m, digest, rows, difficulty.map columnText⟩ (by simp)
        rw [htip, Option.getD_none] at hn
        omega
      · have hlast' := (List.pairwise_append.1 H'.sorted).2.2 last (by simp [hlast]) _ (List.mem_singleton_self _)
        rw [H.tip_eq hlast, Option.getD_some] at hn
        exact lt_of_le_of_lt hn hlast'
    have hnew : upTo n [(⟨m, digest, rows, difficulty.map columnText⟩ : LiveBlock)] = [] := by
      rw [upTo, List.filter_eq_nil_iff]
      intro b hb
      rw [List.mem_singleton.1 hb]
      simp only [decide_eq_true_eq]
      omega
    show upTo n (chain ++ _) = upTo n chain
    rw [upTo, List.filter_append, ← upTo, ← upTo, hnew, List.append_nil]
  | @rollback st k st' removed chain hrollback =>
    obtain hnil | ⟨init, last, hlast⟩ := List.eq_nil_or_concat' (upTo k chain)
    · have htip : (Ledger.mk st' (upTo k chain)).store.tip = none := by rw [H'.exact.tip, hnil]; rfl
      rw [htip, Option.getD_none, Nat.le_zero] at hn'
      rw [hn', upTo_eq_nil hfirst, upTo_eq_nil hfirst']
    · have hmem : last ∈ upTo k chain := by simp [hlast]
      have hle : (last.height : Int) ≤ k := of_decide_eq_true (List.mem_filter.1 hmem).2
      rw [H'.tip_eq hlast, Option.getD_some] at hn'
      show (upTo k chain).filter _ = _
      rw [upTo, upTo, List.filter_filter]
      refine List.filter_congr fun b _ => ?_
      rw [← Bool.decide_and, decide_eq_decide]
      omega
  | setAllocations _ _ => rfl

/-! ## Requests -/

theorem startCompute_same (s : Sys) : s.startCompute.ledger = s.ledger ∧ s.startCompute.hddBlock = s.hddBlock := by
  rw [Sys.startCompute]
  split <;> exact ⟨rfl, rfl⟩

theorem supply_same (P : Prims) (mode : Mode) (s : Sys) :
    (s.supply P mode).2.ledger = s.ledger ∧ (s.supply P mode).2.hddBlock = s.hddBlock := by
  have hanswer : ∀ (s : Sys) (c : Cache),
      (s.answer P mode c).2.ledger = s.ledger ∧ (s.answer P mode c).2.hddBlock = s.hddBlock := by
    intro s c
    rw [Sys.answer]
    split
    · split
      · exact ⟨rfl, rfl⟩
      · split
        · exact startCompute_same s
        · dsimp only
          split
          · exact ⟨rfl, rfl⟩
          · exact startCompute_same { s with memory := _, disk := _ }
    · exact startCompute_same s
  rw [Sys.supply]
  split
  · exact hanswer s _
  · split
    · exact hanswer { s with memory := _ } _
    · exact startCompute_same s

/-- What `_supply` keeps and answers, for a node with right figures. -/
structure Serves (mode : Mode) (fixed : Int) (s : Sys) (res : Except Err Answer × Sys) : Prop where
  valid : ∀ c ∈ res.2.caches, c.Valid mode fixed s.ledger.chain
  exact : ∀ h x, res.1 = .ok (.ok h x) → IsBis x (chainSupply mode (upTo h s.ledger.chain) + fixed)

theorem mem_caches_startCompute {c : Cache} (h : c ∈ s.startCompute.caches) : c ∈ s.caches := by
  rw [Sys.startCompute] at h
  split at h
  · exact h
  · rw [Sys.mem_caches] at h ⊢
    obtain h | h | h := h
    · exact .inl h
    · exact .inr (.inl h)
    · cases h

theorem Serves.compute (hvalid : ∀ c ∈ s.caches, c.Valid mode fixed s.ledger.chain) (n : Nat) :
    Serves mode fixed s (s.compute n) := by
  refine ⟨fun c hc => hvalid c (mem_caches_startCompute hc), ?_⟩
  intro h x hans
  cases hans

theorem topUp_valid (H : s.ledger.Good P mode keys forkHeight) (hheight : s.hddBlock = s.ledger.store.tip.getD 0)
    (hsmall : ∀ b ∈ s.ledger.chain, Small mode b)
    (hbound : ∀ h, |chainSupply mode (upTo h s.ledger.chain) + fixed| < 10 ^ 28) {c c' : Cache}
    (hc : c.Valid mode fixed s.ledger.chain) (hle : c.height ≤ s.hddBlock)
    (h : s.topUp P mode c = .ok c') : c'.Valid mode fixed s.ledger.chain := by
  have hlt : s.hddBlock < 2 ^ 63 := by
    obtain ⟨read, -, HI⟩ := H
    rw [hheight]
    exact HI.tip_lt
  rw [Sys.topUp, supplyUnitsRange_eq H hsmall (by omega) (by omega), Except.ok_bind] at h
  obtain ⟨added, hadded, h⟩ := Except.bind_eq_ok.1 h
  obtain ⟨circ, hcirc, h⟩ := Except.bind_eq_ok.1 h
  cases h
  refine ⟨rfl, ?_⟩
  have hsum : chainSupply mode (upTo c.height s.ledger.chain) + fixed +
      chainSupply mode (span c.height s.hddBlock s.ledger.chain) =
        chainSupply mode (upTo s.hddBlock s.ledger.chain) + fixed := by
    rw [← chainSupply_span H.sorted hle]
    ring
  have hadd := hc.circ.add (IsBis.of_toDecimal hadded) (by rw [hsum]; exact hbound _) hcirc
  rwa [hsum] at hadd

theorem Serves.answer (H : s.ledger.Good P mode keys forkHeight) (hheight : s.hddBlock = s.ledger.store.tip.getD 0)
    (hsmall : ∀ b ∈ s.ledger.chain, Small mode b)
    (hbound : ∀ h, |chainSupply mode (upTo h s.ledger.chain) + fixed| < 10 ^ 28)
    (hvalid : ∀ c ∈ s.caches, c.Valid mode fixed s.ledger.chain) (hc : c ∈ s.caches) :
    Serves mode fixed s (s.answer P mode c) := by
  have hcv := hvalid c hc
  rw [Sys.answer, if_pos hcv.inMode]
  split
  · refine ⟨hvalid, ?_⟩
    intro h x hans
    cases hq : quantizeEightNum c.circ with
    | error e =>
      rw [hq] at hans
      cases hans
    | ok y =>
      rw [hq] at hans
      cases hans
      exact hcv.circ.quantizeEightNum hq
  · rename_i hlt
    split
    · exact Serves.compute hvalid _
    · rename_i c' htop
      have hc' := topUp_valid H hheight hsmall hbound hcv (by omega) htop
      have hvalid' : ∀ d ∈ { s with memory := some c', disk := some c' }.caches, d.Valid mode fixed s.ledger.chain := by
        intro d hd
        rw [Sys.mem_caches] at hd
        obtain hd | hd | hd := hd
        · cases hd
          exact hc'
        · cases hd
          exact hc'
        · exact hvalid d (Sys.mem_caches.2 (.inr (.inr hd)))
      dsimp only
      split
      · rename_i x hx
        refine ⟨hvalid', ?_⟩
        intro h y hans
        cases hans
        exact hc'.circ.quantizeEightNum hx
      · have hcomp := Serves.compute (s := { s with memory := some c', disk := some c' }) hvalid' s.hddBlock
        exact ⟨hcomp.valid, hcomp.exact⟩

theorem Serves.supply (H : s.ledger.Good P mode keys forkHeight) (hheight : s.hddBlock = s.ledger.store.tip.getD 0)
    (hsmall : ∀ b ∈ s.ledger.chain, Small mode b)
    (hbound : ∀ h, |chainSupply mode (upTo h s.ledger.chain) + fixed| < 10 ^ 28)
    (hvalid : ∀ c ∈ s.caches, c.Valid mode fixed s.ledger.chain) :
    Serves mode fixed s (s.supply P mode) := by
  rw [Sys.supply]
  split
  · rename_i c hc
    exact Serves.answer H hheight hsmall hbound hvalid (Sys.mem_caches.2 (.inl hc))
  · split
    · rename_i c hload
      have hdisk : s.disk = some c := (Option.filter_eq_some_iff.1 hload).1
      have hmem : ∀ d ∈ { s with memory := some c }.caches, d ∈ s.caches := by
        intro d hd
        rw [Sys.mem_caches] at hd ⊢
        obtain hd | hd := hd
        · cases hd
          exact .inr (.inl hdisk)
        · exact .inr hd
      have hans := Serves.answer (s := { s with memory := some c }) H hheight hsmall hbound
        (fun d hd => hvalid d (hmem d hd)) (Sys.mem_caches.2 (.inl rfl))
      exact ⟨hans.valid, hans.exact⟩
    · exact Serves.compute hvalid _

/-! ## Runs -/

theorem supplyUnitsTotal_const (st : Store) : supplyUnitsTotal (fun _ => st) = (st.tip.getD 0, balancesTotal st) := by
  rw [supplyUnitsTotal, supplyRounds, if_pos rfl]

theorem upTo_tip (H : l.Good P mode keys forkHeight) : upTo (l.store.tip.getD 0 : Nat) l.chain = l.chain := by
  rw [upTo, List.filter_eq_self]
  intro b hb
  exact decide_eq_true (by exact_mod_cast H.le_tip hb)

theorem read_eq (s : Sys) : s.read mode = { s with computing :=
    match (toDecimal (balancesTotal s.ledger.store) : Except Err Number) with
    | .ok circ => some (some ⟨s.ledger.store.tip.getD 0, circ, mode⟩)
    | .error _ => none } := by
  unfold Sys.read
  simp only [supplyUnitsTotal_const]
  generalize (toDecimal (balancesTotal s.ledger.store) : Except Err Number) = circ
  cases circ <;> rfl

theorem mem_caches_read (h : c ∈ (s.read mode).caches) : c ∈ s.caches ∨ c.height = s.ledger.store.tip.getD 0 ∧
    c.mode = mode ∧ toDecimal (balancesTotal s.ledger.store) = (.ok c.circ : Except Err Number) := by
  rw [read_eq, Sys.mem_caches] at h
  rw [Sys.mem_caches]
  obtain h | h | h := h
  · exact .inl (.inl h)
  · exact .inl (.inr (.inl h))
  · dsimp only at h
    split at h
    · rename_i circ hcirc
      cases h
      exact .inr ⟨rfl, rfl, hcirc⟩
    · cases h

theorem read_same (mode : Mode) (s : Sys) : (s.read mode).ledger = s.ledger ∧ (s.read mode).hddBlock = s.hddBlock := by
  rw [read_eq]
  exact ⟨rfl, rfl⟩

theorem read_inv (hi : Inv P mode keys forkHeight fixed s) (hs' : (s.read mode).Steady mode fixed) :
    Inv P mode keys forkHeight fixed (s.read mode) := by
  have halloc := hs'.alloc
  obtain ⟨hledger, hheight⟩ := read_same mode s
  refine ⟨hledger ▸ hi.good, hledger ▸ hi.first, by rw [hheight, hledger, hi.height], fun c hc => ?_⟩
  rw [hledger] at halloc ⊢
  obtain hc' | ⟨hh, hm, hcirc⟩ := mem_caches_read hc
  · exact hi.valid c hc'
  · have hcirc := IsBis.of_toDecimal hcirc
    rw [balancesTotal_eq hi.good, halloc (List.ne_nil_of_mem hc)] at hcirc
    refine ⟨hm, ?_⟩
    rwa [hh, upTo_tip hi.good]

theorem Inv.startCompute (hi : Inv P mode keys forkHeight fixed s) :
    Inv P mode keys forkHeight fixed s.startCompute := by
  obtain ⟨hledger, hheight⟩ := startCompute_same s
  refine ⟨hledger ▸ hi.good, hledger ▸ hi.first, by rw [hheight, hledger, hi.height], fun c hc => ?_⟩
  rw [hledger]
  exact hi.valid c (mem_caches_startCompute hc)

theorem restart_ledger (mode : Mode) (s : Sys) : (s.restart mode).ledger = s.ledger := by
  rw [Sys.restart]
  dsimp only
  split
  · exact (startCompute_same _).1
  · rfl

theorem restart_inv (hi : Inv P mode keys forkHeight fixed s) : Inv P mode keys forkHeight fixed (s.restart mode) := by
  have hmem : ∀ c ∈ { s with hddBlock := s.ledger.store.tip.getD 0, memory := s.load mode, computing := none }.caches,
      c ∈ s.caches := by
    intro c hc
    rw [Sys.mem_caches] at hc ⊢
    obtain hc | hc | hc := hc
    · exact .inr (.inl (Option.filter_eq_some_iff.1 hc).1)
    · exact .inr (.inl hc)
    · cases hc
  have hinv : Inv P mode keys forkHeight fixed
      { s with hddBlock := s.ledger.store.tip.getD 0, memory := s.load mode, computing := none } :=
    ⟨hi.good, hi.first, rfl, fun c hc => hi.valid c (hmem c hc)⟩
  rw [Sys.restart]
  dsimp only
  split
  · exact hinv.startCompute
  · exact hinv

theorem step_inv (hd : KeysDistinct P keys) (h : Step P mode keys forkHeight s s')
    (hi : Inv P mode keys forkHeight fixed s) (hs : ∀ c ∈ s.caches, c.height ≤ s.ledger.store.tip.getD 0)
    (hs' : s'.Steady mode fixed) : Inv P mode keys forkHeight fixed s' := by
  cases h with
  | ledger hstep =>
    refine ⟨hstep.good hd hi.good, hs'.first, rfl, fun c hc => ?_⟩
    have hmem : c ∈ s.caches := hc
    exact (hi.valid c hmem).of_upTo (upTo_of_step hd hstep hi.good hi.first hs'.first (hs c hmem) (hs'.kept c hc))
  | request =>
    obtain ⟨hledger, hheight⟩ := supply_same P mode s
    have hserves := Serves.supply hi.good hi.height (hledger ▸ hs'.small) (hledger ▸ hs'.bound) hi.valid
    refine ⟨hledger ▸ hi.good, hledger ▸ hi.first, ?_, hledger ▸ hserves.valid⟩
    rw [hheight, hledger, hi.height]
  | read hcomputing => exact read_inv hi hs'
  | finish hcomputing =>
    refine ⟨hi.good, hi.first, hi.height, fun d hd => hi.valid d ?_⟩
    rw [Sys.mem_caches] at hd
    obtain hd | hd | hd := hd
    · cases hd
      exact Sys.mem_caches.2 (.inr (.inr hcomputing))
    · cases hd
      exact Sys.mem_caches.2 (.inr (.inr hcomputing))
    · cases hd
  | restart => exact restart_inv hi

def SteadyStep (P : Prims) (mode : Mode) (keys : Text → Prop) (forkHeight : Option Nat) (fixed : Int) (s s' : Sys) :
    Prop := Step P mode keys forkHeight s s' ∧ s'.Steady mode fixed

theorem run_inv (hd : KeysDistinct P keys) (h : ReflTransGen (SteadyStep P mode keys forkHeight fixed) {} s) :
    Inv P mode keys forkHeight fixed s ∧ ∀ c ∈ s.caches, c.height ≤ s.ledger.store.tip.getD 0 := by
  induction h with
  | refl =>
    have hgood : (∅ : Ledger).Good P mode keys forkHeight := ⟨[], .nil, .empty⟩
    exact ⟨⟨hgood, by simp [EmptyCollection.emptyCollection], rfl, by simp [Sys.caches]⟩, by simp [Sys.caches]⟩
  | tail _ hstep ih => exact ⟨step_inv hd hstep.1 ih.1 ih.2 hstep.2, hstep.2.kept⟩

end

/-! ## Rollbacks -/

section Sample

/-- The ledger has come to `l`. -/
private def Sys.moved (s : Sys) (l : Ledger) : Sys := { s with ledger := l, hddBlock := l.store.tip.getD 0 }

private def Sys.settle (s : Sys) : Sys :=
  let s := (s.supply .toy .decimal).2.read .decimal
  match s.computing.join with
  | some c => s.finish c
  | none => s

private def Sys.figure (s : Sys) : Option (Nat × Number) :=
  match (s.supply .toy .decimal).1 with
  | .ok (.ok height x) => some (height, x)
  | _ => none

private def firstBlock : LiveBlock := ⟨1, [1], sampleBlocks.1, none⟩
private def secondBlock : LiveBlock := ⟨2, [2], sampleBlocks.2, none⟩

/-- A block with another reward in the place of the second one. -/
private def otherBlock : LiveBlock := ⟨2, [3], [sampleRow 2 [3] 300 200000000], none⟩

private def commitLive (l : Ledger) (b : LiveBlock) : Except Err Ledger := do
  return ⟨← commitBlock .toy .decimal l.store b.height (hex b.digest) b.rows none (some 0), l.chain ++ [b]⟩

/-- The ledgers with one block, with two, after going back to one, and with another second block. -/
private def ledgers : Except Err (Ledger × Ledger × Ledger × Ledger) := do
  let l₁ ← commitLive ∅ firstBlock
  let l₂ ← commitLive l₁ secondBlock
  let (st, _) ← rollback .toy .decimal l₂.store 1 (some 0)
  let l₃ : Ledger := ⟨st, upTo 1 l₂.chain⟩
  let l₄ ← commitLive l₃ otherBlock
  return (l₁, l₂, l₃, l₄)

/-- What the node answers with the second block, after going back, and with the other one after a restart. -/
private theorem figures_eq : (do
    let (l₁, l₂, l₃, l₄) ← ledgers
    let s := (({} : Sys).moved l₁).settle.moved l₂
    let s' := ((s.supply .toy .decimal).2).moved l₃
    return ([s.figure, s'.figure, ((s'.moved l₄).restart .decimal).figure], allocated l₁.store, allocated l₂.store)
      : Except Err (List (Option (Nat × Number)) × Int × Int)) =
    .ok ([some (2, .fin 2 false), some (2, .fin 2 false), some (2, .fin 2 false)], 0, 0) := by
  decide +kernel

private abbrev SampleStep : Sys → Sys → Prop := SteadyStep .toy .decimal (· = ['k']) (some 0) 0

private theorem commitLive_step {l l' : Ledger} {b : LiveBlock} (h : commitLive l b = .ok l')
    (hnew : NewBlock .decimal (· = ['k']) b.height b.digest b.rows) (hfresh : ∀ c ∈ l.chain, c.digest ≠ b.digest)
    (hnone : b.difficulty = none) :
    Bismuth.Step .toy .decimal (· = ['k']) (some 0) l l' ∧ l'.chain = l.chain ++ [b] := by
  obtain ⟨st, hst, h⟩ := Except.bind_eq_ok.1 h
  cases h
  obtain ⟨n, digest, rows, difficulty⟩ := b
  cases hnone
  exact ⟨.commit none hnew hfresh hst, rfl⟩

private structure Plain (l : Ledger) : Prop where
  first : ∀ b ∈ l.chain, 0 < b.height
  small : ∀ b ∈ l.chain, Small .decimal b
  bound : ∀ h, |chainSupply .decimal (upTo h l.chain) + 0| < 10 ^ 28
  alloc : allocated l.store = 0

private theorem Plain.steady {s : Sys} (h : Plain s.ledger) (hkept : ∀ c ∈ s.caches, c.height ≤ s.ledger.store.tip.getD 0) :
    s.Steady .decimal 0 := ⟨h.first, h.small, h.bound, fun _ => h.alloc, hkept⟩

private theorem plain_of_sublist {l : Ledger} (hsub : l.chain.Sublist [firstBlock, secondBlock])
    (halloc : allocated l.store = 0) : Plain l := by
  have hblocks : ∀ b ∈ [firstBlock, secondBlock], 0 < b.height ∧ ∀ r ∈ b.rows,
      unitsOf .decimal r.reward < 2 ^ 26 * 10 ^ 8 ∧ unitsOf .decimal r.fee < 2 ^ 26 * 10 ^ 8 := by decide +kernel
  have hbound : ∀ chain ∈ [firstBlock, secondBlock].sublists, |chainSupply .decimal chain + 0| < 10 ^ 28 := by
    decide +kernel
  exact ⟨fun b hb => (hblocks b (hsub.subset hb)).1, fun b hb => (hblocks b (hsub.subset hb)).2,
    fun h => hbound _ (List.mem_sublists.2 (List.filter_sublist.trans hsub)), halloc⟩

private theorem settle_eq {s s₁ s₂ : Sys} (h₁ : (s.supply .toy .decimal).2 = s₁) (h₂ : s₁.read .decimal = s₂) :
    s.settle = match s₂.computing.join with
      | some c => s₂.finish c
      | none => s₂ := by
  subst h₁ h₂
  rfl

private theorem settle_run {s : Sys} (hplain : Plain s.ledger) (hmemory : s.memory = none) (hdisk : s.disk = none)
    (hcomputing : s.computing = none) : ReflTransGen SampleStep s s.settle ∧ s.settle.ledger = s.ledger ∧
      ∀ c ∈ s.settle.caches, c.height = s.ledger.store.tip.getD 0 := by
  obtain ⟨s₁, hs₁⟩ : ∃ s₁, s₁ = { s with computing := some none } := ⟨_, rfl⟩
  have hsupply : (s.supply .toy .decimal).2 = s₁ := by
    simp [Sys.supply, Sys.load, Sys.compute, Sys.startCompute, hmemory, hdisk, hcomputing, hs₁]
  have hledger₁ : s₁.ledger = s.ledger := by rw [hs₁]
  have hfree : s₁.caches = [] := by simp [hs₁, Sys.caches, hmemory, hdisk]
  have hstarted : s₁.computing = some none := by rw [hs₁]
  have hrequest : SampleStep s s₁ := by
    refine ⟨hsupply ▸ .request, Plain.steady (by rw [hledger₁]; exact hplain) ?_⟩
    simp [hfree]
  obtain ⟨s₂, hs₂⟩ : ∃ s₂, s₁.read .decimal = s₂ := ⟨_, rfl⟩
  have hledger₂ : s₂.ledger = s.ledger := by rw [← hs₂, (read_same .decimal s₁).1, hledger₁]
  have hread : ∀ c ∈ s₂.caches, c.height = s.ledger.store.tip.getD 0 := by
    intro c hc
    rw [← hs₂] at hc
    obtain hc | hc := mem_caches_read hc
    · rw [hfree] at hc
      cases hc
    · rw [hc.1, hledger₁]
  have hrun : SampleStep s₁ s₂ := by
    refine ⟨hs₂ ▸ .read hstarted, Plain.steady (by rw [hledger₂]; exact hplain) fun c hc => ?_⟩
    rw [hread c hc, hledger₂]
  rw [settle_eq hsupply hs₂]
  split
  · rename_i c hc
    rw [Option.join_eq_some_iff] at hc
    have hmem : ∀ d ∈ (s₂.finish c).caches, d ∈ s₂.caches := by
      intro d hd
      rw [Sys.mem_caches] at hd ⊢
      obtain hd | hd | hd := hd <;> cases hd <;> exact .inr (.inr hc)
    have hfinish : SampleStep s₂ (s₂.finish c) := by
      refine ⟨.finish hc, Plain.steady (by rw [← hledger₂] at hplain; exact hplain) fun d hd => ?_⟩
      show d.height ≤ s₂.ledger.store.tip.getD 0
      rw [hread d (hmem d hd), hledger₂]
    exact ⟨((ReflTransGen.single hrequest).tail hrun).tail hfinish, hledger₂, fun d hd => hread d (hmem d hd)⟩
  · exact ⟨(ReflTransGen.single hrequest).tail hrun, hledger₂, hread⟩

private theorem sample_run : ∃ l₁ l₂ l₃ l₄ : Ledger,
    Bismuth.Step .toy .decimal (· = ['k']) (some 0) ∅ l₁ ∧ Bismuth.Step .toy .decimal (· = ['k']) (some 0) l₁ l₂ ∧
    Bismuth.Step .toy .decimal (· = ['k']) (some 0) l₂ l₃ ∧ Bismuth.Step .toy .decimal (· = ['k']) (some 0) l₃ l₄ ∧
    l₁.chain = [firstBlock] ∧ l₂.chain = [firstBlock, secondBlock] ∧ l₃.chain = [firstBlock] ∧
    l₄.chain = [firstBlock, otherBlock] ∧ allocated l₁.store = 0 ∧ allocated l₂.store = 0 ∧
    (((({} : Sys).moved l₁).settle.moved l₂).figure = some (2, .fin 2 false)) ∧
    (((((({} : Sys).moved l₁).settle.moved l₂).supply .toy .decimal).2.moved l₃).figure = some (2, .fin 2 false)) ∧
    ((((((({} : Sys).moved l₁).settle.moved l₂).supply .toy .decimal).2.moved l₃).moved l₄).restart .decimal).figure =
      some (2, .fin 2 false) := by
  have h := figures_eq
  simp only [Except.bind_eq_ok] at h
  obtain ⟨⟨l₁, l₂, l₃, l₄⟩, hl, h⟩ := h
  simp only [Except.pure_eq_ok, Except.ok.injEq, Prod.mk.injEq, List.cons.injEq, and_true] at h
  obtain ⟨⟨hf₁, hf₂, hf₃⟩, ha₁, ha₂⟩ := h
  simp only [ledgers, Except.bind_eq_ok, Prod.exists, Except.pure_eq_ok, Except.ok.injEq, Prod.mk.injEq] at hl
  obtain ⟨m₁, h₁, m₂, h₂, st, removed, h₃, m₄, h₄, rfl, rfl, rfl, rfl⟩ := hl
  obtain ⟨hs₁, hc₁⟩ := commitLive_step h₁ sampleBlocks_new.1 (by simp [EmptyCollection.emptyCollection]) rfl
  rw [show (∅ : Ledger).chain = [] from rfl, List.nil_append] at hc₁
  obtain ⟨hs₂, hc₂⟩ := commitLive_step h₂ sampleBlocks_new.2 (by simp [hc₁, firstBlock, secondBlock]) rfl
  rw [hc₁, List.singleton_append] at hc₂
  have hup : upTo 1 m₂.chain = [firstBlock] := by rw [hc₂]; rfl
  have hother : NewBlock .decimal (· = ['k']) otherBlock.height otherBlock.digest otherBlock.rows := by
    refine ⟨by simp [otherBlock], ?_, ?_⟩
    · intro r hr
      rw [List.mem_singleton.1 hr]
      exact sampleRow_stored (by norm_num) (by norm_num)
    · intro r hr
      rw [List.mem_singleton.1 hr]
      rfl
  obtain ⟨hs₄, hc₄⟩ := commitLive_step h₄ hother (by simp [hup, firstBlock, otherBlock]) rfl
  rw [hup] at hc₄
  exact ⟨_, _, _, _, hs₁, hs₂, .rollback h₃, hs₄, hc₁, hc₂, hup, hc₄, ha₁, ha₂, hf₁, hf₂, hf₃⟩

private theorem figure_eq {s : Sys} (h : s.figure = some (n, x)) : (s.supply .toy .decimal).1 = .ok (.ok n x) := by
  rw [Sys.figure] at h
  split at h
  · rename_i heq
    cases h
    exact heq
  · cases h

/-- The node with the second block, after a request and the thread at the first one. -/
private theorem topped_run {l₁ l₂ : Ledger} (hs₁ : Bismuth.Step .toy .decimal (· = ['k']) (some 0) ∅ l₁)
    (hs₂ : Bismuth.Step .toy .decimal (· = ['k']) (some 0) l₁ l₂) (hc₁ : l₁.chain = [firstBlock])
    (hc₂ : l₂.chain = [firstBlock, secondBlock]) (ha₁ : allocated l₁.store = 0) (ha₂ : allocated l₂.store = 0) :
    ReflTransGen SampleStep {} ((({} : Sys).moved l₁).settle.moved l₂) ∧
      ((({} : Sys).moved l₁).settle.moved l₂).Steady .decimal 0 := by
  have H₁ := hs₁.good sample_keysDistinct ⟨[], .nil, .empty⟩
  have H₂ := hs₂.good sample_keysDistinct H₁
  have hplain₁ : Plain l₁ := plain_of_sublist (by rw [hc₁]; simp) ha₁
  have hplain₂ : Plain l₂ := plain_of_sublist (by rw [hc₂]) ha₂
  have hstep₁ : SampleStep {} (({} : Sys).moved l₁) := ⟨.ledger hs₁, Plain.steady hplain₁ (by simp [Sys.moved, Sys.caches])⟩
  obtain ⟨hsettle, hledger, hkept⟩ := settle_run (s := ({} : Sys).moved l₁) hplain₁ rfl rfl rfl
  have hsteady : ((({} : Sys).moved l₁).settle.moved l₂).Steady .decimal 0 := by
    refine Plain.steady hplain₂ fun c hc => ?_
    have hheight : c.height = l₁.store.tip.getD 0 := hkept c hc
    show c.height ≤ l₂.store.tip.getD 0
    have htip₁ : l₁.store.tip = some 1 := H₁.tip_eq (show l₁.chain = [] ++ [firstBlock] from hc₁)
    have htip₂ : l₂.store.tip = some 2 := H₂.tip_eq (show l₂.chain = [firstBlock] ++ [secondBlock] from hc₂)
    rw [hheight, htip₁, htip₂]
    decide
  refine ⟨(ReflTransGen.head hstep₁ hsettle).tail ⟨.ledger ?_, hsteady⟩, hsteady⟩
  rw [hledger]
  exact hs₂

end Sample

end Circulating

end Bismuth
