import Bismuth.Lib.Commute
import Bismuth.Token.Supply

/-!
# Backfill

`on_block` takes the issuances of a block before its other rows; `backfill` takes all issuances of the chain, then
all transfers, then the legacy claims, then the structured alias operations. The two agree when the operations
that change places commute.
-/

namespace Bismuth
open Py

/-! ## Acts that commute -/

namespace TokenLedger
variable {l l' : TokenLedger}

theorem act_perm (h : l.Perm l') (a : Act) : (l.act a).Perm (l'.act a) := by
  cases a with
  | issue => exact step_perm h _
  | transfer t =>
    rw [act, act, spendable, spendable, total_perm h, total_perm h]
    exact step_perm h _
  | name => exact h

theorem takes_cons {e : Nat × TokenOp} (htxid : e.2.txid ≠ op.txid)
    (hissued : e.2.issued? = none ∨ op.issued? = none) :
    Takes (e :: l) height op ↔ l.Takes height op := by
  have hsees : sees (e :: l) op.txid = l.sees op.txid := by
    rw [sees, List.any_cons, decide_eq_false htxid, Bool.false_or]
    rfl
  have hknows : ∀ token ∈ op.issued?, knows (e :: l) token = l.knows token := by
    intro token ht
    have hne : e.2.issued? ≠ some token := by
      rcases hissued with h | h
      · rw [h]
        exact (Option.some_ne_none token).symm
      · rw [h] at ht
        cases ht
    rw [knows, List.any_cons, decide_eq_false hne, Bool.false_or]
    rfl
  rw [Takes, Takes, hsees]
  refine and_congr_right fun _ => and_congr_right fun _ => ?_
  constructor
  · intro h token ht
    exact hknows token ht ▸ h token ht
  · intro h token ht
    exact (hknows token ht).trans (h token ht)

theorem step_comm {c c' : TokenCall} (htxid : ∀ op op', c.op = .ok op → c'.op = .ok op' → op.txid ≠ op'.txid)
    (hissued : ∀ op, c.op = .ok op → op.issued? = none) (l : TokenLedger) :
    ((l.step c).step c').Perm ((l.step c').step c) := by
  cases hop : c.op with
  | error e =>
    have hstep (l : TokenLedger) : l.step c = l := by rw [step, hop]
    rw [hstep, hstep]
  | ok op =>
    cases hop' : c'.op with
    | error e =>
      have hstep (l : TokenLedger) : l.step c' = l := by rw [step, hop']
      rw [hstep, hstep]
    | ok op' =>
      have hne := htxid op op' hop hop'
      have hnone := hissued op hop
      have hstep (l : TokenLedger) : l.step c = if l.Takes c.height op then (c.height, op) :: l else l := by
        rw [step, hop]
      have hstep' (l : TokenLedger) :
          l.step c' = if l.Takes c'.height op' then (c'.height, op') :: l else l := by
        rw [step, hop']
      simp only [hstep, hstep']
      by_cases h : l.Takes c.height op
      · by_cases h' : l.Takes c'.height op'
        · rw [if_pos h, if_pos h', if_pos ((takes_cons hne (.inl hnone)).2 h'),
            if_pos ((takes_cons hne.symm (.inr hnone)).2 h)]
          exact .swap _ _ _
        · rw [if_pos h, if_neg h', if_pos h, if_neg (mt (takes_cons hne (.inl hnone)).1 h')]
      · by_cases h' : l.Takes c'.height op'
        · rw [if_neg h, if_pos h', if_neg (mt (takes_cons hne.symm (.inr hnone)).1 h)]
        · rw [if_neg h, if_neg h', if_neg h]

theorem spendable_cons_of_lt (h : height < e.1) (l : TokenLedger) (token sender : Text) :
    spendable (e :: l) token sender height = l.spendable token sender height := by
  rw [spendable, total_cons_none l fun _ _ => ?_, total_cons_none l fun _ _ => ?_]
  · rfl
  · rw [Bool.and_eq_false_iff]
    exact .inr (decide_eq_false (by omega))
  · rw [Bool.and_eq_false_iff]
    exact .inr (decide_eq_false (by omega))

/-- A transfer does not see an issuance at a later height, nor the issuance the transfer. -/
theorem transfer_comm {t : TransferAct} (hh : t.height < height) (htxid : t.txid ≠ txid) (l : TokenLedger) :
    ((l.act (.transfer t)).act (.issue height token issuer txid supply)).Perm
      ((l.act (.issue height token issuer txid supply)).act (.transfer t)) := by
  have hspend : (l.act (.issue height token issuer txid supply)).spendable t.token t.sender t.height =
      l.spendable t.token t.sender t.height := by
    rw [act, step]
    split
    · split
      · exact spendable_cons_of_lt hh l _ _
      · rfl
    · rfl
  have hact : (l.act (.issue height token issuer txid supply)).act (.transfer t) =
      (l.step (.registerIssue height token issuer txid supply)).step
        (t.call (l.spendable t.token t.sender t.height)) := by
    rw [← hspend]
    rfl
  rw [hact]
  refine step_comm (fun op op' hop hop' => ?_) (fun op hop => ?_) l
  · rw [TransferAct.txid_of_call hop]
    obtain ⟨n, -, h⟩ := Except.bind_eq_ok.1 hop'
    cases h
    exact htxid
  · rw [TransferAct.call] at hop
    split at hop
    · cases hop
      rfl
    · cases hop
      rfl

end TokenLedger

def AliasCall.next (c : AliasCall) (prev : Option (Text × Nat)) : Option (Text × Nat) :=
  match if c.Fits then c.wants prev else none with
  | some op => op.holder c.height
  | none => prev

namespace Names

theorem step_eq_update (m : Names) (c : AliasCall) : m.step c = Function.update m c.name (c.next (m c.name)) := by
  rw [step, AliasCall.op?, AliasCall.next]
  cases (if c.Fits then c.wants (m c.name) else none) with
  | some => rfl
  | none => exact (Function.update_eq_self _ _).symm

theorem step_comm {c c' : AliasCall} (h : c.name ≠ c'.name) (m : Names) :
    (m.step c).step c' = (m.step c').step c := by
  rw [step_eq_update m c, step_eq_update m c', step_eq_update _ c', step_eq_update _ c,
    Function.update_of_ne h.symm, Function.update_of_ne h, Function.update_comm h]

theorem foldl_step_comm {cs : List AliasCall} {c : AliasCall} (h : ∀ c' ∈ cs, c'.name ≠ c.name) (m : Names) :
    (cs.foldl step m).step c = cs.foldl step (m.step c) := by
  induction cs generalizing m with
  | nil => rfl
  | cons c' cs ih =>
    rw [List.foldl_cons, ih fun c' hc => h c' (by simp [hc]), step_comm (h c' (by simp))]
    rfl

end Names

/-! ## What the folds look at -/

namespace Act

def isIssue : Act → Bool
  | issue .. => true
  | _ => false

def isTransfer : Act → Bool
  | transfer _ => true
  | _ => false

def call? : Act → Option AliasCall
  | name c => some c
  | _ => none

end Act

theorem Names.foldl_act (acts : List Act) (m : Names) :
    acts.foldl Names.act m = (acts.filterMap Act.call?).foldl Names.step m := by
  induction acts generalizing m with
  | nil => rfl
  | cons a acts ih =>
    cases a with
    | issue => exact ih m
    | transfer => exact ih m
    | name c => exact ih _

theorem TokenLedger.foldl_act_filter (acts : List Act) (l : TokenLedger) :
    (acts.filter (!Act.isIssue ·)).foldl TokenLedger.act l = (acts.filter Act.isTransfer).foldl TokenLedger.act l := by
  induction acts generalizing l with
  | nil => rfl
  | cons a acts ih =>
    cases a with
    | issue => exact ih l
    | transfer => exact ih _
    | name => exact ih l

/-- The ledger after acts that `backfill` can sort. -/
theorem TokenLedger.foldl_act_sorted {acts : List Act}
    (h : acts.Pairwise fun a b => ∀ t height token issuer txid supply, a = .transfer t →
      b = .issue height token issuer txid supply → t.height < height ∧ t.txid ≠ txid) (l : TokenLedger) :
    (acts.foldl TokenLedger.act l).Perm
      ((acts.filter Act.isIssue ++ acts.filter Act.isTransfer).foldl TokenLedger.act l) := by
  have hperm := List.foldl_partition ⟨List.Perm.refl, List.Perm.symm, List.Perm.trans⟩
    (fun a _ _ h => TokenLedger.act_perm h a) Act.isIssue (h.imp fun {a b} hab ha hb l => ?_) l
  · rw [List.foldl_append] at hperm ⊢
    rwa [TokenLedger.foldl_act_filter] at hperm
  · cases b with
    | issue height token issuer txid supply =>
      cases a with
      | issue => cases ha
      | transfer t =>
        obtain ⟨hh, htxid⟩ := hab t height token issuer txid supply rfl rfl
        exact TokenLedger.transfer_comm hh htxid l
      | name => exact .refl _
    | transfer => cases hb
    | name => cases hb

namespace TokensAliases
variable {E : Env}

def rowsOf (blocks : List (Nat × List Row)) : List (Nat × Row) := blocks.flatMap fun b => b.2.map (b.1, ·)

structure Agree (x : Nat × Row) (t : TypedRow) : Prop where
  height : t.height = x.1
  address : t.address = x.2.address
  recipient : t.recipient = x.2.recipient
  signature : t.signature = x.2.signature
  operation : t.operation = x.2.operation
  openfield : t.openfield = x.2.openfield
  reward : rewardIsZero t.reward = rewardIsZero (.str x.2.reward)

theorem flatMap_scan {rows : List (Nat × Row)} {ts : List TypedRow} {q : ScanRow → Bool}
    {g : ScanRow → List β} {g' : Nat × Row → List β} (hrows : List.Forall₂ Agree rows ts)
    (h : ∀ x ∈ rows, ∀ t, Agree x t → (if scanned t && q (.of t) then g (.of t) else []) = g' x) :
    (((ts.filter scanned).map ScanRow.of).filter q).flatMap g = rows.flatMap g' := by
  induction hrows with
  | nil => rfl
  | @cons x t rows ts hxt _ ih =>
    have hx := h x (by simp) t hxt
    have hrest := ih fun x hx => h x (by simp [hx])
    rw [List.flatMap_cons, ← hx, ← hrest]
    by_cases hs : scanned t = true
    · rw [List.filter_cons_of_pos hs, List.map_cons, hs, Bool.true_and]
      by_cases hq : q (.of t) = true
      · rw [List.filter_cons_of_pos hq, if_pos hq, List.flatMap_cons]
      · rw [List.filter_cons_of_neg hq, if_neg hq]
        rfl
    · rw [List.filter_cons_of_neg hs, if_neg (by simp [hs])]
      rfl

/-- Rows that `on_block` and `backfill` take alike. -/
structure Orderly (E : Env) (blocks : List (Nat × List Row)) : Prop where
  heights : blocks.Pairwise (·.1 < ·.1)
  /-- A transfer is signed, and the store is asked for names without NUL. -/
  transfers : ∀ x ∈ rowsOf blocks, x.2.operation = opTransfer →
    x.2.signature.take 56 ≠ ['0'] ∧ NulFree (tokenField x.2.openfield) ∧ NulFree x.2.address
  /-- An issuance does not claim an alias. -/
  issues : ∀ x ∈ rowsOf blocks, x.2.operation = opIssue → aliasMark.isPrefixOf x.2.openfield = false
  /-- A transfer and an issuance in a later block are different transactions. -/
  txids : blocks.Pairwise fun b b' => ∀ r ∈ b.2, ∀ r' ∈ b'.2, r.operation = opTransfer →
    r'.operation = opIssue → r.signature.take 56 ≠ r'.signature.take 56
  /-- A legacy claim is not about a name that a structured operation before it is about. -/
  claims : (rowsOf blocks).Pairwise fun x y => x.2.operation ∈ aliasOps →
    y.2.operation ∉ opIssue :: opTransfer :: aliasOps → aliasMark.isPrefixOf y.2.openfield = true →
    ∀ c ∈ aliasCalls x.1 x.2.address x.2.operation x.2.openfield,
      c.name ≠ (legacyCall y.1 y.2.address y.2.openfield).name

/-- The part of a row in the second loop that is about aliases. -/
def nameCalls (x : Nat × Row) : List AliasCall :=
  if ¬rewardIsZero (.str x.2.reward) then []
  else if x.2.operation ∈ aliasOps then aliasCalls x.1 x.2.address x.2.operation x.2.openfield
  else if x.2.operation ∉ opIssue :: opTransfer :: aliasOps ∧ aliasMark.isPrefixOf x.2.openfield then
    [legacyCall x.1 x.2.address x.2.openfield]
  else []

def issuePart (E : Env) (x : Nat × Row) : List Act := issueRowActs E x.1 x.2

def transferPart (E : Env) (x : Nat × Row) : List Act :=
  if x.2.operation = opTransfer ∧ rewardIsZero (.str x.2.reward) then
    [.transfer (transferAct E x.1 (.str x.2.timestamp) x.2.address x.2.recipient x.2.signature x.2.openfield)]
  else []

variable {blocks : List (Nat × List Row)}

/-- A part of the acts of a chain that comes from one of the two loops. -/
theorem flatMap_chainActs {k : Act → List β} {g : Nat × Row → List β}
    (h : (∀ x ∈ rowsOf blocks, (issueRowActs E x.1 x.2).flatMap k = g x ∧ (otherRowActs E x.1 x.2).flatMap k = []) ∨
      ∀ x ∈ rowsOf blocks, (issueRowActs E x.1 x.2).flatMap k = [] ∧ (otherRowActs E x.1 x.2).flatMap k = g x) :
    (chainActs E blocks).flatMap k = (rowsOf blocks).flatMap g := by
  rw [chainActs, rowsOf, List.flatMap_assoc, List.flatMap_assoc]
  refine List.flatMap_congr fun b hb => ?_
  have hmem : ∀ r ∈ b.2, (b.1, r) ∈ rowsOf blocks := fun r hr =>
    List.mem_flatMap.2 ⟨b, hb, List.mem_map_of_mem hr⟩
  rw [blockActs, List.flatMap_append, List.flatMap_assoc, List.flatMap_assoc, List.flatMap_map]
  rcases h with h | h
  · rw [List.flatMap_eq_nil_iff.2 fun r hr => (h _ (hmem r hr)).2, List.append_nil]
    exact List.flatMap_congr fun r hr => (h _ (hmem r hr)).1
  · rw [List.flatMap_eq_nil_iff.2 fun r hr => (h _ (hmem r hr)).1, List.nil_append]
    exact List.flatMap_congr fun r hr => (h _ (hmem r hr)).2

theorem filter_eq_flatMap (p : α → Bool) (l : List α) : l.filter p = l.flatMap fun a => if p a then [a] else [] := by
  induction l with
  | nil => rfl
  | cons a l ih =>
    rw [List.filter_cons, List.flatMap_cons, ih]
    split
    · rfl
    · rfl

theorem mem_issueRowActs (h : a ∈ issueRowActs E height r) :
    r.operation = opIssue ∧ ∃ token supply,
      a = .issue height token r.recipient (r.signature.take 56) supply := by
  rw [issueRowActs] at h
  split at h
  · rename_i hop
    obtain ⟨supply, -, rfl⟩ := mem_issueActs h
    exact ⟨hop.1, _, _, rfl⟩
  · cases h

theorem opTransfer_notMem : opTransfer ∉ aliasOps := by decide

theorem otherRowActs_eq (x : Nat × Row)
    (h : x.2.operation = opIssue → aliasMark.isPrefixOf x.2.openfield = false) :
    otherRowActs E x.1 x.2 = transferPart E x ++ (nameCalls x).map .name := by
  rw [otherRowActs, transferPart, nameCalls]
  by_cases hz : rewardIsZero (.str x.2.reward) = true
  · simp only [hz, not_true_eq_false, if_false, and_true]
    by_cases ht : x.2.operation = opTransfer
    · rw [if_pos ht, if_pos ht, if_neg (by rw [ht]; decide), if_neg (by simp [ht])]
      rfl
    · rw [if_neg ht, if_neg ht, List.nil_append]
      by_cases ha : x.2.operation ∈ aliasOps
      · rw [if_pos ha, if_pos ha]
      · rw [if_neg ha, if_neg ha]
        by_cases hm : aliasMark.isPrefixOf x.2.openfield = true
        · have hi : x.2.operation ≠ opIssue := fun hi => by simp [h hi] at hm
          rw [if_pos hm, if_pos (by simp [ht, ha, hi, hm])]
          rfl
        · rw [if_neg hm, if_neg (by simp [hm])]
          rfl
  · simp [hz]

theorem mem_transferPart (h : a ∈ transferPart E x) : x.2.operation = opTransfer ∧ a = .transfer
    (transferAct E x.1 (.str x.2.timestamp) x.2.address x.2.recipient x.2.signature x.2.openfield) := by
  rw [transferPart] at h
  split at h
  · rename_i hop
    exact ⟨hop.1, List.mem_singleton.1 h⟩
  · cases h

section Live
variable {blocks : List (Nat × List Row)} (ho : Orderly E blocks)
include ho

theorem live_issues : (chainActs E blocks).filter Act.isIssue = (rowsOf blocks).flatMap (issuePart E) := by
  rw [filter_eq_flatMap]
  refine flatMap_chainActs (.inl fun x hx => ?_)
  rw [← filter_eq_flatMap, ← filter_eq_flatMap]
  constructor
  · refine List.filter_eq_self.2 fun a ha => ?_
    obtain ⟨-, _, _, rfl⟩ := mem_issueRowActs ha
    rfl
  · rw [otherRowActs_eq x (ho.issues x hx)]
    refine List.filter_eq_nil_iff.2 fun a ha => ?_
    rcases List.mem_append.1 ha with ha | ha
    · obtain ⟨-, rfl⟩ := mem_transferPart ha
      simp [Act.isIssue]
    · obtain ⟨c, -, rfl⟩ := List.mem_map.1 ha
      simp [Act.isIssue]

theorem live_transfers :
    (chainActs E blocks).filter Act.isTransfer = (rowsOf blocks).flatMap (transferPart E) := by
  rw [filter_eq_flatMap]
  refine flatMap_chainActs (.inr fun x hx => ?_)
  rw [← filter_eq_flatMap, ← filter_eq_flatMap]
  constructor
  · refine List.filter_eq_nil_iff.2 fun a ha => ?_
    obtain ⟨-, _, _, rfl⟩ := mem_issueRowActs ha
    simp [Act.isTransfer]
  · rw [otherRowActs_eq x (ho.issues x hx), List.filter_append, List.filter_eq_self.2 fun a ha => ?_,
      List.filter_eq_nil_iff.2 fun a ha => ?_, List.append_nil]
    · obtain ⟨c, -, rfl⟩ := List.mem_map.1 ha
      simp [Act.isTransfer]
    · obtain ⟨-, rfl⟩ := mem_transferPart ha
      rfl

theorem live_names : (chainActs E blocks).filterMap Act.call? = (rowsOf blocks).flatMap nameCalls := by
  rw [List.filterMap_eq_flatMap_toList]
  refine flatMap_chainActs (.inr fun x hx => ?_)
  rw [← List.filterMap_eq_flatMap_toList, ← List.filterMap_eq_flatMap_toList]
  constructor
  · refine List.filterMap_eq_nil_iff.2 fun a ha => ?_
    obtain ⟨-, _, _, rfl⟩ := mem_issueRowActs ha
    rfl
  · have hname : (Act.call? ∘ Act.name : AliasCall → Option AliasCall) = some := rfl
    rw [otherRowActs_eq x (ho.issues x hx), List.filterMap_append, List.filterMap_eq_nil_iff.2 fun a ha => ?_,
      List.nil_append, List.filterMap_map, hname, List.filterMap_some]
    obtain ⟨-, rfl⟩ := mem_transferPart ha
    rfl

/-- A transfer stands before an issuance only if it is in an earlier block. -/
theorem live_pairwise : (chainActs E blocks).Pairwise fun a b => ∀ t height token issuer txid supply,
    a = .transfer t → b = .issue height token issuer txid supply → t.height < height ∧ t.txid ≠ txid := by
  rw [chainActs, List.pairwise_flatMap]
  constructor
  · intro b hb
    rw [blockActs, List.pairwise_append]
    refine ⟨?_, ?_, ?_⟩
    · refine List.pairwise_of_forall_mem_list fun a ha a' _ => ?_
      rintro t _ _ _ _ _ rfl -
      obtain ⟨r, -, ha⟩ := List.mem_flatMap.1 ha
      obtain ⟨-, _, _, ha⟩ := mem_issueRowActs ha
      cases ha
    · refine List.pairwise_of_forall_mem_list fun a _ a' ha' => ?_
      rintro _ _ _ _ _ _ - rfl
      obtain ⟨r, hr, ha'⟩ := List.mem_flatMap.1 ha'
      rw [otherRowActs_eq (b.1, r) (ho.issues _ (List.mem_flatMap.2 ⟨b, hb, List.mem_map_of_mem hr⟩))] at ha'
      rcases List.mem_append.1 ha' with ha' | ha'
      · obtain ⟨-, ha'⟩ := mem_transferPart ha'
        cases ha'
      · obtain ⟨c, -, ha'⟩ := List.mem_map.1 ha'
        cases ha'
    · rintro a ha _ - t _ _ _ _ _ rfl -
      obtain ⟨r, -, ha⟩ := List.mem_flatMap.1 ha
      obtain ⟨-, _, _, ha⟩ := mem_issueRowActs ha
      cases ha
  · refine (ho.heights.and ho.txids).imp_of_mem fun {b b'} hb _ hbb => ?_
    rintro a ha a' ha' t height token issuer txid supply rfl rfl
    obtain ⟨r, hr, ⟨-, ha⟩ | ⟨hop, ha⟩ | ⟨c, ha, -⟩⟩ := mem_blockActs ha
    · obtain ⟨_, -, ha⟩ := mem_issueActs ha
      cases ha
    · cases ha
      obtain ⟨r', hr', ⟨hop', ha'⟩ | ⟨-, ha'⟩ | ⟨c, ha', -⟩⟩ := mem_blockActs ha'
      · obtain ⟨_, -, ha'⟩ := mem_issueActs ha'
        cases ha'
        refine ⟨hbb.1, ?_⟩
        have hsig := ho.transfers (b.1, r) (List.mem_flatMap.2 ⟨b, hb, List.mem_map_of_mem hr⟩) hop
        rw [transferAct, if_neg hsig.1]
        exact hbb.2 r hr r' hr' hop hop'
      · cases ha'
      · cases ha'
    · cases ha

end Live

/-! ## The order of the aliases -/

def isLegacy (x : Nat × Row) : Bool :=
  rewardIsZero (.str x.2.reward) && !(opIssue :: opTransfer :: aliasOps).contains x.2.operation &&
    aliasMark.isPrefixOf x.2.openfield

def legacyPart (x : Nat × Row) : List AliasCall :=
  if isLegacy x then [legacyCall x.1 x.2.address x.2.openfield] else []

def opsPart (x : Nat × Row) : List AliasCall :=
  if rewardIsZero (.str x.2.reward) ∧ x.2.operation ∈ aliasOps then
    aliasCalls x.1 x.2.address x.2.operation x.2.openfield
  else []

theorem nameCalls_eq (x : Nat × Row) : nameCalls x = if isLegacy x then legacyPart x else opsPart x := by
  rw [nameCalls, legacyPart, opsPart, isLegacy]
  by_cases hz : rewardIsZero (.str x.2.reward) = true
  · by_cases ha : x.2.operation ∈ aliasOps
    · simp [hz, ha]
    · by_cases hm : aliasMark.isPrefixOf x.2.openfield = true
      · simp [hz, ha, hm]
      · simp [hz, ha, hm]
  · simp [hz]

/-- The legacy claims can be taken before the structured operations. -/
theorem names_sorted (ho : Orderly E blocks) (m : Names) : ((rowsOf blocks).flatMap nameCalls).foldl Names.step m =
      ((rowsOf blocks).flatMap legacyPart ++ (rowsOf blocks).flatMap opsPart).foldl Names.step m := by
  have hsort := List.foldl_partition (f := fun m x => (nameCalls x).foldl Names.step m)
    (eq_equivalence (α := Names)) (fun _ _ _ h => by rw [h]) isLegacy
    (ho.claims.imp fun {x y} hxy hx hy m => ?_) m
  · rw [← List.foldl_flatMap, ← List.foldl_flatMap, List.flatMap_append] at hsort
    rw [hsort]
    congr 1
    refine congrArg₂ _ ?_ ?_
    · rw [filter_eq_flatMap, List.flatMap_assoc]
      refine List.flatMap_congr fun x _ => ?_
      rw [apply_ite (List.flatMap nameCalls), legacyPart]
      split
      · rename_i hx
        rw [List.flatMap_singleton, nameCalls_eq, if_pos hx, legacyPart, if_pos hx]
      · rfl
    · rw [filter_eq_flatMap, List.flatMap_assoc]
      refine List.flatMap_congr fun x _ => ?_
      cases hx : isLegacy x with
      | false => simp [nameCalls_eq, hx]
      | true =>
        have hno : x.2.operation ∉ aliasOps := by
          simp only [isLegacy, Bool.and_eq_true, Bool.not_eq_true', List.contains_eq_mem, decide_eq_false_iff_not,
            List.mem_cons, not_or] at hx
          exact hx.1.2.2.2
        simp [opsPart, hno]
  · -- a structured operation and a legacy claim after it
    simp only [nameCalls_eq, hx, hy, Bool.false_eq_true, if_false, if_true, legacyPart, List.foldl_cons,
      List.foldl_nil]
    refine Names.foldl_step_comm (fun c hc => ?_) m
    rw [opsPart] at hc
    split at hc
    · rename_i hop
      simp only [isLegacy, Bool.and_eq_true, Bool.not_eq_true', List.contains_eq_mem,
        decide_eq_false_iff_not] at hy
      exact hxy hop.2 hy.1.2 hy.2 c hc
    · cases hc

/-! ## The scan -/

theorem Agree.scanned {x : Nat × Row} {t : TypedRow} (h : Agree x t) : scanned t =
    (rewardIsZero (.str x.2.reward) &&
      ((opIssue :: opTransfer :: aliasOps).contains x.2.operation || aliasMark.isPrefixOf x.2.openfield)) := by
  rw [TokensAliases.scanned, h.reward, h.operation, h.openfield]

section Scan
variable {rows : List (Nat × Row)} {ts : List TypedRow} (hrows : List.Forall₂ Agree rows ts)
include hrows

theorem scan_issues (anchor : Nat) :
    ((((ts.filter scanned).map ScanRow.of).filter fun r => r.operation = opIssue ∧ anchor ≤ r.height).flatMap
      fun r => issueActs E r.height r.recipient r.signature r.openfield) =
    rows.flatMap fun x => if anchor ≤ x.1 then issuePart E x else [] := by
  refine flatMap_scan hrows fun x _ t h => ?_
  rw [h.scanned, ScanRow.of, h.height, h.recipient, h.signature, h.operation, h.openfield, issuePart,
    issueRowActs]
  by_cases hop : x.2.operation = opIssue
  · by_cases ha : anchor ≤ x.1
    · simp [hop, ha]
    · simp [ha]
  · simp [hop]

theorem scan_transfers (anchor : Nat)
    (hsigned : ∀ x ∈ rows, x.2.operation = opTransfer → x.2.signature.take 56 ≠ ['0']) :
    ((((ts.filter scanned).map ScanRow.of).filter fun r => r.operation = opTransfer ∧ anchor ≤ r.height).map
      fun r => Act.transfer
        (transferAct E r.height r.timestamp r.address r.recipient r.signature r.openfield)) =
    rows.flatMap fun x => if anchor ≤ x.1 then transferPart E x else [] := by
  refine List.map_eq_flatMap.trans (flatMap_scan hrows fun x hx t h => ?_)
  rw [h.scanned, ScanRow.of, h.height, h.address, h.recipient, h.signature, h.operation, h.openfield,
    transferPart]
  by_cases hop : x.2.operation = opTransfer
  · by_cases ha : anchor ≤ x.1
    · simp [hop, ha, transferAct, hsigned x hx hop]
    · simp [ha]
  · simp [hop]

theorem scan_legacy (anchor : Nat) :
    ((((ts.filter scanned).map ScanRow.of).filter fun r =>
      r.operation ∉ opIssue :: opTransfer :: aliasOps ∧ anchor ≤ r.height).map
      fun r => Act.name (legacyCall r.height r.address r.openfield)) =
    rows.flatMap fun x => if anchor ≤ x.1 then (legacyPart x).map .name else [] := by
  refine List.map_eq_flatMap.trans (flatMap_scan hrows fun x _ t h => ?_)
  rw [h.scanned, ScanRow.of, h.height, h.address, h.operation, h.openfield, legacyPart, isLegacy]
  by_cases hop : x.2.operation ∈ opIssue :: opTransfer :: aliasOps
  · simp only [hop, not_true_eq_false, false_and, decide_false, Bool.and_false, Bool.false_eq_true, if_false,
      List.contains_eq_mem, decide_true, Bool.not_true, Bool.false_and, List.map_nil, ite_self]
  · by_cases ha : anchor ≤ x.1
    · simp only [hop, not_false_eq_true, ha, and_self, decide_true, Bool.and_true, List.contains_eq_mem,
        decide_false, Bool.false_or, Bool.not_false, if_true]
      split
      · rfl
      · rfl
    · simp only [ha, and_false, decide_false, Bool.and_false, Bool.false_eq_true, if_false]

theorem scan_ops (anchor : Nat) :
    ((((ts.filter scanned).map ScanRow.of).filter fun r =>
      r.operation ∈ aliasOps ∧ anchor ≤ r.height).flatMap
      fun r => (aliasCalls r.height r.address r.operation r.openfield).map Act.name) =
    rows.flatMap fun x => if anchor ≤ x.1 then (opsPart x).map .name else [] := by
  refine flatMap_scan hrows fun x _ t h => ?_
  rw [h.scanned, ScanRow.of, h.height, h.address, h.operation, h.openfield, opsPart]
  by_cases hop : x.2.operation ∈ aliasOps
  · by_cases ha : anchor ≤ x.1
    · simp only [hop, ha, and_self, and_true, decide_true, Bool.and_true, List.contains_eq_mem,
        List.mem_cons, or_true, Bool.true_or, if_true]
      split
      · rfl
      · rfl
    · simp [ha]
  · simp [hop]

/-- What `backfill` does with the rows from the anchors on. -/
theorem scanActs_eq (tokAnchor aliasAnchor : Nat)
    (hsigned : ∀ x ∈ rows, x.2.operation = opTransfer → x.2.signature.take 56 ≠ ['0']) :
    scanActs E tokAnchor aliasAnchor ((ts.filter scanned).map .of) =
      (rows.flatMap fun x => if tokAnchor ≤ x.1 then issuePart E x else []) ++
      (rows.flatMap fun x => if tokAnchor ≤ x.1 then transferPart E x else []) ++
      (rows.flatMap fun x => if aliasAnchor ≤ x.1 then (legacyPart x).map .name else []) ++
      (rows.flatMap fun x => if aliasAnchor ≤ x.1 then (opsPart x).map .name else []) := by
  rw [scanActs, scan_issues hrows, scan_transfers hrows _ hsigned, scan_legacy hrows, scan_ops hrows]

end Scan

def Stores (P : Prims) (mode : Mode) (st : Store) (blocks : List (Nat × List Row)) : Prop :=
  ∀ height : Nat, height < 2 ^ 64 → ∃ tbs : List (Nat × List TypedRow),
    (match st.tip with
      | none => .ok []
      | some tip => st.blocksInRange P mode height tip : Except Err _) = .ok tbs ∧
    List.Forall₂ (fun b t => List.Forall₂ Agree (b.2.map (b.1, ·)) t.2) (blocks.filter (height ≤ ·.1)) tbs

theorem Stores.scan {P : Prims} {mode : Mode} {st : Store}
    (h : Stores P mode st blocks) (hh : height < 2 ^ 64) : ∃ ts,
      scanLedgerOperations P mode st height = .ok ((ts.filter scanned).map .of) ∧
      List.Forall₂ Agree (rowsOf (blocks.filter (height ≤ ·.1))) ts := by
  obtain ⟨tbs, hread, hagree⟩ := h height hh
  refine ⟨tbs.flatMap Prod.snd, ?_, ?_⟩
  · rw [scanLedgerOperations, List.filter_flatMap]
    cases htip : st.tip with
    | none =>
      rw [htip] at hread
      cases hread
      rfl
    | some tip =>
      rw [htip] at hread
      simp only at hread ⊢
      rw [hread]
      rfl
  · clear hread
    generalize blocks.filter (height ≤ ·.1) = blocks at hagree
    induction hagree with
    | nil => exact .nil
    | cons hb _ ih =>
      rw [rowsOf, List.flatMap_cons, List.flatMap_cons]
      exact List.rel_append hb ih

end TokensAliases

/-! ## Equal answers -/

theorem Names.foldl_act_eq_self {acts : List Act} (h : ∀ a ∈ acts, a.call? = none) (m : Names) :
    acts.foldl Names.act m = m := by
  rw [Names.foldl_act, List.filterMap_eq_nil_iff.2 h]
  rfl

theorem Names.foldl_act_name (cs : List AliasCall) (m : Names) :
    (cs.map Act.name).foldl Names.act m = cs.foldl Names.step m := by
  rw [List.foldl_map]
  rfl

theorem TokenLedger.foldl_act_name (cs : List AliasCall) (l : TokenLedger) :
    (cs.map Act.name).foldl TokenLedger.act l = l := by
  induction cs with
  | nil => rfl
  | cons c cs ih => exact ih

namespace Follows
variable {ti ti' : TokenIndex} {l l' : TokenLedger}

def registers (e : Nat × TokenOp) : Option (Bytes × TokenReg) :=
  match e.2 with
  | .issue m txid => some (utf8 m.token, ⟨e.1, m.recipient, txid, m.amount⟩)
  | _ => none

theorem tokreg (H : Follows ti l) : ti.tokreg.Lists (l.filterMap registers) := by
  obtain ⟨live, H, hl⟩ := H
  refine H.tokreg.perm ?_
  have := hl.filterMap registers
  rw [List.filterMap_map] at this
  exact this

theorem tokreg_eq (H : Follows ti l) (H' : Follows ti' l') (hl : l.Perm l') : ti.tokreg = ti'.tokreg :=
  (H.tokreg.perm (hl.filterMap _)).unique H'.tokreg

theorem tokenBalance_eq (H : Follows ti l) (H' : Follows ti' l') (hl : l.Perm l') (ht : NulFree token)
    (hp : NulFree party) : ti.tokenBalance token party = ti'.tokenBalance token party := by
  rw [TokenIndex.tokenBalance, TokenIndex.tokenBalance, H.sumCred ht hp, H.sumDeb ht hp, H'.sumCred ht hp,
    H'.sumDeb ht hp, TokenLedger.total_perm hl, TokenLedger.total_perm hl]

end Follows

theorem HoldsNames.aliasOwner_eq {ti ti' : TokenIndex} {m : Names} (H : HoldsNames ti m)
    (H' : HoldsNames ti' m) (name : Text) : ti.aliasOwner name = ti'.aliasOwner name := by
  rw [TokenIndex.aliasOwner, TokenIndex.aliasOwner, lmdbGet, lmdbGet, H.fwd, H'.fwd]

namespace TokensAliases
variable {E : Env}

/-- The acts of `backfill` on an empty store. -/
def sortedActs (E : Env) (blocks : List (Nat × List Row)) : List Act :=
  (rowsOf blocks).flatMap (issuePart E) ++ (rowsOf blocks).flatMap (transferPart E) ++
    ((rowsOf blocks).flatMap legacyPart).map .name ++ ((rowsOf blocks).flatMap opsPart).map .name

theorem backfill_eq {P : Prims} {mode : Mode} {st : Store} {blocks : List (Nat × List Row)}
    (hst : Stores P mode st blocks)
    (hsigned : ∀ x ∈ rowsOf blocks, x.2.operation = opTransfer → x.2.signature.take 56 ≠ ['0']) :
    backfill E P mode st {} = .ok (Act.applyAll (sortedActs E blocks) {}) := by
  obtain ⟨ts, hscan, hrows⟩ := hst.scan (Nat.zero_lt_succ _)
  have hall : blocks.filter (0 ≤ ·.1) = blocks := List.filter_eq_self.2 fun _ _ => by simp
  rw [hall] at hrows
  have hmin : min ({} : TokenIndex).tokAnchor ({} : TokenIndex).aliasAnchor = 0 := rfl
  rw [backfill, hmin, hscan, Except.ok_bind, backfillRows_eq, scanActs_eq hrows _ _ hsigned, sortedActs]
  have h0 (n : Nat) : ({} : TokenIndex).tokAnchor ≤ n := Nat.zero_le n
  have h0' (n : Nat) : ({} : TokenIndex).aliasAnchor ≤ n := Nat.zero_le n
  simp only [h0, h0', if_true, List.map_flatMap]
  rfl

variable {blocks : List (Nat × List Row)} (ho : Orderly E blocks)
include ho

theorem sortedActs_ledger :
    ((chainActs E blocks).foldl TokenLedger.act []).Perm ((sortedActs E blocks).foldl TokenLedger.act []) := by
  rw [sortedActs, List.foldl_append, List.foldl_append, TokenLedger.foldl_act_name,
    TokenLedger.foldl_act_name, ← live_issues ho, ← live_transfers ho]
  exact TokenLedger.foldl_act_sorted (live_pairwise ho) []

theorem sortedActs_names (m : Names) :
    (chainActs E blocks).foldl Names.act m = (sortedActs E blocks).foldl Names.act m := by
  have htokens : ((rowsOf blocks).flatMap (issuePart E) ++ (rowsOf blocks).flatMap (transferPart E)).foldl
      Names.act m = m := by
    refine Names.foldl_act_eq_self (fun a ha => ?_) m
    rcases List.mem_append.1 ha with ha | ha
    · obtain ⟨x, -, ha⟩ := List.mem_flatMap.1 ha
      obtain ⟨-, _, _, rfl⟩ := mem_issueRowActs ha
      rfl
    · obtain ⟨x, -, ha⟩ := List.mem_flatMap.1 ha
      obtain ⟨-, rfl⟩ := mem_transferPart ha
      rfl
  rw [sortedActs, List.foldl_append, List.foldl_append, htokens, Names.foldl_act_name, Names.foldl_act_name,
    Names.foldl_act, live_names ho, names_sorted ho, List.foldl_append]

theorem asks_of_mem_transferPart (hx : x ∈ rowsOf blocks) (ha : a ∈ transferPart E x) : a.Asks := by
  obtain ⟨hop, rfl⟩ := mem_transferPart ha
  exact (ho.transfers x hx hop).2

theorem asks_chainActs : ∀ a ∈ chainActs E blocks, a.Asks := by
  intro a ha
  obtain ⟨b, hb, ha⟩ := List.mem_flatMap.1 ha
  obtain ⟨r, hr, ⟨-, ha⟩ | ⟨hop, rfl⟩ | ⟨c, rfl, -⟩⟩ := mem_blockActs ha
  · obtain ⟨_, -, rfl⟩ := mem_issueActs ha
    trivial
  · exact (ho.transfers (b.1, r) (List.mem_flatMap.2 ⟨b, hb, List.mem_map_of_mem hr⟩) hop).2
  · trivial

theorem asks_sortedActs : ∀ a ∈ sortedActs E blocks, a.Asks := by
  intro a ha
  simp only [sortedActs, List.mem_append] at ha
  rcases ha with ((ha | ha) | ha) | ha
  · obtain ⟨x, -, ha⟩ := List.mem_flatMap.1 ha
    obtain ⟨-, _, _, rfl⟩ := mem_issueRowActs ha
    trivial
  · obtain ⟨x, hx, ha⟩ := List.mem_flatMap.1 ha
    exact asks_of_mem_transferPart ho hx ha
  · obtain ⟨c, -, rfl⟩ := List.mem_map.1 ha
    trivial
  · obtain ⟨c, -, rfl⟩ := List.mem_map.1 ha
    trivial

end TokensAliases

end Bismuth
