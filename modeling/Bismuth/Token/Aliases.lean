import Bismuth.Token.Restart

/-!
# The two maps of the aliases

`aliases_rollback` goes back exactly to the operations below its height, and the reverse map lists for every
address the names that the forward map gives to it. The second needs owners without a NUL, which ends the address
in a key of the reverse map: nothing keeps one out of the recipient of an `alias:transfer`.
-/

namespace Bismuth
open Py

/-! ## Going back -/

namespace Recounts
variable {ti : TokenIndex} {log : List AliasEntry} {c : AliasCall}

/-- A call at a height that is not below the others adds at most its own operation to the history. -/
theorem call (H : Recounts ti log) (hheight : ∀ e ∈ log, e.height ≤ c.height) :
    (∃ anchor, c.apply ti = { ti with aliasAnchor := anchor } ∧ Recounts (c.apply ti) log) ∨
      ∃ op, c.op? (Names.of log) = some op ∧
        c.apply ti = ti.aliasRecorded c.height op
          (revMoved ti.aliasRev op.name op.prev (op.holder c.height)) ∧
        Recounts (c.apply ti) (⟨c.height, ti.seq + 1, op⟩ :: log) := by
  by_cases h : ti.seq + 1 < 2 ^ 64 ∧ (c.op? (Names.of log)).isSome
  · obtain ⟨hs, hsome⟩ := h
    obtain ⟨op, hop⟩ := Option.isSome_iff_exists.1 hsome
    have heq := AliasCall.apply_of_op H.holdsNames hs hop
    exact .inr ⟨op, hop, heq, heq ▸ H.record hs hop hheight _⟩
  · obtain ⟨anchor, -, -, heq⟩ := AliasCall.apply_of_refused (c := c) H.holdsNames fun hs => by
      simpa using fun hsome => h ⟨hs, hsome⟩
    exact .inl ⟨anchor, heq, heq ▸ H.congr rfl rfl le_rfl H.seq_lt⟩

/-- Calls in the order of their heights put their entries before the history. -/
theorem calls {cs : List AliasCall} (H : Recounts ti log) (hsorted : cs.Pairwise (·.height ≤ ·.height))
    (hheight : ∀ e ∈ log, ∀ c ∈ cs, e.height ≤ c.height) :
    ∃ new, Recounts (cs.foldl AliasCall.apply ti) (new ++ log) ∧ ∀ e ∈ new, ∃ c ∈ cs, e.height = c.height := by
  induction cs generalizing ti log with
  | nil => exact ⟨[], H, by simp⟩
  | cons c cs ih =>
    obtain ⟨hc, hcs⟩ := List.pairwise_cons.1 hsorted
    rcases H.call (c := c) fun e he => hheight e he c List.mem_cons_self with
      ⟨anchor, -, H'⟩ | ⟨op, -, -, H'⟩
    · obtain ⟨new, Hnew, hnew⟩ := ih H' hcs fun e he c' hc' => hheight e he c' (List.mem_cons_of_mem _ hc')
      refine ⟨new, Hnew, fun e he => ?_⟩
      obtain ⟨c', hc', h⟩ := hnew e he
      exact ⟨c', List.mem_cons_of_mem _ hc', h⟩
    · have hheight' : ∀ e ∈ ⟨c.height, ti.seq + 1, op⟩ :: log, ∀ c' ∈ cs, e.height ≤ c'.height := by
        rintro e (_ | ⟨_, he⟩) c' hc'
        · exact hc c' hc'
        · exact hheight e he c' (List.mem_cons_of_mem _ hc')
      obtain ⟨new, Hnew, hnew⟩ := ih H' hcs hheight'
      refine ⟨new ++ [⟨c.height, ti.seq + 1, op⟩], by simpa using Hnew, fun e he => ?_⟩
      rcases List.mem_append.1 he with he | he
      · obtain ⟨c', hc', h⟩ := hnew e he
        exact ⟨c', List.mem_cons_of_mem _ hc', h⟩
      · rw [List.mem_singleton.1 he]
        exact ⟨c, List.mem_cons_self, rfl⟩

theorem height_lt (H : Recounts ti log) : ∀ e ∈ log, e.height < 2 ^ 64 := by
  have := H.valid
  clear H
  induction log with
  | nil => simp
  | cons e log ih =>
    obtain ⟨-, hh, -, -, hvalid⟩ := this
    exact List.forall_mem_cons.2 ⟨hh, ih hvalid⟩

/-- `aliases_rollback` goes back to the entries below its height; a height that is no key is above them all. -/
theorem namesRolledBack (H : Recounts ti log) (height : Nat) :
    Recounts (ti.namesRolledBack height) (log.filter (·.height < height)) ∧
      (ti.namesRolledBack height).aliasRev =
        revUndone ti.aliasRev (log.filter fun e => height ≤ e.height) := by
  rw [TokenIndex.namesRolledBack]
  by_cases hh : height < 2 ^ 64
  · obtain ⟨ti', hroll, H', heq⟩ := H.rollback hh
    rw [hroll]
    refine ⟨H', ?_⟩
    rw [heq]
  · have hlow : ∀ e ∈ log, e.height < height := fun e he => (H.height_lt e he).trans_le (not_lt.1 hh)
    have hraise : ti.aliasesRollback height = .error .structError := by
      rw [TokenIndex.aliasesRollback, journalKey, if_neg fun h => hh h.1]
      rfl
    rw [hraise, List.filter_eq_self.2 fun e he => by simpa using hlow e he,
      List.filter_eq_nil_iff.2 fun e he => by simpa using hlow e he]
    exact ⟨H, rfl⟩

end Recounts

/-- After calls in the order of their heights, `aliases_rollback` leaves every alias with the owner and the height
that the calls below its height give it. -/
theorem aliasesRollback_exact (cs : List AliasCall) (hsorted : cs.Pairwise (·.height ≤ ·.height)) (height : Nat)
    (name : Text) :
    ((cs.foldl AliasCall.apply {}).namesRolledBack height).aliasFwd.get? (utf8 name) =
      ((cs.filter (·.height < height)).foldl AliasCall.apply {}).aliasFwd.get? (utf8 name) := by
  obtain ⟨log, Hlog, hlog⟩ := Recounts.empty.calls (hsorted.filter (·.height < height)) (by simp)
  rw [List.append_nil] at Hlog
  have hlow : ∀ e ∈ log, e.height < height := by
    intro e he
    obtain ⟨c, hc, h⟩ := hlog e he
    rw [h]
    simpa using (List.mem_filter.1 hc).2
  obtain ⟨new, Hnew, hnew⟩ := Hlog.calls (hsorted.filter (height ≤ ·.height)) fun e he c hc =>
    (hlow e he).le.trans (by simpa using (List.mem_filter.1 hc).2)
  have hhigh : ∀ e ∈ new, height ≤ e.height := by
    intro e he
    obtain ⟨c, hc, h⟩ := hnew e he
    rw [h]
    simpa using (List.mem_filter.1 hc).2
  have hsplit : cs.filter (·.height < height) ++ cs.filter (height ≤ ·.height) = cs :=
    List.filter_append_filter (fun c => by simp) (hsorted.imp fun h => by simpa using lt_of_le_of_lt h)
  rw [← List.foldl_append, hsplit] at Hnew
  have hback := (Hnew.namesRolledBack height).1
  rw [List.filter_append, List.filter_eq_nil_iff.2 fun e he => by simpa using hhigh e he,
    List.filter_eq_self.2 fun e he => by simpa using hlow e he, List.nil_append] at hback
  rw [hback.fwd, Hlog.fwd]

/-- A name that is registered, transferred, freed and claimed again, the cut within it. -/
theorem aliasesRollback_exact_reclaimed :
    ((([.register 1 ['a'] ['x'], .transfer 1 ['a'] ['b'] ['x'], .free 2 ['b'] ['x'],
        .register 2 ['c'] ['x']] : List AliasCall).foldl AliasCall.apply {}).namesRolledBack 2).aliasFwd.get?
      (utf8 ['x']) =
    ((([.register 1 ['a'] ['x'], .transfer 1 ['a'] ['b'] ['x'], .free 2 ['b'] ['x'],
        .register 2 ['c'] ['x']] : List AliasCall).filter (·.height < 2)).foldl AliasCall.apply {}).aliasFwd.get?
      (utf8 ['x']) :=
  aliasesRollback_exact _ (by decide) 2 ['x']

/-! ## The reverse map -/

theorem revKey_inj {v v' : Text × Nat} (hv : NulFree v.1 ∧ v.2 < 2 ^ 64) (hv' : NulFree v'.1 ∧ v'.2 < 2 ^ 64)
    (h : revKey name v = revKey name' v') : name = name' ∧ v = v' := by
  have hpre : revKey name v <+: revKey name' v' := h ▸ List.prefix_rfl
  obtain ⟨ha, hrest⟩ := (List.prefix_sep_iff hv.1.utf8 hv'.1.utf8).1 hpre
  have hlen : (revKey name v).length = (revKey name' v').length := by rw [h]
  simp only [revKey, List.length_append, List.length_cons, length_beBytes, ha] at hlen
  have heq := hrest.eq_of_length (by
    simp only [List.length_append, List.length_cons, length_beBytes]
    omega)
  obtain ⟨hh, hname⟩ := List.append_inj heq (by simp)
  refine ⟨utf8_injective (List.cons.inj hname).2, Prod.ext (utf8_injective ha) ?_⟩
  have := congrArg beVal hh
  rwa [beVal_beBytes (by omega), beVal_beBytes (by omega)] at this

/-- The reverse map has a key for every name that has an owner, and no other. -/
def Mirrors (rev : OrdTable Bytes Unit) (m : Names) : Prop :=
  rev.Holds fun k _ => ∃ name v, m name = some v ∧ revKey name v = k

/-- Every owner's address is free of the separator and every height is a key's. -/
def Names.Plain (m : Names) : Prop := ∀ name v, m name = some v → NulFree v.1 ∧ v.2 < 2 ^ 64

theorem Mirrors.moved {rev : OrdTable Bytes Unit} {m : Names} (H : Mirrors rev m) (hm : m.Plain) (name : Text)
    (next : Option (Text × Nat)) :
    Mirrors (revMoved rev name (m name) next) (Function.update m name next) := by
  have herased : (revMoved rev name (m name) none).Holds fun k _ =>
      ∃ name' v, name' ≠ name ∧ m name' = some v ∧ revKey name' v = k := by
    cases hname : m name with
    | none =>
      refine H.congr fun k _ => exists_congr fun name' => exists_congr fun v => ?_
      refine ⟨fun h => ⟨?_, h⟩, And.right⟩
      rintro rfl
      rw [hname] at h
      cases h.1
    | some w =>
      refine (H.erase (revKey name w)).congr fun k _ => ?_
      constructor
      · rintro ⟨⟨name', v, hv, rfl⟩, hne⟩
        refine ⟨name', v, ?_, hv, rfl⟩
        rintro rfl
        rw [hname] at hv
        cases hv
        exact hne rfl
      · rintro ⟨name', v, hne, hv, rfl⟩
        refine ⟨⟨name', v, hv, rfl⟩, fun h => hne ?_⟩
        exact (revKey_inj (hm _ _ hv) (hm _ _ hname) h).1
  have hothers (k : Bytes) : (∃ name' v, Function.update m name next name' = some v ∧ revKey name' v = k) ↔
      (∃ name' v, name' ≠ name ∧ m name' = some v ∧ revKey name' v = k) ∨
        ∃ v, next = some v ∧ revKey name v = k := by
    constructor
    · rintro ⟨name', v, hv, hk⟩
      by_cases hne : name' = name
      · subst hne
        rw [Function.update_self] at hv
        exact .inr ⟨v, hv, hk⟩
      · rw [Function.update_of_ne hne] at hv
        exact .inl ⟨name', v, hne, hv, hk⟩
    · rintro (⟨name', v, hne, hv, hk⟩ | ⟨v, hv, hk⟩)
      · exact ⟨name', v, by rwa [Function.update_of_ne hne], hk⟩
      · exact ⟨name, v, by rwa [Function.update_self], hk⟩
  cases next with
  | none =>
    show OrdTable.Holds _ _
    refine herased.congr fun k _ => ?_
    rw [hothers]
    simp
  | some w =>
    show OrdTable.Holds _ _
    refine (herased.put fun _ _ => rfl).congr fun k _ => ?_
    rw [hothers]
    simp [eq_comm]

/-- Every entry gives its name to an address without a NUL. -/
def AliasEntry.Plain (e : AliasEntry) : Prop := ∀ v, e.op.holder e.height = some v → NulFree v.1

theorem Names.Plain.of {log : List AliasEntry} (hvalid : AliasEntry.Valid log) (h : ∀ e ∈ log, e.Plain) :
    (Names.of log).Plain := by
  intro name v hv
  obtain ⟨e, he, hholder⟩ := Names.exists_of_of hv
  exact ⟨h e he v hholder, (Names.of_fits hvalid hv).1⟩

/-- Undoing the newest entries takes the reverse map back with the forward map. -/
theorem Mirrors.undone {rev : OrdTable Bytes Unit} {new log : List AliasEntry}
    (H : Mirrors rev (Names.of (new ++ log))) (hvalid : AliasEntry.Valid (new ++ log))
    (hplain : ∀ e ∈ new ++ log, e.Plain) : Mirrors (revUndone rev new) (Names.of log) := by
  induction new generalizing rev with
  | nil => exact H
  | cons e new ih =>
    have hm := Names.Plain.of hvalid hplain
    obtain ⟨hprev, -, -, -, hvalid'⟩ := hvalid
    have hback := H.moved hm e.op.name e.op.prev
    rw [List.cons_append, Names.of, Function.update_self, Function.update_idem] at hback
    have hsame : Function.update (Names.of (new ++ log)) e.op.name e.op.prev = Names.of (new ++ log) := by
      rw [hprev]
      exact Function.update_eq_self _ _
    exact ih (hsame ▸ hback) hvalid' fun e' he' => hplain e' (List.mem_cons_of_mem _ he')

/-! ## Runs -/

/-- A call that gives its name to an address without a NUL. -/
def AliasCall.PlainOwner : AliasCall → Prop
  | register _ address _ => NulFree address
  | transfer _ _ recipient _ => NulFree recipient
  | free _ _ _ => True

theorem AliasCall.PlainOwner.holder {c : AliasCall} {height : Nat} (hc : c.PlainOwner) (h : c.wants prev = some op)
    (hv : op.holder height = some v) : NulFree v.1 := by
  cases c with
  | register height address name =>
    rw [wants] at h
    split at h
    · cases h
      cases hv
      exact hc
    · cases h
  | transfer height sender recipient name =>
    obtain ⟨p, -, rfl⟩ := Option.map_eq_some_iff.1 h
    cases hv
    exact hc
  | free height sender name =>
    obtain ⟨p, -, rfl⟩ := Option.map_eq_some_iff.1 h
    cases hv

/-- Both maps of the aliases hold one history, whose heights are at most `tip`. -/
structure Agrees (ti : TokenIndex) (log : List AliasEntry) (tip : Nat) : Prop where
  recounts : Recounts ti log
  mirrors : Mirrors ti.aliasRev (Names.of log)
  plain : ∀ e ∈ log, e.Plain
  height_le : ∀ e ∈ log, e.height ≤ tip

namespace Agrees
variable {ti : TokenIndex} {log : List AliasEntry}

theorem empty : Agrees {} [] 0 where
  recounts := .empty
  mirrors := .empty fun k _ => by
    rintro ⟨name, v, hv, -⟩
    cases hv
  plain := by simp
  height_le := by simp

theorem tokens (H : Agrees ti log tip) (c : TokenCall) : Agrees (c.apply ti) log tip := by
  by_cases h : ∃ op, c.op = .ok op ∧ ti.Takes c.height op
  · obtain ⟨op, hop, htakes⟩ := h
    rw [TokenCall.apply_of_takes hop htakes]
    exact ⟨H.recounts.congr rfl rfl (Nat.le_succ _) htakes.2.1, H.mirrors, H.plain, H.height_le⟩
  · rw [TokenCall.apply_of_not_takes fun op hop htakes => h ⟨op, hop, htakes⟩]
    exact H

theorem call {c : AliasCall} (H : Agrees ti log tip) (hc : c.PlainOwner) (htip : tip ≤ c.height) :
    ∃ log', Agrees (c.apply ti) log' c.height := by
  have hheight : ∀ e ∈ log, e.height ≤ c.height := fun e he => (H.height_le e he).trans htip
  rcases H.recounts.call hheight with ⟨anchor, heq, H'⟩ | ⟨op, hop, heq, H'⟩
  · refine ⟨log, H', ?_, H.plain, hheight⟩
    rw [heq]
    exact H.mirrors
  · obtain ⟨-, hw⟩ := AliasCall.op?_eq_some.1 hop
    obtain ⟨hname, hprev⟩ := AliasCall.name_of_wants hw
    refine ⟨_, H', ?_, List.forall_mem_cons.2 ⟨fun v hv => hc.holder hw hv, H.plain⟩,
      List.forall_mem_cons.2 ⟨le_rfl, hheight⟩⟩
    have hmoved := H.mirrors.moved (.of H.recounts.valid H.plain) op.name (op.holder c.height)
    rw [heq, hprev, ← hname]
    exact hmoved

theorem rollback (H : Agrees ti log tip) (height : Nat) :
    Agrees (ti.namesRolledBack height) (log.filter (·.height < height)) (min tip (height - 1)) := by
  obtain ⟨H', hrev⟩ := H.recounts.namesRolledBack height
  have hsplit : log.filter (fun e => height ≤ e.height) ++ log.filter (·.height < height) = log :=
    List.filter_append_filter (fun e => by simp) (H.recounts.pairwise.imp fun h => by simpa using h.trans')
  have hmirrors := H.mirrors
  have hvalid := H.recounts.valid
  have hplain := H.plain
  rw [← hsplit] at hmirrors hvalid hplain
  refine ⟨H', ?_, fun e he => H.plain e (List.mem_filter.1 he).1, fun e he => ?_⟩
  · rw [hrev]
    exact hmirrors.undone hvalid hplain
  · obtain ⟨he, hlt⟩ := List.mem_filter.1 he
    have := H.height_le e he
    have := of_decide_eq_true hlt
    omega

theorem aliasOwner_eq_ok (H : Agrees ti log tip) :
    ti.aliasOwner name = .ok (some address) ↔ ∃ height, Names.of log name = some (address, height) := by
  simp only [TokenIndex.aliasOwner, Except.bind_eq_ok, lmdbGet_eq_ok, Except.pure_eq_ok, Except.ok.injEq,
    H.recounts.fwd]
  constructor
  · rintro ⟨_, ⟨-, rfl⟩, hmap⟩
    obtain ⟨⟨a, height⟩, hv, rfl⟩ := Option.map_eq_some_iff.1 hmap
    exact ⟨height, hv⟩
  · rintro ⟨height, hv⟩
    exact ⟨_, ⟨(Names.of_fits H.recounts.valid hv).2.1, hv⟩, rfl⟩

theorem read_revKey {address : Text} (ha : NulFree address) {v : Text × Nat} (hv : NulFree v.1) :
    (utf8 address ++ [0]).isPrefixOf (revKey name v) = true ↔ v.1 = address := by
  rw [List.isPrefixOf_iff_prefix, revKey, List.prefix_sep_iff ha.utf8 hv.utf8]
  simp [utf8_injective.eq_iff, eq_comm]

theorem drop_revKey (address : Text) (height : Nat) :
    utf8Decode ((revKey name (address, height)).drop ((utf8 address ++ [0]).length + 9)) = some name := by
  have hkey : revKey name (address, height) = (utf8 address ++ [0] ++ (beBytes 8 height ++ [0])) ++ utf8 name := by
    simp [revKey]
  rw [hkey, List.drop_left' (by simp), utf8Decode_utf8]

/-- `aliases_of` lists the names of an address, each once. -/
theorem aliasesOf (H : Agrees ti log tip) {address : Text} (ha : NulFree address) :
    ∃ l, ti.aliasesOf address = .ok l ∧ l.Nodup ∧
      ∀ name, name ∈ l ↔ ti.aliasOwner name = .ok (some address) := by
  have hm := Names.Plain.of H.recounts.valid H.plain
  -- what the scan sees: a key and the name that it reads off it
  let r : Bytes × Unit → Text → Prop := fun e name => ∃ v, Names.of log name = some v ∧ e.1 = revKey name v
  have hr : Relator.BiUnique r := by
    constructor
    · rintro ⟨k, u⟩ ⟨k', u'⟩ name ⟨v, hv, rfl⟩ ⟨v', hv', rfl⟩
      rw [hv] at hv'
      cases hv'
      rfl
    · rintro ⟨k, u⟩ name name' ⟨v, hv, rfl⟩ ⟨v', hv', hk⟩
      exact (revKey_inj (hm _ _ hv) (hm _ _ hv') hk).1
  have hscan : ∀ e ∈ ti.aliasRev.entries.filter fun e => (utf8 address ++ [0]).isPrefixOf e.1,
      ∃ name height, Names.of log name = some (address, height) ∧ e.1 = revKey name (address, height) := by
    rintro ⟨k, u⟩ he
    obtain ⟨he, hpre⟩ := List.mem_filter.1 he
    obtain ⟨name, ⟨a, height⟩, hv, rfl⟩ := (H.mirrors k u).1 (OrdTable.mem_entries.1 he)
    obtain rfl := (read_revKey ha (hm _ _ hv).1).1 hpre
    exact ⟨name, height, hv, rfl⟩
  obtain ⟨l, hl⟩ : ∃ l, ti.aliasesOf address = .ok l := by
    refine Except.exists_mapM_ok fun e he => ?_
    obtain ⟨name, height, -, hk⟩ := hscan e he
    exact ⟨name, by rw [hk, drop_revKey]⟩
  have hrel : List.Forall₂ r (ti.aliasRev.entries.filter fun e => (utf8 address ++ [0]).isPrefixOf e.1) l := by
    refine (Except.mapM_eq_ok.1 hl).with_mem.imp ?_
    rintro e name' ⟨he, -, hf⟩
    obtain ⟨name, height, hv, hk⟩ := hscan e he
    rw [hk, drop_revKey] at hf
    cases hf
    exact ⟨_, hv, hk⟩
  refine ⟨l, hl, (List.rel_nodup hr hrel).1 ?_, fun name => ?_⟩
  · exact (ti.aliasRev.sorted.imp fun h heq => absurd h (by rw [heq]; exact lt_irrefl _)).filter _
  · rw [H.aliasOwner_eq_ok]
    constructor
    · intro hmem
      obtain ⟨e, he, v, hv, hk⟩ := hrel.exists_left hmem
      obtain ⟨name', height, hv', hk'⟩ := hscan e he
      obtain ⟨rfl, rfl⟩ := revKey_inj (hm _ _ hv) (hm _ _ hv') (hk.symm.trans hk')
      exact ⟨height, hv⟩
    · rintro ⟨height, hv⟩
      have hkey := (H.mirrors (revKey name (address, height)) ()).2 ⟨name, _, hv, rfl⟩
      obtain ⟨name', hmem, v, hv', hk⟩ := hrel.exists_right (List.mem_filter.2
        ⟨OrdTable.mem_entries.2 hkey, (read_revKey ha ha).2 rfl⟩)
      obtain ⟨rfl, -⟩ := revKey_inj (hm _ _ hv) (hm _ _ hv') hk
      exact hmem

end Agrees

/-- The names that the block gives to somebody go to addresses without a NUL: no sender holds one, and no
recipient of an `alias:transfer`. -/
def Row.PlainOwner (r : Row) : Prop :=
  NulFree r.address ∧ (r.operation = TokensAliases.opAliasTransfer → NulFree (r.openfield.takeWhile (· ≠ ':')))

instance (r : Row) : Decidable r.PlainOwner := inferInstanceAs (Decidable (_ ∧ (_ → _)))

/-- What happens to the maps: a block that is committed, or a rollback. -/
inductive AliasEvent where
  | block (height : Nat) (rows : List Row)
  | rollback (height : Nat)

namespace AliasEvent

def apply (E : TokensAliases.Env) (ti : TokenIndex) : AliasEvent → TokenIndex
  | block height rows => TokensAliases.onBlock E height rows ti
  | rollback height => ti.namesRolledBack height

def Plain : AliasEvent → Prop
  | block _ rows => ∀ r ∈ rows, r.PlainOwner
  | rollback _ => True

def InOrder (tip : Nat) : List AliasEvent → Prop
  | [] => True
  | block height _ :: es => tip ≤ height ∧ InOrder height es
  | rollback height :: es => InOrder (min tip (height - 1)) es

instance decidableInOrder (tip : Nat) : (es : List AliasEvent) → Decidable (InOrder tip es)
  | [] => inferInstanceAs (Decidable True)
  | block height _ :: es =>
    have := decidableInOrder height es
    inferInstanceAs (Decidable (_ ∧ _))
  | rollback height :: es => decidableInOrder (min tip (height - 1)) es

end AliasEvent

theorem NulFree.sublist {s t : Text} (ht : NulFree t) (h : s.Sublist t) : NulFree s :=
  fun hmem => ht (h.mem hmem)

theorem NulFree.strip {s : Text} (h : NulFree s) : NulFree (strip s) :=
  h.sublist ((List.rdropWhile_prefix _ _).sublist.trans (List.dropWhile_sublist _))

namespace TokensAliases

theorem plainOwner_of_mem_aliasCalls (hsender : NulFree address)
    (hto : operation = opAliasTransfer → NulFree (openfield.takeWhile (· ≠ ':')))
    (h : c ∈ aliasCalls height address operation openfield) : c.PlainOwner := by
  rw [aliasCalls] at h
  split at h
  · split at h
    · cases h
    · rw [List.mem_singleton.1 h]
      exact hsender
  · split at h
    · rename_i hop
      rw [List.span_eq_takeWhile_dropWhile] at h
      split at h
      · cases h
      · rename_i recipient _ name heq
        obtain ⟨rfl, -⟩ := Prod.mk.inj heq
        split at h
        · cases h
        · split at h
          · cases h
          · rw [List.mem_singleton.1 h]
            exact (hto hop).strip
    · split at h
      · split at h
        · cases h
        · rw [List.mem_singleton.1 h]
          trivial
      · cases h

theorem plainOwner_of_mem_blockActs {E : Env} {rows : List Row} (hrows : ∀ r ∈ rows, r.PlainOwner)
    (h : Act.name c ∈ blockActs E height rows) : c.PlainOwner := by
  rcases List.mem_append.1 h with h | h
  · obtain ⟨r, -, h⟩ := List.mem_flatMap.1 h
    rw [issueRowActs] at h
    split at h
    · rw [issueActs] at h
      split at h
      · cases List.mem_singleton.1 h
      · cases h
    · cases h
  · obtain ⟨r, hr, h⟩ := List.mem_flatMap.1 h
    obtain ⟨hsender, hto⟩ := hrows r hr
    rw [otherRowActs] at h
    split at h
    · cases h
    · split at h
      · cases List.mem_singleton.1 h
      · split at h
        · obtain ⟨c', hc', heq⟩ := List.mem_map.1 h
          cases heq
          exact plainOwner_of_mem_aliasCalls hsender hto hc'
        · split at h
          · cases List.mem_singleton.1 h
            exact hsender
          · cases h

end TokensAliases

namespace Agrees
variable {ti : TokenIndex} {log : List AliasEntry}

theorem act {a : Act} (H : Agrees ti log tip) (hplain : ∀ c, a = .name c → c.PlainOwner)
    (hheight : a.height = tip) : ∃ log', Agrees (a.apply ti) log' tip := by
  cases a with
  | issue height token issuer txid supply => exact ⟨log, H.tokens _⟩
  | transfer t => exact ⟨log, H.tokens _⟩
  | name c =>
    subst hheight
    exact H.call (hplain c rfl) le_rfl

theorem applyAll {acts : List Act} (H : Agrees ti log tip) (hplain : ∀ c, Act.name c ∈ acts → c.PlainOwner)
    (hheight : ∀ a ∈ acts, a.height = tip) : ∃ log', Agrees (Act.applyAll acts ti) log' tip := by
  induction acts generalizing ti log with
  | nil => exact ⟨log, H⟩
  | cons a acts ih =>
    obtain ⟨log', H'⟩ := H.act (fun c hc => hplain c (by simp [hc])) (hheight a List.mem_cons_self)
    exact ih H' (fun c hc => hplain c (List.mem_cons_of_mem _ hc)) fun a ha => hheight a (List.mem_cons_of_mem _ ha)

/-- Both maps hold one history after every run of blocks in order and rollbacks. -/
theorem run {E : TokensAliases.Env} {es : List AliasEvent} (H : Agrees ti log tip) (hplain : ∀ e ∈ es, e.Plain)
    (horder : AliasEvent.InOrder tip es) :
    ∃ log' tip', Agrees (es.foldl (AliasEvent.apply E) ti) log' tip' := by
  induction es generalizing ti log tip with
  | nil => exact ⟨log, tip, H⟩
  | cons e es ih =>
    have hrest : ∀ e' ∈ es, e'.Plain := fun e' he' => hplain e' (List.mem_cons_of_mem _ he')
    cases e with
    | block height rows =>
      obtain ⟨htip, horder⟩ := horder
      have Hup : Agrees ti log height := ⟨H.recounts, H.mirrors, H.plain, fun e he => (H.height_le e he).trans htip⟩
      obtain ⟨log', H'⟩ := Hup.applyAll
        (fun c hc => TokensAliases.plainOwner_of_mem_blockActs (hplain _ List.mem_cons_self) hc)
        fun a ha => TokensAliases.height_of_mem_blockActs ha
      rw [← TokensAliases.onBlock_eq] at H'
      exact ih H' hrest horder
    | rollback height => exact ih (H.rollback height) hrest horder

end Agrees

/-- After blocks in the order of the chain and alias rollbacks, an alias is listed for an address, once, exactly
when it is the alias's owner, if no owner's address holds a NUL and neither does the one asked for. -/
theorem aliases_agree (E : TokensAliases.Env) (es : List AliasEvent) (hplain : ∀ e ∈ es, e.Plain)
    (horder : AliasEvent.InOrder 0 es) (address : Text) (ha : NulFree address) :
    ∃ l, (es.foldl (AliasEvent.apply E) {}).aliasesOf address = .ok l ∧ l.Nodup ∧
      ∀ name, name ∈ l ↔ (es.foldl (AliasEvent.apply E) {}).aliasOwner name = .ok (some address) := by
  obtain ⟨log, tip, H⟩ := Agrees.empty.run hplain horder
  exact H.aliasesOf ha

section
open TokensAliases

/-- `a` registers a name and gives it to somebody. -/
def givenAway (recipient : Text) : List AliasEvent :=
  [.block 1 (tokenRows 1 [1] [('a', opAliasRegister, ['x'])]),
    .block 2 (tokenRows 2 [2] [('a', opAliasTransfer, recipient ++ [':', 'x'])])]

/-- `a` gives a name to `b`, and the block is rolled back. -/
theorem aliases_agree_given : ∃ l,
    ((givenAway ['b'] ++ [AliasEvent.rollback 2]).foldl (AliasEvent.apply .ascii) {}).aliasesOf (hexAddress 'a') = .ok l ∧
    l.Nodup ∧ ∀ name, name ∈ l ↔
      ((givenAway ['b'] ++ [AliasEvent.rollback 2]).foldl (AliasEvent.apply .ascii) {}).aliasOwner name =
        .ok (some (hexAddress 'a')) := by
  refine aliases_agree .ascii _ ?_ (by decide) (hexAddress 'a') (by decide)
  rintro e (_ | ⟨_, _ | ⟨_, _ | ⟨_, ⟨⟩⟩⟩⟩)
  · show ∀ r ∈ tokenRows 1 [1] [('a', opAliasRegister, ['x'])], r.PlainOwner
    decide +kernel
  · show ∀ r ∈ tokenRows 2 [2] [('a', opAliasTransfer, ['b'] ++ [':', 'x'])], r.PlainOwner
    decide +kernel
  · trivial

/-- A recipient with a NUL: the scan for `b` finds the key of the name that went to it, and lists a name that has
no owner. -/
theorem aliases_disagree :
    ((givenAway ['b', '\x00', 'c']).foldl (AliasEvent.apply .ascii) {}).aliasesOf ['b'] =
      .ok [['\x02', '\x00', 'x']] ∧
    ((givenAway ['b', '\x00', 'c']).foldl (AliasEvent.apply .ascii) {}).aliasOwner ['\x02', '\x00', 'x'] =
      .ok none := by
  decide +kernel

end

end Bismuth
