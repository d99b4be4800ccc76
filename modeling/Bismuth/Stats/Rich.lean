import Bismuth.Lib.Greatest
import Bismuth.Stats.Incremental
import Bismuth.Store.Commit

/-!
# The rich list

The list of the greatest balances, brought up to date from the addresses that it has and those of the new blocks.
-/

namespace Bismuth

namespace Stats
open Py Relation

variable {P : Prims} {mode : Mode} {keys : Text → Prop} {forkHeight : Option Nat}
variable {st : Store} {chain : List LiveBlock} {c c' : RichCache}

/-! ## Balances as they are listed -/

def shown (u : Int) : ℚ := binary64.round (bis u)

theorem shown_mono {u w : Int} (h : u ≤ w) : shown u ≤ shown w := by
  refine FloatFormat.round_mono _ ?_
  rw [bis, bis]
  gcongr

theorem toBis_eq {u : Int} (h0 : 0 < u) (h : u < 10 ^ 28) : toBis u = .ok (.fin (shown u) false) := by
  have habs : |u| < 10 ^ 28 := by rwa [abs_of_pos h0]
  have hpos : 0 < bis u := by
    rw [bis]
    positivity
  have hneg : isNeg (bis u) false = false := by simp [isNeg, hpos.le]
  obtain ⟨y, hy, -, z, hz⟩ := (show IsBis (.ofRat (bis u)) u from ⟨habs, false, rfl⟩).quantize (ρ := Reject)
  obtain ⟨hfin, -⟩ := quantize_fin_ok hy
  have hyz : y = .fin (bis u) false := by
    rw [hfin] at hz ⊢
    rw [Number.fin.injEq] at hz ⊢
    exact ⟨hz.1, hneg⟩
  have hdec : (toDecimal u : Except Err Number) = .ok (.fin (bis u) false) := by
    rw [toDecimal]
    have hdiv : (div (.ofRat u) (.ofRat satoshisPerBis) : Except Err Number) = .ok (.ofRat (bis u)) := by
      rw [← rounded_bis habs]
      show (if ((satoshisPerBis : Nat) : ℚ) = 0 then .error .invalidOperation else rounded _) = _
      rw [cast_satoshisPerBis, if_neg (by norm_num)]
      rfl
    rw [hdiv, Except.ok_bind, hy, hyz]
  have hlog : Int.log 2 |binary64.round (bis u)| < 1024 := by
    refine log_round_lt ?_
    rw [abs_of_pos hpos, bis, div_lt_iff₀ (by norm_num)]
    have : (u : ℚ) < 10 ^ 28 := by exact_mod_cast h
    linarith [show (10 : ℚ) ^ 28 < 2 ^ 200 * 10 ^ 8 by norm_num]
  rw [toBis, hdec, Except.ok_bind, Number.toFloat, toDouble, if_neg (not_le.2 hlog), hneg, shown]

theorem lt_of_toBis {u : Int} (h : toBis u = .ok x) : u < 10 ^ 28 := by
  obtain ⟨d, hd, -⟩ := Except.bind_eq_ok.1 h
  exact (le_abs_self u).trans_lt (IsBis.of_toDecimal hd).1

/-! ## Holders -/

def held (st : Store) (a : Text) : Int := Parts.balance (partsAt st.bal (abytes a))

def holders (st : Store) : List (Int × Text) :=
  (st.bal.entries.map fun e => (Parts.balance e.2, decodeReplace e.1)).filter fun e => e.2 ≠ [] ∧ 0 < e.1

theorem decodeReplaceGo_utf8 (s : Text) (h : (utf8 s).length ≤ n) : decodeReplaceGo n (utf8 s) = s := by
  induction s generalizing n with
  | nil => cases n <;> rfl
  | cons c s ih =>
    have hc := c.utf8Size_pos
    rw [utf8, List.flatMap_cons, List.length_append, String.length_utf8EncodeChar] at h
    obtain ⟨n, rfl⟩ : ∃ m, n = m + 1 := ⟨n - 1, by omega⟩
    have hne : String.utf8EncodeChar c ++ s.flatMap String.utf8EncodeChar ≠ [] := by
      intro he
      have := congrArg List.length he
      simp at this
      omega
    rw [utf8, List.flatMap_cons, decodeReplaceGo.eq_3 _ _ hne, utf8DecodeChar_append]
    dsimp only
    rw [← utf8, ih (show (utf8 s).length ≤ n by rw [utf8]; omega)]

theorem decodeReplace_abytes (h : StoredAddress a) : decodeReplace (abytes a) = a := by
  rw [abytes_eq_utf8 h.2, decodeReplace, decodeReplaceGo_utf8 a le_rfl]

section
variable (H : Indexed P mode keys forkHeight st chain)
include H

theorem stored_of_partsAt
    (h : partsAt st.bal k ≠ 0) : ∃ a, StoredAddress a ∧ abytes a = k := by
  by_contra hnone
  push Not at hnone
  refine h ?_
  rw [H.bal k, allocAcc_total_zero, add_zero, chainTotal]
  · refine List.sum_eq_zero fun p hp => ?_
    obtain ⟨b, hb, rfl⟩ := List.mem_map.1 hp
    exact tally_of_forall_ne fun e he => hnone e.1 ((H.ok b hb).storedAddress he).1
  · intro e he
    exact hnone e.1 (H.alloc (OrdTable.mem_entries.1 he)).1

theorem stored_of_held_pos (h : 0 < held st a) : StoredAddress a := by
  obtain ⟨a', ha', heq⟩ := stored_of_partsAt H (k := abytes a) fun hzero => by
    rw [held, hzero] at h
    exact lt_irrefl (0 : Int) h
  rwa [← abytes_inj ha'.2 heq]

theorem stored_of_mem_entries
    (h : (k, p) ∈ st.bal.entries) : ∃ a, StoredAddress a ∧ abytes a = k := by
  have hget := OrdTable.mem_entries.1 h
  refine stored_of_partsAt H ?_
  rw [partsAt, hget, Option.getD_some]
  exact (H.clean k p hget).1

theorem mem_holders :
    (u, a) ∈ holders st ↔ StoredAddress a ∧ u = held st a ∧ 0 < u := by
  rw [holders, List.mem_filter, decide_eq_true_iff]
  constructor
  · rintro ⟨hmem, -, hpos⟩
    obtain ⟨⟨k, p⟩, he, heq⟩ := List.mem_map.1 hmem
    obtain ⟨rfl, rfl⟩ := Prod.mk.inj heq
    have hp : partsAt st.bal k = p := by rw [partsAt, OrdTable.mem_entries.1 he, Option.getD_some]
    obtain ⟨a, ha, rfl⟩ := stored_of_mem_entries H he
    dsimp only
    rw [decodeReplace_abytes ha]
    exact ⟨ha, by rw [held, hp], hpos⟩
  · rintro ⟨ha, rfl, hpos⟩
    refine ⟨List.mem_map.2 ⟨(abytes a, partsAt st.bal (abytes a)), OrdTable.mem_entries.2 ?_, ?_⟩, ha.1, hpos⟩
    · cases hget : st.bal.get? (abytes a) with
      | none =>
        rw [held, partsAt, hget] at hpos
        exact absurd hpos (by decide)
      | some p => rw [partsAt, hget, Option.getD_some]
    · rw [decodeReplace_abytes ha]
      rfl

theorem nodup_holders :
    ((holders st).map Prod.snd).Nodup := by
  refine List.Nodup.map_on ?_ (List.Nodup.filter _ (List.Nodup.map_on ?_ st.bal.nodup_keys.of_map))
  · rintro ⟨u, a⟩ h ⟨u', _⟩ h' rfl
    rw [((mem_holders H).1 h).2.1, ((mem_holders H).1 h').2.1]
  · rintro ⟨k, p⟩ h ⟨k', p'⟩ h' heq
    obtain ⟨a, ha, rfl⟩ := stored_of_mem_entries H h
    obtain ⟨a', ha', rfl⟩ := stored_of_mem_entries H h'
    have haa : a = a' := by
      rw [← decodeReplace_abytes ha, ← decodeReplace_abytes ha']
      exact congrArg Prod.snd heq
    exact List.inj_on_of_nodup_map st.bal.nodup_keys h h' (by rw [haa])

end

/-! ## Lists of balances -/

def score (st : Store) (a : Text) : ℚ := shown (held st a)

def addresses (st : Store) : Finset Text := ((holders st).map Prod.snd).toFinset

theorem mem_addresses (H : Indexed P mode keys forkHeight st chain) :
    a ∈ addresses st ↔ 0 < held st a := by
  rw [addresses, List.mem_toFinset, List.mem_map]
  constructor
  · rintro ⟨⟨u, a⟩, hmem, rfl⟩
    obtain ⟨-, rfl, hpos⟩ := (mem_holders H).1 hmem
    exact hpos
  · intro hpos
    exact ⟨_, (mem_holders H).2 ⟨stored_of_held_pos H hpos, rfl, hpos⟩, rfl⟩

def Lists (st : Store) (top : Dict Text Number) : Prop :=
  ∀ {a x}, top.get? a = some x → 0 < held st a ∧ toBis (held st a) = .ok x

namespace Lists
variable {top : Dict Text Number}

theorem eq_fin (h : Lists st top) (hx : top.get? a = some x) : x = .fin (score st a) false := by
  obtain ⟨hpos, hbis⟩ := h hx
  rw [toBis_eq hpos (lt_of_toBis hbis)] at hbis
  exact (Except.ok.inj hbis).symm

theorem values_eq (h : Lists st top) : top.values = top.keys.map fun a => .fin (score st a) false := by
  rw [Dict.values, Dict.keys, List.map_map]
  refine List.map_congr_left fun e he => ?_
  exact h.eq_fin (Dict.mem_entries.1 he)

theorem val_keys (top : Dict Text Number) : top.keys.toFinset.val = (top.keys : Multiset Text) := by
  have hnodup : top.keys.Nodup := top.nodup
  rw [List.toFinset_val, hnodup.dedup]

theorem values_perm (h : Lists st top) {top' : Dict Text Number} (h' : Lists st top') :
    top.values.Perm top'.values ↔ top.keys.toFinset.val.map (score st) = top'.keys.toFinset.val.map (score st) := by
  have hfin : Function.Injective fun q : ℚ => Number.fin q false := fun p q hpq => (Number.fin.inj hpq).1
  have hmap : ∀ l : List Text, ((l.map fun a => Number.fin (score st a) false : List Number) : Multiset Number) =
      ((l : Multiset Text).map (score st)).map fun q => Number.fin q false := by
    intro l
    rw [Multiset.map_coe, Multiset.map_coe, List.map_map]
    rfl
  rw [h.values_eq, h'.values_eq, ← Multiset.coe_eq_coe, hmap, hmap, (Multiset.map_injective hfin).eq_iff, val_keys,
    val_keys]

end Lists

/-! ## Ranked lists -/

/-- The list of the entries with the first `richK` of some sorted keys. -/
theorem ranked_spec {ranked : List (Text × Number)} {keys : List Text} {le : Text → Text → Bool}
    (hranked : ranked.map Prod.fst = (keys.mergeSort le).take richK) (hkeys : keys.Nodup)
    (htrans : ∀ a b c, le a b = true → le b c = true → le a c = true) (htotal : ∀ a b, (le a b || le b a) = true)
    (hscore : ∀ a b, le a b = true → score st b ≤ score st a) :
    (ranked.foldl (fun d e => d.set e.1 e.2) (∅ : Dict Text Number)).entries = ranked ∧ Greatest richK (score st)
      keys.toFinset (ranked.foldl (fun d e => d.set e.1 e.2) (∅ : Dict Text Number)).keys.toFinset := by
  have hnodup : (ranked.map Prod.fst).Nodup := by
    rw [hranked]
    exact ((List.mergeSort_perm _ _).nodup_iff.2 hkeys).sublist (List.take_sublist ..)
  have hentries : (ranked.foldl (fun d e => d.set e.1 e.2) (∅ : Dict Text Number)).entries = ranked := by
    rw [Dict.entries_foldl_set hnodup fun _ _ => rfl]
    rfl
  refine ⟨hentries, ?_⟩
  rw [Dict.keys, hentries, hranked]
  exact .of_mergeSort hkeys htrans htotal hscore

/-! ## The list anew -/

def coldLe (st : Store) (a b : Text) : Bool := held st b < held st a ∨ held st b = held st a ∧ b ≤ a

theorem coldLe_iff (a b : Text) : coldLe st a b = true ↔ toLex (held st b, b) ≤ toLex (held st a, a) := by
  rw [coldLe, decide_eq_true_iff, Prod.Lex.toLex_le_toLex]

theorem coldLe_trans (a b c : Text) (h : coldLe st a b = true) (h' : coldLe st b c = true) : coldLe st a c = true := by
  rw [coldLe_iff] at h h' ⊢
  exact h'.trans h

theorem coldLe_total (a b : Text) : (coldLe st a b || coldLe st b a) = true := by
  rw [Bool.or_eq_true, coldLe_iff, coldLe_iff]
  exact le_total ..

theorem score_le_of_coldLe (a b : Text) (h : coldLe st a b = true) : score st b ≤ score st a := by
  simp only [coldLe, decide_eq_true_eq] at h
  obtain h | ⟨h, -⟩ := h
  · exact shown_mono h.le
  · exact shown_mono h.le

theorem map_snd_holders (H : Indexed P mode keys forkHeight st chain) :
    ((holders st).mergeSort fun a b => b.1 < a.1 ∨ b.1 = a.1 ∧ b.2 ≤ a.2).map Prod.snd =
      ((holders st).map Prod.snd).mergeSort (coldLe st) := by
  refine List.map_mergeSort fun a ha b hb => ?_
  rw [coldLe, ((mem_holders H).1 ha).2.1, ((mem_holders H).1 hb).2.1]

theorem richCold_spec (H : Indexed P mode keys forkHeight st chain)
    (h : richCold st = .ok c) : c.height = st.tip.getD 0 ∧ Lists st c.top ∧
      Greatest richK (score st) (addresses st) c.top.keys.toFinset := by
  rw [richCold] at h
  obtain ⟨entries, hentries, h⟩ := Except.bind_eq_ok.1 h
  cases h
  change ((((holders st).mergeSort fun a b => b.1 < a.1 ∨ b.1 = a.1 ∧ b.2 ≤ a.2).take richK).mapM _) = _ at hentries
  have hrel := Except.mapM_eq_ok.1 hentries
  have hkeys : entries.map Prod.fst = (((holders st).map Prod.snd).mergeSort (coldLe st)).take richK := by
    rw [← map_snd_holders H, ← List.map_take]
    refine (hrel.map_eq fun {e e'} he => ?_).symm
    obtain ⟨x, -, heq⟩ := Except.bind_eq_ok.1 he
    cases heq
    rfl
  obtain ⟨htop, hgreatest⟩ := ranked_spec hkeys (nodup_holders H) coldLe_trans coldLe_total score_le_of_coldLe
  refine ⟨rfl, ?_, hgreatest⟩
  intro a x hx
  have hmem := Dict.mem_entries.2 hx
  rw [htop] at hmem
  obtain ⟨e, he, hex⟩ := hrel.exists_left hmem
  obtain ⟨x', hx', heq⟩ := Except.bind_eq_ok.1 hex
  cases heq
  obtain ⟨-, hu, hpos⟩ := (mem_holders H).1 ((List.mergeSort_perm _ _).mem_iff.1 (List.mem_of_mem_take he))
  rw [← hu]
  exact ⟨hpos, hx'⟩

/-- The list can be made when every balance has at most 28 digits. -/
theorem exists_richCold (H : Indexed P mode keys forkHeight st chain)
    (hsmall : ∀ a, held st a < 10 ^ 28) : ∃ c, richCold st = .ok c := by
  have hbis : ∀ e ∈ ((holders st).mergeSort fun a b => b.1 < a.1 ∨ b.1 = a.1 ∧ b.2 ≤ a.2).take richK,
      ∃ e' : Text × Number, (do return (e.2, ← toBis e.1)) = (.ok e' : Except Err _) := by
    intro e he
    obtain ⟨-, hu, hpos⟩ := (mem_holders H).1 ((List.mergeSort_perm _ _).mem_iff.1 (List.mem_of_mem_take he))
    rw [toBis_eq hpos (hu ▸ hsmall e.2)]
    exact ⟨_, rfl⟩
  obtain ⟨entries, hentries⟩ := List.Forall₂.exists_of_forall hbis
  refine ⟨⟨st.tip.getD 0, entries.foldl (fun d e => d.set e.1 e.2) ∅⟩, ?_⟩
  rw [richCold]
  exact Except.bind_eq_ok.2 ⟨entries, Except.mapM_eq_ok.2 hentries, rfl⟩

/-! ## The addresses that are read again -/

theorem balanceUnits_eq (st : Store) (ha : a ≠ []) : st.balanceUnits a = .ok (held st a) := by
  rw [Store.balanceUnits, Store.balanceParts, if_neg (abytes_ne_nil ha), Except.ok_bind, held, partsAt]
  generalize (st.bal.get? (abytes a)).getD 0 = p
  obtain ⟨c, r, d, f⟩ := p
  exact congrArg Except.ok (sub_sub (c + r) d f)

def Current (st : Store) (top : Dict Text Number) (a : Text) : Prop :=
  (0 < held st a → ∃ x, toBis (held st a) = .ok x ∧ top.get? a = some x) ∧ (held st a ≤ 0 → top.get? a = none)

theorem richUpdate_ok {top top' : Dict Text Number} (ha : a ≠ []) (h : richUpdate st top a = .ok top') :
    Current st top' a ∧ ∀ b ≠ a, top'.get? b = top.get? b := by
  rw [richUpdate, if_neg ha, balanceUnits_eq st ha, Except.ok_bind] at h
  split at h
  · rename_i hpos
    obtain ⟨x, hx, h⟩ := Except.bind_eq_ok.1 h
    cases h
    have hset : (top.set a x).get? a = some x := by rw [Dict.get?_set, if_pos rfl]
    refine ⟨⟨fun _ => ⟨x, hx, hset⟩, fun hle => absurd hpos (not_lt.2 hle)⟩, fun b hb => ?_⟩
    rw [Dict.get?_set, if_neg (Ne.symm hb)]
  · rename_i hpos
    cases h
    refine ⟨⟨fun h => absurd h hpos, fun _ => by rw [Dict.get?_erase, if_pos rfl]⟩, fun b hb => ?_⟩
    rw [Dict.get?_erase, if_neg (Ne.symm hb)]

theorem exists_richUpdate (top : Dict Text Number) (hsmall : held st a < 10 ^ 28) :
    ∃ top', richUpdate st top a = .ok top' := by
  rw [richUpdate]
  split
  · exact ⟨_, rfl⟩
  · rename_i ha
    rw [balanceUnits_eq st ha, Except.ok_bind]
    split
    · rename_i hpos
      rw [toBis_eq hpos hsmall]
      exact ⟨_, rfl⟩
    · exact ⟨_, rfl⟩

/-- After all of them were read, the list is right about them and as it was about the others. -/
theorem foldlM_richUpdate {as : List Text} (has : ∀ a ∈ as, a ≠ []) {top top' : Dict Text Number}
    (h : as.foldlM (richUpdate st) top = .ok top') :
    (∀ a ∈ as, Current st top' a) ∧ ∀ a ∉ as, top'.get? a = top.get? a := by
  induction as generalizing top with
  | nil =>
    cases h
    exact ⟨by simp, fun _ _ => rfl⟩
  | cons a as ih =>
    rw [List.foldlM_cons] at h
    obtain ⟨top₁, h₁, h⟩ := Except.bind_eq_ok.1 h
    obtain ⟨hcurrent, hother⟩ := richUpdate_ok (has a List.mem_cons_self) h₁
    obtain ⟨hall, hrest⟩ := ih (fun a ha => has a (List.mem_cons_of_mem _ ha)) h
    refine ⟨fun b hb => ?_, fun b hb => ?_⟩
    · by_cases hmem : b ∈ as
      · exact hall b hmem
      · -- the last time that `b` was read is now
        obtain rfl := (List.mem_cons.1 hb).resolve_right hmem
        rw [Current, hrest b hmem]
        exact hcurrent
    · rw [List.mem_cons, not_or] at hb
      rw [hrest b hb.2, hother b hb.1]

theorem exists_foldlM_richUpdate (hsmall : ∀ a, held st a < 10 ^ 28) (as : List Text)
    (top : Dict Text Number) : ∃ top', as.foldlM (richUpdate st) top = .ok top' := by
  induction as generalizing top with
  | nil => exact ⟨top, rfl⟩
  | cons a as ih =>
    obtain ⟨top₁, h₁⟩ := exists_richUpdate top (hsmall a)
    rw [List.foldlM_cons, h₁]
    exact ih top₁

/-! ## The list brought up to date -/

/-- The addresses that are ranked: those of the list and of the blocks, if their balance is positive. -/
def candidates (st : Store) (c : RichCache) (blocks : List TypedBlock) : Finset Text :=
  (c.top.keys ++ touchedAddresses blocks).toFinset.filter (0 < held st ·)

/-- Enough of the addresses that are ranked have at least the balance of any other one. -/
def Covered (st : Store) (c : RichCache) (blocks : List TypedBlock) : Prop :=
  ∀ d, 0 < held st d → d ∉ candidates st c blocks →
    richK ≤ ((candidates st c blocks).filter fun a => score st d ≤ score st a).card

def RightBut (st : Store) (c : RichCache) (blocks : List TypedBlock) : Prop :=
  ∀ {a x}, c.top.get? a = some x → a ∉ touchedAddresses blocks → 0 < held st a ∧ toBis (held st a) = .ok x

theorem richAdvance_spec {blocks : List TypedBlock} {tip : Nat}
    (hscan : scan P mode st (c.height + 1) tip = .ok blocks) (hstored : ∀ a ∈ touchedAddresses blocks, a ≠ [])
    (hright : RightBut st c blocks) (h : richAdvance P mode st c tip = .ok c') :
    c'.height = tip ∧ Lists st c'.top ∧ Greatest richK (score st) (candidates st c blocks) c'.top.keys.toFinset := by
  rw [richAdvance, hscan, Except.ok_bind] at h
  obtain ⟨top, htop, h⟩ := Except.bind_eq_ok.1 h
  cases h
  obtain ⟨hcurrent, hother⟩ := foldlM_richUpdate hstored htop
  have hlists : Lists st top := by
    intro a x hx
    by_cases ha : a ∈ touchedAddresses blocks
    · obtain ⟨hpos, hneg⟩ := hcurrent a ha
      obtain hle | hlt := le_or_gt (held st a) 0
      · rw [hneg hle] at hx
        cases hx
      · obtain ⟨x', hx', hget⟩ := hpos hlt
        rw [hget] at hx
        cases hx
        exact ⟨hlt, hx'⟩
    · rw [hother a ha] at hx
      exact hright hx ha
  have hkeys : top.keys.toFinset = candidates st c blocks := by
    ext a
    rw [List.mem_toFinset, Dict.mem_keys, candidates, Finset.mem_filter, List.mem_toFinset, List.mem_append]
    by_cases ha : a ∈ touchedAddresses blocks
    · obtain ⟨hpos, hneg⟩ := hcurrent a ha
      constructor
      · rintro ⟨x, hx⟩
        exact ⟨.inr ha, (hlists hx).1⟩
      · rintro ⟨-, hlt⟩
        obtain ⟨x, -, hx⟩ := hpos hlt
        exact ⟨x, hx⟩
    · rw [hother a ha, Dict.mem_keys]
      constructor
      · rintro ⟨x, hx⟩
        exact ⟨.inl ⟨x, hx⟩, (hright hx ha).1⟩
      · rintro ⟨hx | hx, -⟩
        · exact hx
        · exact absurd hx ha
  obtain ⟨ranked, hranked⟩ : ∃ ranked, ranked = (top.entries.mergeSort fun a b => !floatLt a.2 b.2).take richK :=
    ⟨_, rfl⟩
  rw [← hranked]
  have hrank : ranked.map Prod.fst =
      (top.keys.mergeSort fun a b => score st b ≤ score st a).take richK := by
    rw [hranked, List.map_take]
    congr 1
    refine List.map_mergeSort fun e he e' he' => ?_
    rw [hlists.eq_fin (Dict.mem_entries.1 he), hlists.eq_fin (Dict.mem_entries.1 he')]
    show (!decide (_ < _)) = _
    rw [← decide_not]
    exact decide_eq_decide.2 not_lt
  have htrans (a b c : Text) (hab : decide (score st b ≤ score st a) = true)
      (hbc : decide (score st c ≤ score st b) = true) : decide (score st c ≤ score st a) = true :=
    decide_eq_true ((of_decide_eq_true hbc).trans (of_decide_eq_true hab))
  have htotal (a b : Text) : (decide (score st b ≤ score st a) || decide (score st a ≤ score st b)) = true := by
    rw [Bool.or_eq_true, decide_eq_true_iff, decide_eq_true_iff]
    exact le_total ..
  obtain ⟨hentries, hgreatest⟩ := ranked_spec hrank top.nodup htrans htotal fun a b h => of_decide_eq_true h
  refine ⟨rfl, ?_, hkeys ▸ hgreatest⟩
  intro a x hx
  have hmem := Dict.mem_entries.2 hx
  rw [hentries, hranked] at hmem
  exact hlists (Dict.mem_entries.1 ((List.mergeSort_perm _ _).mem_iff.1 (List.mem_of_mem_take hmem)))

/-! ## Two lists -/

/-- The lists have the same height and the same balances. An address in both has one balance, and an address in only one
of them has no greater balance than any in the other. -/
structure RichCache.Agrees (c c' : RichCache) : Prop where
  height : c.height = c'.height
  values : c.top.values.Perm c'.top.values
  common : ∀ {a x x'}, c.top.get? a = some x → c'.top.get? a = some x' → x = x'
  left : ∀ {a x b y}, c.top.get? a = some x → c'.top.get? a = none → c'.top.get? b = some y → floatLt y x = false
  right : ∀ {a x b y}, c'.top.get? a = some x → c.top.get? a = none → c.top.get? b = some y → floatLt y x = false

/-- Two lists of right balances, where the second has the greatest ones, agree if and only if the first has them too. -/
theorem agrees_iff {B : Finset Text} (hheight : c.height = c'.height)
    (hlists : Lists st c.top) (hlists' : Lists st c'.top) (hsub : c.top.keys.toFinset ⊆ B)
    (hgreatest : Greatest richK (score st) B c'.top.keys.toFinset) :
    c.Agrees c' ↔ Greatest richK (score st) B c.top.keys.toFinset := by
  have hside : ∀ {c c' : RichCache}, Lists st c.top → Lists st c'.top →
      Greatest richK (score st) B c'.top.keys.toFinset → c.top.keys.toFinset ⊆ B → ∀ {a x b y},
        c.top.get? a = some x → c'.top.get? a = none → c'.top.get? b = some y → floatLt y x = false := by
    intro c c' h h' hg hsub a x b y hx hnone hy
    have ha : a ∈ B := hsub (List.mem_toFinset.2 (Dict.mem_keys.2 ⟨x, hx⟩))
    have ha' : a ∉ c'.top.keys.toFinset := by
      rw [List.mem_toFinset]
      exact Dict.get?_eq_none.1 hnone
    have hle := hg.le b (List.mem_toFinset.2 (Dict.mem_keys.2 ⟨y, hy⟩)) a ha ha'
    rw [h.eq_fin hx, h'.eq_fin hy]
    exact decide_eq_false (not_lt.2 hle)
  constructor
  · intro h
    exact .of_map_eq hsub hgreatest ((hlists.values_perm hlists').1 h.values)
  · intro h
    refine ⟨hheight, (hlists.values_perm hlists').2 (h.map_eq hgreatest), ?_, ?_, ?_⟩
    · intro a x x' hx hx'
      rw [hlists.eq_fin hx, hlists'.eq_fin hx']
    · exact hside hlists hlists' hgreatest hsub
    · exact hside hlists' hlists h hgreatest.subset

/-! ## Growing chains -/

section
variable {l l' : Ledger} {tbs : List TypedBlock}

def Untouched (l : Ledger) (n : Nat) (a : Text) : Prop :=
  ∀ b ∈ l.chain, n < b.height → ∀ r ∈ b.rows, r.address ≠ a ∧ r.recipient ≠ a

theorem Parts.balance_sum (l : List Parts) : Parts.balance l.sum = (l.map Parts.balance).sum := by
  induction l with
  | nil => rfl
  | cons p l ih =>
    rw [List.sum_cons, List.map_cons, List.sum_cons, ← ih]
    simp only [Parts.balance, Prod.fst_add, Prod.snd_add]
    ring

def flow (mode : Mode) (b : LiveBlock) (a : Text) : Int := (b.rows.map fun r => Parts.balance (r.partsFor mode a)).sum

theorem held_commit (H : l.Good P mode keys forkHeight) (H' : l'.Good P mode keys forkHeight)
    (hchain : l'.chain = l.chain ++ [b]) (halloc : l'.store.allocations = l.store.allocations) (ha : StoredAddress a) :
    held l'.store a = held l.store a + flow mode b a := by
  have hheld : ∀ {l : Ledger}, l.Good P mode keys forkHeight → held l.store a =
      (((l.chain.flatMap (·.rows)).map (Row.partsFor mode a)).map Parts.balance).sum +
        (l.store.allocations.get? a).getD 0 := by
    intro l H
    have hparts := H.exact.parts a ha
    rw [Store.balanceParts, if_neg (abytes_ne_nil ha.1)] at hparts
    rw [held, partsAt, Except.ok.inj hparts, ← Parts.balance_sum]
    simp only [Parts.balance, Prod.fst_add, Prod.snd_add]
    ring
  rw [hheld H', hheld H, hchain, halloc, List.flatMap_append, List.map_append, List.map_append, List.sum_append,
    List.flatMap_singleton, flow, List.map_map (l := b.rows)]
  show _ + (List.map (fun r => Parts.balance (r.partsFor mode a)) b.rows).sum + _ = _
  ring

theorem flow_of_untouched {b : LiveBlock} (hb : ∀ r ∈ b.rows, r.address ≠ a ∧ r.recipient ≠ a) : flow mode b a = 0 := by
  refine List.sum_eq_zero fun u hu => ?_
  obtain ⟨r, hr, rfl⟩ := List.mem_map.1 hu
  rw [Row.partsFor, if_neg (hb r hr).2, if_neg (hb r hr).1]
  rfl

/-- A list that was right at its height is right for the addresses that no later block has. -/
structure RichCache.Kept (l : Ledger) (c : RichCache) : Prop where
  height_le : c.height ≤ l.store.tip.getD 0
  stored : ∀ {a x}, c.top.get? a = some x → StoredAddress a
  right : ∀ {a x}, c.top.get? a = some x → Untouched l c.height a → 0 < held l.store a ∧ toBis (held l.store a) = .ok x

theorem stored_of_held (H : l.Good P mode keys forkHeight) (h : 0 < held l.store a) : StoredAddress a := by
  obtain ⟨read, -, HI⟩ := H
  exact stored_of_held_pos HI h

theorem RichCache.Kept.of_lists (H : l.Good P mode keys forkHeight)
    (hheight : c.height = l.store.tip.getD 0) (h : Lists l.store c.top) : c.Kept l where
  height_le := hheight.le
  stored hx := stored_of_held H (h hx).1
  right hx _ := h hx

theorem RichCache.Kept.grow (H : l.Good P mode keys forkHeight) (H' : l'.Good P mode keys forkHeight)
    (hchain : l'.chain = l.chain ++ [b]) (halloc : l'.store.allocations = l.store.allocations) (hb : 1 ≤ b.height)
    (h : c.Kept l) : c.Kept l' where
  height_le := h.height_le.trans (H.tip_mono H' ⟨[b], hchain.symm⟩)
  stored := h.stored
  right := by
    intro a x hx huntouched
    have hmem : b ∈ l'.chain := by simp [hchain]
    have hlt : c.height < b.height := by
      have hle := h.height_le
      obtain hnil | ⟨init, last, hlast⟩ := List.eq_nil_or_concat' l.chain
      · have htip := H.exact.tip
        rw [hnil] at htip
        rw [htip] at hle
        exact Nat.lt_of_le_of_lt hle hb
      · rw [H.tip_eq hlast, Option.getD_some] at hle
        have hnext := H'.exact.contiguous
        rw [hchain, hlast, List.append_assoc, List.isChain_append] at hnext
        have := hnext.2.1
        simp at this
        omega
    rw [held_commit H H' hchain halloc (h.stored hx), flow_of_untouched (huntouched b hmem hlt), add_zero]
    refine h.right hx fun b' hb' => huntouched b' ?_
    rw [hchain]
    exact List.mem_append_left _ hb'

theorem allocations_of_grow (hd : KeysDistinct P keys) (H : l.Good P mode keys forkHeight)
    (h : Bismuth.Step P mode keys forkHeight l l') (hchain : l'.chain = l.chain ++ [b]) :
    l'.store.allocations = l.store.allocations := by
  cases h with
  | commit difficulty hnew hdist hc =>
    obtain ⟨read, -, HI⟩ := H
    show Store.allocations _ = Store.allocations _
    rw [Store.allocations, Store.allocations, commitBlock_alloc hd HI.keyTable hnew hc]
  | @rollback st n st' removed chain hr =>
    have hlen := congrArg List.length hchain
    have hle : (upTo n chain).length ≤ chain.length := List.length_filter_le ..
    simp only [List.length_append, List.length_singleton] at hlen
    omega
  | setAllocations _ _ =>
    have hlen := congrArg List.length hchain
    simp at hlen

theorem mem_touched (H : l.Good P mode keys forkHeight)
    (htbs : l.store.typedChain P mode = .ok tbs) {n : Nat} :
    a ∈ touchedAddresses (between (n + 1 : Nat) (l.store.tip.getD 0) tbs) ↔
      ∃ b ∈ l.chain, n < b.height ∧ ∃ r ∈ b.rows, r.address = a ∨ r.recipient = a := by
  obtain ⟨tbs', htbs', hrel⟩ := H.typedChain
  cases htbs.symm.trans htbs'
  have hsame : ∀ {n bh r tr}, Row.Reads P mode forkHeight n bh r tr →
      tr.address = r.address ∧ tr.recipient = r.recipient := by
    rintro n bh r tr ⟨r', hrow, hread⟩
    have heq := (typedRow_ok hread).2.2.2.2
    rw [heq]
    exact ⟨hrow.same.address, hrow.same.recipient⟩
  rw [touchedAddresses, List.mem_dedup, List.mem_flatMap]
  constructor
  · rintro ⟨t, ht, ha⟩
    obtain ⟨tr, htr, ha⟩ := List.mem_flatMap.1 ha
    obtain ⟨ht, hrange⟩ := List.mem_filter.1 ht
    have hrange := of_decide_eq_true hrange
    obtain ⟨b, hb, htyped⟩ := hrel.exists_left ht
    obtain ⟨r, hr, hread⟩ := htyped.rows.exists_left htr
    obtain ⟨haddress, hrecipient⟩ := hsame hread
    rw [htyped.height] at hrange
    refine ⟨b, hb, by omega, r, hr, ?_⟩
    rw [← haddress, ← hrecipient]
    obtain rfl | rfl := List.mem_pair.1 ha
    · exact .inl rfl
    · exact .inr rfl
  · rintro ⟨b, hb, hlt, r, hr, ha⟩
    obtain ⟨t, ht, htyped⟩ := hrel.exists_right hb
    obtain ⟨tr, htr, hread⟩ := htyped.rows.exists_right hr
    obtain ⟨haddress, hrecipient⟩ := hsame hread
    have hle := H.le_tip hb
    refine ⟨t, List.mem_filter.2 ⟨ht, decide_eq_true ?_⟩, List.mem_flatMap.2 ⟨tr, htr, ?_⟩⟩
    · rw [htyped.height]
      omega
    · rw [haddress, hrecipient, List.mem_pair]
      exact ha.imp Eq.symm Eq.symm

theorem ne_nil_of_touched (H : l.Good P mode keys forkHeight)
    (htbs : l.store.typedChain P mode = .ok tbs) {lo hi : Int} (ha : a ∈ touchedAddresses (between lo hi tbs)) :
    a ≠ [] := by
  rw [touchedAddresses, List.mem_dedup, List.mem_flatMap] at ha
  obtain ⟨t, ht, ha⟩ := ha
  obtain ⟨tr, htr, ha⟩ := List.mem_flatMap.1 ha
  obtain ⟨haddress, hrecipient⟩ := H.storedAddress htbs (List.mem_filter.1 ht).1 htr
  obtain rfl | rfl := List.mem_pair.1 ha
  · exact haddress.1
  · exact hrecipient.1

theorem scan_above (H : l.Good P mode keys forkHeight)
    (htbs : l.store.typedChain P mode = .ok tbs) (n : Nat) :
    scan P mode l.store (n + 1) (l.store.tip.getD 0) = .ok (between (n + 1 : Nat) (l.store.tip.getD 0) tbs) := by
  have hlt : l.store.tip.getD 0 < 2 ^ 63 := by
    obtain ⟨read, -, HI⟩ := H
    exact HI.tip_lt
  exact scan_eq htbs (H.sorted_typedChain htbs) (by omega) (by omega)

theorem RichCache.Kept.rightBut (H : l.Good P mode keys forkHeight)
    (htbs : l.store.typedChain P mode = .ok tbs) (h : c.Kept l) :
    RightBut l.store c (between (c.height + 1 : Nat) (l.store.tip.getD 0) tbs) :=
  fun hx ha => h.right hx fun b hb hlt r hr =>
    ⟨fun heq => ha ((mem_touched H htbs).2 ⟨b, hb, hlt, r, hr, .inl heq⟩),
      fun heq => ha ((mem_touched H htbs).2 ⟨b, hb, hlt, r, hr, .inr heq⟩)⟩

end

/-! ## Runs -/

structure RichSys where
  ledger : Ledger
  cache : Option RichCache

/-- What `_maintain` does to the list; an update that raises leaves it. -/
def richMaintain (P : Prims) (mode : Mode) (st : Store) : Option RichCache → Option RichCache
  | none => (richCold st).toOption
  | some c =>
    if c.height < st.tip.getD 0 then
      match richAdvance P mode st c (st.tip.getD 0) with
      | .ok c' => some c'
      | .error _ => some c
    else some c

/-- A block is committed, or the list is brought up to date. -/
inductive RichStep (P : Prims) (mode : Mode) (keys : Text → Prop) (forkHeight : Option Nat) : RichSys → RichSys → Prop
  | grow : Bismuth.Step P mode keys forkHeight s.ledger l → l.chain = s.ledger.chain ++ [b] → 1 ≤ b.height →
    RichStep P mode keys forkHeight s { s with ledger := l }
  | maintain : RichStep P mode keys forkHeight s { s with cache := richMaintain P mode s.ledger.store s.cache }

structure RichSys.Inv (P : Prims) (mode : Mode) (keys : Text → Prop) (forkHeight : Option Nat) (s : RichSys) :
    Prop where
  good : s.ledger.Good P mode keys forkHeight
  kept : ∀ c, s.cache = some c → c.Kept s.ledger

theorem RichStep.inv (hd : KeysDistinct P keys) {s s' : RichSys} (hi : s.Inv P mode keys forkHeight)
    (h : RichStep P mode keys forkHeight s s') : s'.Inv P mode keys forkHeight := by
  have H := hi.good
  obtain ⟨tbs, htbs, -⟩ := H.typedChain
  cases h with
  | @grow _ l b hstep hchain hb =>
    have H' := hstep.good hd H
    have halloc := allocations_of_grow hd H hstep hchain
    exact ⟨H', fun c hc => (hi.kept c hc).grow H H' hchain halloc hb⟩
  | maintain =>
    refine ⟨H, fun c hc => ?_⟩
    obtain ⟨read, hread, HI⟩ := H
    have H : s.ledger.Good P mode keys forkHeight := ⟨read, hread, HI⟩
    cases hcache : s.cache with
    | none =>
      rw [hcache] at hc
      have hcold : richCold s.ledger.store = .ok c := Except.toOption_eq_some.1 hc
      obtain ⟨hheight, hlists, -⟩ := richCold_spec HI hcold
      exact .of_lists H hheight hlists
    | some c₀ =>
      rw [hcache] at hc
      have hkept := hi.kept c₀ hcache
      simp only [richMaintain] at hc
      split at hc
      · split at hc
        · rename_i c' hadvance
          cases hc
          obtain ⟨hheight, hlists, -⟩ := richAdvance_spec (scan_above H htbs _)
            (fun a ha => ne_nil_of_touched H htbs ha) (hkept.rightBut H htbs) hadvance
          exact .of_lists H hheight hlists
        · cases hc
          exact hkept
      · cases hc
        exact hkept

theorem rich_run_inv (hd : KeysDistinct P keys) {l : Ledger} {s : RichSys}
    (hist : ReflTransGen (Bismuth.Step P mode keys forkHeight) ∅ l)
    (h : ReflTransGen (RichStep P mode keys forkHeight) ⟨l, none⟩ s) : s.Inv P mode keys forkHeight := by
  induction h with
  | refl => exact ⟨good_of_history hd hist, by simp⟩
  | tail _ hstep ih => exact hstep.inv hd ih

theorem RichSys.Inv.advance_iff {s : RichSys} (hi : s.Inv P mode keys forkHeight) {c c' c'' : RichCache}
    (hc : s.cache = some c) {blocks : List TypedBlock}
    (hblocks : scan P mode s.ledger.store (c.height + 1) (s.ledger.store.tip.getD 0) = .ok blocks)
    (hadvance : richAdvance P mode s.ledger.store c (s.ledger.store.tip.getD 0) = .ok c')
    (hcold : richCold s.ledger.store = .ok c'') : c'.Agrees c'' ↔ Covered s.ledger.store c blocks := by
  have H := hi.good
  obtain ⟨tbs, htbs, -⟩ := H.typedChain
  cases hblocks.symm.trans (scan_above H htbs c.height)
  obtain ⟨read, -, HI⟩ := hi.good
  obtain ⟨hheight, hlists, hgreatest⟩ := richAdvance_spec hblocks (fun a ha => ne_nil_of_touched H htbs ha)
    ((hi.kept c hc).rightBut H htbs) hadvance
  obtain ⟨hheight', hlists', hgreatest'⟩ := richCold_spec HI hcold
  have hsub : candidates s.ledger.store c (between (c.height + 1 : Nat) (s.ledger.store.tip.getD 0) tbs) ⊆
      addresses s.ledger.store := fun a ha => (mem_addresses HI).2 (Finset.mem_filter.1 ha).2
  rw [agrees_iff (hheight.trans hheight'.symm) hlists hlists' (hgreatest.subset.trans hsub) hgreatest',
    hgreatest.iff_of_candidates hsub, Covered]
  exact forall_congr' fun d => by rw [mem_addresses HI]

/-- Neither of the two raises as long as no balance has more than 28 digits. -/
theorem RichSys.Inv.exists_advance {s : RichSys} (hi : s.Inv P mode keys forkHeight)
    (hsmall : ∀ a, held s.ledger.store a < 10 ^ 28) (c : RichCache) :
    (∃ c', richAdvance P mode s.ledger.store c (s.ledger.store.tip.getD 0) = .ok c') ∧
      ∃ c'', richCold s.ledger.store = .ok c'' := by
  obtain ⟨tbs, htbs, -⟩ := hi.good.typedChain
  obtain ⟨top, htop⟩ := exists_foldlM_richUpdate hsmall (touchedAddresses _) c.top
  obtain ⟨read, -, HI⟩ := hi.good
  refine ⟨?_, exists_richCold HI hsmall⟩
  rw [richAdvance, scan_above hi.good htbs c.height, Except.ok_bind, htop]
  exact ⟨_, rfl⟩

/-- **The rich list** of a growing chain that has been brought up to date at any heights. The next update gives the list
of the cold pass, up to the choice among equal balances, if and only if enough of the addresses that it ranks, those of
the previous list and of the new blocks, have at least the balance of every other address. Neither of the two raises as
long as no balance has more than 28 digits. -/
theorem richAdvance_agrees_iff (hd : KeysDistinct P keys) {l : Ledger} {s : RichSys} {c : RichCache}
    (hist : ReflTransGen (Bismuth.Step P mode keys forkHeight) ∅ l)
    (h : ReflTransGen (RichStep P mode keys forkHeight) ⟨l, none⟩ s) (hc : s.cache = some c) :
    ∃ blocks, scan P mode s.ledger.store (c.height + 1) (s.ledger.store.tip.getD 0) = .ok blocks ∧
      (∀ c' c'', richAdvance P mode s.ledger.store c (s.ledger.store.tip.getD 0) = .ok c' →
        richCold s.ledger.store = .ok c'' → (c'.Agrees c'' ↔ Covered s.ledger.store c blocks)) ∧
      ((∀ a, held s.ledger.store a < 10 ^ 28) →
        (∃ c', richAdvance P mode s.ledger.store c (s.ledger.store.tip.getD 0) = .ok c') ∧
          ∃ c'', richCold s.ledger.store = .ok c'') := by
  have hi := rich_run_inv hd hist h
  obtain ⟨tbs, htbs, -⟩ := hi.good.typedChain
  have hscan := scan_above hi.good htbs c.height
  exact ⟨_, hscan, fun c' c'' => hi.advance_iff hc hscan, fun hsmall => hi.exists_advance hsmall c⟩

/-! ## A chain of miners -/

def miner (i : Nat) : Text := [Char.ofNat (0x4e00 + i)]

theorem miner_inj (hi : i < 1000) (hj : j < 1000) (h : miner i = miner j) : i = j := by
  have hval : ∀ k < 1000, (Char.ofNat (0x4e00 + k)).toNat = 0x4e00 + k := by
    intro k hk
    rw [Char.ofNat, dif_pos (by rw [Nat.isValidChar]; omega)]
    rfl
  have h := congrArg Char.toNat (List.cons.inj h).1
  rw [hval i hi, hval j hj] at h
  omega

theorem storedAddress_miner (i : Nat) : StoredAddress (miner i) := ⟨List.cons_ne_nil _ _, by simp [miner]⟩

/-- The first two blocks pay twice as much as the others. -/
def minerReward (i : Nat) : Nat := if i < 2 then 200000000 else 100000000

def minedRow (n : Nat) (digest : Bytes) (i : Nat) : Row :=
  { sampleRow n digest 100 (minerReward i) with address := miner i, recipient := miner i }

def minedBlock (i : Nat) : LiveBlock := ⟨i + 1, beBytes 2 i, [minedRow (i + 1) (beBytes 2 i) i], none⟩

theorem minerReward_lt (i : Nat) : 0 < minerReward i ∧ minerReward i < 10 ^ 28 := by
  rw [minerReward]
  split <;> norm_num

theorem minedRow_stored (n : Nat) (digest : Bytes) (i : Nat) :
    Row.Stored .decimal n (hex digest) (minedRow n digest i) where
  height := rfl
  blockHash := rfl
  timestamp := ⟨false, 100, by norm_num, rfl⟩
  address := storedAddress_miner i
  recipient := storedAddress_miner i
  amount := ⟨0, .zero _⟩
  fee := ⟨0, .zero _⟩
  reward := ⟨minerReward i, (minerReward_lt i).2, .inl ⟨false, by simp, rfl⟩⟩

theorem balance_minedRow (n : Nat) (digest : Bytes) (i : Nat) (a : Text) :
    Parts.balance ((minedRow n digest i).partsFor .decimal a) = if miner i = a then (minerReward i : Int) else 0 := by
  have hzero : unitsOf .decimal ['0'] = 0 := unitsOf_eq (MoneyText.zero .decimal).units
  have hreward : unitsOf .decimal (fixedText false 8 (minerReward i)) = minerReward i :=
    unitsOf_eq (MoneyText.units ⟨(minerReward_lt i).2, .inl ⟨false, by simp, rfl⟩⟩)
  simp only [Row.partsFor, minedRow, sampleRow, hzero, hreward]
  split
  · simp [Parts.balance]
  · rfl

/-- A ledger of the first `n` blocks. -/
structure Mined (n : Nat) (l : Ledger) : Prop where
  history : ReflTransGen (Bismuth.Step .toy .decimal (· = ['k']) none) ∅ l
  chain : l.chain = (List.range n).map minedBlock
  within : ∀ k, Parts.Within (10 ^ 28 * (2 * n)) (partsAt l.store.bal k)
  held_miner : ∀ i < n, held l.store (miner i) = minerReward i
  held_other : ∀ a, StoredAddress a → (∀ i < n, miner i ≠ a) → held l.store a = 0

theorem Mined.good (h : Mined n l) : l.Good .toy .decimal (· = ['k']) none :=
  good_of_history sample_keysDistinct h.history

theorem Mined.tip (h : Mined n l) : l.store.tip.getD 0 = n ∧ ∀ t, l.store.tip = some t → n = t := by
  have htip := h.good.exact.tip
  rw [h.chain, List.getLast?_map, List.getLast?_range] at htip
  cases n with
  | zero => exact ⟨by rw [htip]; rfl, by simp [htip]⟩
  | succ n =>
    rw [if_neg (by omega)] at htip
    exact ⟨by rw [htip]; rfl, by rw [htip]; rintro t ⟨⟩; rfl⟩

theorem Mined.zero : Mined 0 ∅ where
  history := .refl
  chain := rfl
  within k := .zero (by norm_num)
  held_miner := by simp
  held_other a _ _ := rfl

theorem Mined.commit (h : Mined n l) (hn : n < 1000) {rows : List Row} {digest : Bytes} (hlen : digest.length = 2)
    (hnew : NewBlock .decimal (· = ['k']) (n + 1) digest rows) (hrows : rows.length ≤ 10)
    (hdigest : ∀ b ∈ l.chain, b.digest ≠ digest) :
    ∃ st', commitBlock .toy .decimal l.store (n + 1) (hex digest) rows none none = .ok st' ∧
      Bismuth.Step .toy .decimal (· = ['k']) none l ⟨st', l.chain ++ [⟨n + 1, digest, rows, none⟩]⟩ := by
  have hcount := h.good.exact.txCount
  have hcount' : l.store.txCount = n := by
    rw [hcount, h.chain, List.map_map]
    simp [minedBlock, Function.comp_def]
  have hB : (10 : Int) ^ 28 * (2 * n) + 10 ^ 28 * (2 * rows.length) < 2 ^ 127 := by
    have hn' : (n : Int) < 1000 := by exact_mod_cast hn
    have hrows' : (rows.length : Int) ≤ 10 := by exact_mod_cast hrows
    norm_num
    omega
  have hdigest' : digest ≠ [] ∧ digest.length ≤ 511 := by
    refine ⟨?_, by omega⟩
    rintro rfl
    cases hlen
  obtain ⟨st', hst'⟩ : ∃ st', commitBlock .toy .decimal l.store (n + 1) (hex digest) rows none none = .ok st' :=
    exists_commitBlock none (fun t ht => congrArg Nat.succ (h.tip.2 t ht)) rfl (by omega) hdigest' hnew.stored
      (by omega) (by omega) h.within hB
  exact ⟨st', hst', .commit none hnew hdigest hst'⟩

theorem Mined.digest_ne (h : Mined n l) (hn : n < 1000) : ∀ b ∈ l.chain, b.digest ≠ beBytes 2 n := by
  intro b hb heq
  rw [h.chain] at hb
  obtain ⟨i, hi, rfl⟩ := List.mem_map.1 hb
  have hi := List.mem_range.1 hi
  have hval := congrArg beVal heq
  change beVal (beBytes 2 i) = _ at hval
  rw [beVal_beBytes (by omega), beVal_beBytes (by omega)] at hval
  omega

theorem Mined.succ (h : Mined n l) (hn : n < 999) :
    ∃ l', Bismuth.Step .toy .decimal (· = ['k']) none l l' ∧ l'.chain = l.chain ++ [minedBlock n] ∧
      Mined (n + 1) l' := by
  have hnew : NewBlock .decimal (· = ['k']) (n + 1) (beBytes 2 n) [minedRow (n + 1) (beBytes 2 n) n] := by
    refine ⟨List.cons_ne_nil _ _, fun r hr => ?_, fun r hr => ?_⟩
    · rw [List.mem_singleton.1 hr]
      exact minedRow_stored ..
    · rw [List.mem_singleton.1 hr]
      rfl
  obtain ⟨st', hst', hstep⟩ := h.commit (by omega) (length_beBytes 2 n) hnew (by simp) (h.digest_ne (by omega))
  have H' := hstep.good sample_keysDistinct h.good
  have halloc := allocations_of_grow sample_keysDistinct h.good hstep rfl
  have hheld : ∀ a, StoredAddress a →
      held st' a = held l.store a + if miner n = a then (minerReward n : Int) else 0 := by
    intro a ha
    have hcommit := held_commit h.good H' rfl halloc ha
    rw [flow, List.map_singleton, List.sum_singleton, balance_minedRow] at hcommit
    exact hcommit
  refine ⟨_, hstep, rfl, h.history.tail hstep, ?_, ?_, ?_, ?_⟩
  · rw [h.chain, List.range_succ, List.map_append]
    rfl
  · intro k
    refine (commitBlock_within hnew.stored h.within hst' k).mono (le_of_eq ?_)
    rw [List.length_singleton]
    push_cast
    ring
  · intro i hi
    show held st' _ = _
    rw [hheld _ (storedAddress_miner i)]
    obtain hlt | rfl := Nat.lt_succ_iff_lt_or_eq.1 hi
    · rw [h.held_miner i hlt, if_neg fun heq => hlt.ne' (miner_inj (by omega) (by omega) heq), add_zero]
    · rw [h.held_other _ (storedAddress_miner i) fun j hj heq => hj.ne (miner_inj (by omega) (by omega) heq),
        if_pos rfl, zero_add]
  · intro a ha hne
    show held st' _ = _
    rw [hheld a ha, h.held_other a ha fun i hi => hne i (by omega), if_neg (hne n (by omega)), add_zero]

theorem exists_mined (hn : n < 1000) : ∃ l, Mined n l := by
  induction n with
  | zero => exact ⟨_, .zero⟩
  | succ n ih =>
    obtain ⟨l, hl⟩ := ih (by omega)
    obtain ⟨l', -, -, hl'⟩ := hl.succ (by omega)
    exact ⟨l', hl'⟩

theorem Mined.held_pos (h : Mined n l) : 0 < held l.store a ↔ ∃ i < n, miner i = a := by
  constructor
  · intro hpos
    by_contra hne
    push Not at hne
    rw [h.held_other a (stored_of_held h.good hpos) hne] at hpos
    exact lt_irrefl _ hpos
  · rintro ⟨i, hi, rfl⟩
    rw [h.held_miner i hi]
    exact_mod_cast (minerReward_lt i).1

theorem Mined.held_le (h : Mined n l) (a : Text) : held l.store a ≤ 200000000 := by
  obtain hle | hpos := le_or_gt (held l.store a) 0
  · exact hle.trans (by norm_num)
  · obtain ⟨i, hi, rfl⟩ := h.held_pos.1 hpos
    rw [h.held_miner i hi, minerReward]
    split <;> norm_num

theorem Mined.held_lt (h : Mined n l) (a : Text) : held l.store a < 10 ^ 28 := (h.held_le a).trans_lt (by norm_num)

theorem rich_run_of_cold {l l' : Ledger} {c : RichCache} (hc : richCold l.store = .ok c)
    (hstep : Bismuth.Step P mode keys forkHeight l l') (hchain : l'.chain = l.chain ++ [b]) (hb : 1 ≤ b.height) :
    ReflTransGen (RichStep P mode keys forkHeight) ⟨l, none⟩ ⟨l', some c⟩ := by
  have hbuild : RichStep P mode keys forkHeight ⟨l, none⟩ ⟨l, some c⟩ := by
    have h : RichStep P mode keys forkHeight ⟨l, none⟩ ⟨l, richMaintain P mode l.store none⟩ := .maintain
    rwa [richMaintain, hc] at h
  have hgrow : RichStep P mode keys forkHeight ⟨l, some c⟩ ⟨l', some c⟩ := .grow hstep hchain hb
  exact (ReflTransGen.single hbuild).tail hgrow

/-- The list of an empty chain, brought up to date with the first block. -/
theorem richAdvance_agrees_sample : KeysDistinct .toy (· = ['k']) ∧ ∃ l s c c' c'',
    ReflTransGen (Bismuth.Step .toy .decimal (· = ['k']) none) ∅ l ∧
    ReflTransGen (RichStep .toy .decimal (· = ['k']) none) ⟨l, none⟩ s ∧ s.cache = some c ∧
    richAdvance .toy .decimal s.ledger.store c (s.ledger.store.tip.getD 0) = .ok c' ∧
    richCold s.ledger.store = .ok c'' ∧ c'.Agrees c'' ∧ 0 < held s.ledger.store (miner 0) := by
  obtain ⟨l', hstep, hchain, hl'⟩ := Mined.zero.succ (by norm_num)
  obtain ⟨read, -, HI⟩ := Mined.zero.good
  obtain ⟨c, hc⟩ := exists_richCold HI Mined.zero.held_lt
  have hrun := rich_run_of_cold hc hstep hchain (by simp [minedBlock])
  obtain ⟨blocks, hblocks, hiff, htotal⟩ := richAdvance_agrees_iff sample_keysDistinct .refl hrun rfl
  obtain ⟨⟨c', hc'⟩, c'', hc''⟩ := htotal hl'.held_lt
  have hpos : 0 < held l'.store (miner 0) := hl'.held_pos.2 ⟨0, by norm_num, rfl⟩
  refine ⟨sample_keysDistinct, ∅, _, c, c', c'', .refl, hrun, rfl, hc', hc'', (hiff c' c'' hc' hc'').2 ?_, hpos⟩
  have hheight : c.height = 0 := (richCold_spec HI hc).1
  obtain ⟨tbs, htbs, -⟩ := hl'.good.typedChain
  cases hblocks.symm.trans (scan_above hl'.good htbs c.height)
  intro d hd hnot
  obtain ⟨i, hi, rfl⟩ := hl'.held_pos.1 hd
  obtain rfl : i = 0 := by omega
  have htouched := (mem_touched hl'.good htbs (n := c.height)).2
    ⟨minedBlock 0, by simp [hchain], by simp [hheight, minedBlock], _, List.mem_singleton_self _, .inl rfl⟩
  exact absurd (Finset.mem_filter.2 ⟨List.mem_toFinset.2 (List.mem_append_right _ htouched), hd⟩) hnot

/-! ## The list that is too short -/

/-- The first miner gives everything to the second one. -/
def emptyingRows : List Row :=
  [{ sampleRow 502 (beBytes 2 501) 100 0 with
      address := miner 0, recipient := miner 1, amount := fixedText false 8 200000000, reward := ['0'] },
    minedRow 502 (beBytes 2 501) 1]

theorem emptyingRows_new : NewBlock .decimal (· = ['k']) 502 (beBytes 2 501) emptyingRows := by
  refine ⟨List.cons_ne_nil _ _, fun r hr => ?_, fun r hr => ?_⟩
  · obtain rfl | rfl := List.mem_pair.1 hr
    · exact ⟨rfl, rfl, ⟨false, 100, by norm_num, rfl⟩, storedAddress_miner 0, storedAddress_miner 1,
        ⟨200000000, by norm_num, .inl ⟨false, by simp, rfl⟩⟩, ⟨0, .zero _⟩, ⟨0, .zero _⟩⟩
    · exact minedRow_stored ..
  · obtain rfl | rfl := List.mem_pair.1 hr
    · rfl
    · rfl

theorem flow_emptying (a : Text) : flow .decimal ⟨502, beBytes 2 501, emptyingRows, none⟩ a =
    (if miner 1 = a then 200000000 else 0) - (if miner 0 = a then 200000000 else 0) +
      if miner 1 = a then 200000000 else 0 := by
  have hzero : unitsOf .decimal ['0'] = 0 := unitsOf_eq (MoneyText.zero .decimal).units
  have hamount : unitsOf .decimal (fixedText false 8 200000000) = 200000000 :=
    unitsOf_eq (u := (200000000 : Nat)) (MoneyText.units ⟨by norm_num, .inl ⟨false, by simp, rfl⟩⟩)
  rw [flow, emptyingRows, List.map_cons, List.map_singleton, List.sum_cons, List.sum_singleton, balance_minedRow]
  simp only [Row.partsFor, sampleRow, hzero, hamount, show ((minerReward 1 : Nat) : Int) = 200000000 from rfl]
  by_cases h₁ : miner 1 = a <;> by_cases h₀ : miner 0 = a <;> simp [Parts.balance, h₀, h₁]

theorem card_image_miner {S : Finset Nat} (hS : ∀ i ∈ S, i < 1000) : (S.image miner).card = S.card :=
  Finset.card_image_of_injOn fun _ hi _ hj h => miner_inj (hS _ hi) (hS _ hj) h

theorem Mined.addresses_eq (h : Mined n l) : addresses l.store = (Finset.range n).image miner := by
  obtain ⟨read, -, HI⟩ := h.good
  ext a
  rw [mem_addresses HI, h.held_pos, Finset.mem_image]
  exact exists_congr fun i => by rw [Finset.mem_range]

theorem Mined.mem_top {l : Ledger} (h : Mined 501 l) {T : Finset Text}
    (hT : Greatest richK (score l.store) (addresses l.store) T) (hi : i < 2) : miner i ∈ T := by
  by_contra hnot
  have hlt : shown 100000000 < shown 200000000 := by decide +kernel
  have hall : T ⊆ (Finset.range 2).image miner := by
    intro a ha
    have hle := hT.le a ha (miner i) (h.addresses_eq ▸ Finset.mem_image.2 ⟨i, Finset.mem_range.2 (by omega), rfl⟩) hnot
    have hmem := hT.subset ha
    rw [h.addresses_eq] at hmem
    obtain ⟨j, hj, rfl⟩ := Finset.mem_image.1 hmem
    have hj := Finset.mem_range.1 hj
    rw [score, score, h.held_miner i (by omega), h.held_miner j hj, minerReward, if_pos hi, minerReward] at hle
    by_cases hj₂ : j < 2
    · exact Finset.mem_image.2 ⟨j, Finset.mem_range.2 hj₂, rfl⟩
    · rw [if_neg hj₂] at hle
      exact absurd hle (not_le.2 hlt)
  have hcard := hT.card
  have hcard₁ := Finset.card_le_card hall
  rw [h.addresses_eq, card_image_miner (by simp; omega), Finset.card_range] at hcard
  rw [card_image_miner (by simp; omega), Finset.card_range] at hcard₁
  have hk : richK = 500 := rfl
  omega

theorem size_eq_card (top : Dict Text Number) : top.size = top.keys.toFinset.card := by
  have hnodup : top.keys.Nodup := top.nodup
  rw [List.toFinset_card_of_nodup hnodup, Dict.keys, List.length_map]
  rfl

/-- The block after 501 blocks leaves the list one address short. -/
theorem richAdvance_too_short : KeysDistinct .toy (· = ['k']) ∧ ∃ l s c c' c'',
    ReflTransGen (Bismuth.Step .toy .decimal (· = ['k']) none) ∅ l ∧
    ReflTransGen (RichStep .toy .decimal (· = ['k']) none) ⟨l, none⟩ s ∧ s.cache = some c ∧
    richAdvance .toy .decimal s.ledger.store c (s.ledger.store.tip.getD 0) = .ok c' ∧
    richCold s.ledger.store = .ok c'' ∧ c'.top.size < c''.top.size ∧ ¬c'.Agrees c'' := by
  obtain ⟨l, hl⟩ := exists_mined (n := 501) (by norm_num)
  obtain ⟨st', hst', hstep⟩ := hl.commit (by norm_num) (length_beBytes 2 501) emptyingRows_new (by decide)
    (hl.digest_ne (by norm_num))
  have H' := hstep.good sample_keysDistinct hl.good
  have halloc := allocations_of_grow sample_keysDistinct hl.good hstep rfl
  have hheld : ∀ a, StoredAddress a → held st' a = held l.store a + ((if miner 1 = a then 200000000 else 0) -
      (if miner 0 = a then 200000000 else 0) + if miner 1 = a then 200000000 else 0) := by
    intro a ha
    have hcommit := held_commit hl.good H' rfl halloc ha
    rwa [flow_emptying] at hcommit
  obtain ⟨read, -, HI⟩ := hl.good
  obtain ⟨read', -, HI'⟩ := id H'
  obtain ⟨c, hc⟩ := exists_richCold HI hl.held_lt
  obtain ⟨hheight, -, hgreatest⟩ := richCold_spec HI hc
  rw [hl.tip.1] at hheight
  have hrun := rich_run_of_cold hc hstep rfl (by norm_num)
  have hi := rich_run_inv sample_keysDistinct hl.history hrun
  have hsmall : ∀ a, held st' a < 10 ^ 28 := by
    intro a
    obtain hle | hpos := le_or_gt (held st' a) 0
    · exact hle.trans_lt (by norm_num)
    · have hle := hl.held_le a
      rw [hheld a (stored_of_held H' hpos)]
      split <;> split <;> norm_num <;> omega
  obtain ⟨⟨c', hc'⟩, c'', hc''⟩ := hi.exists_advance hsmall c
  obtain ⟨tbs, htbs, -⟩ := H'.typedChain
  obtain ⟨-, -, hgreatest'⟩ := richAdvance_spec (scan_above H' htbs c.height) (fun a ha => ne_nil_of_touched H' htbs ha)
    ((hi.kept c rfl).rightBut H' htbs) hc'
  obtain ⟨-, -, hgreatest''⟩ := richCold_spec HI' hc''
  have hne : miner 1 ≠ miner 0 := fun heq => absurd (miner_inj (by norm_num) (by norm_num) heq) (by norm_num)
  have hzero : held st' (miner 0) = 0 := by
    rw [hheld _ (storedAddress_miner 0), hl.held_miner 0 (by norm_num), if_neg hne, if_pos rfl]
    rfl
  have hcandidates : candidates st' c (between (c.height + 1 : Nat) (st'.tip.getD 0) tbs) ⊆
      c.top.keys.toFinset.erase (miner 0) := by
    intro a ha
    obtain ⟨ha, hpos⟩ := Finset.mem_filter.1 ha
    refine Finset.mem_erase.2 ⟨?_, ?_⟩
    · rintro rfl
      rw [hzero] at hpos
      exact lt_irrefl _ hpos
    · obtain ha | ha := List.mem_append.1 (List.mem_toFinset.1 ha)
      · exact List.mem_toFinset.2 ha
      · obtain ⟨b, hb, hlt, r, hr, ha⟩ := (mem_touched H' htbs).1 ha
        rw [hheight] at hlt
        obtain hb | hb := List.mem_append.1 hb
        · rw [hl.chain] at hb
          obtain ⟨i, hi, rfl⟩ := List.mem_map.1 hb
          have hi := List.mem_range.1 hi
          simp only [minedBlock] at hlt
          omega
        · rw [List.mem_singleton.1 hb] at hr
          have hrow : ∀ r ∈ emptyingRows, ∀ x, r.address = x ∨ r.recipient = x → x = miner 0 ∨ x = miner 1 := by
            intro r hr x hx
            obtain rfl | rfl := List.mem_pair.1 hr
            · exact hx.imp Eq.symm Eq.symm
            · exact .inr (hx.elim Eq.symm Eq.symm)
          obtain rfl | rfl := hrow r hr a ha
          · exact hl.mem_top hgreatest (by norm_num)
          · exact hl.mem_top hgreatest (by norm_num)
  have hholders : ((Finset.range 501).erase 0).image miner ⊆ addresses st' := by
    intro a ha
    obtain ⟨i, hi, rfl⟩ := Finset.mem_image.1 ha
    rw [Finset.mem_erase, Finset.mem_range] at hi
    have hreward : (0 : Int) < minerReward i := by exact_mod_cast (minerReward_lt i).1
    rw [mem_addresses HI', hheld _ (storedAddress_miner i), hl.held_miner i (by omega),
      if_neg fun heq : miner 0 = miner i => absurd (miner_inj (by norm_num) (by omega) heq) (by omega)]
    split <;> omega
  have hsize : c'.top.size < c''.top.size := by
    have hcard := hgreatest.card
    have hcard' : c'.top.keys.toFinset.card =
        min richK (candidates st' c (between (c.height + 1 : Nat) (st'.tip.getD 0) tbs)).card := hgreatest'.card
    have hcard'' : c''.top.keys.toFinset.card = min richK (addresses st').card := hgreatest''.card
    have hle := Finset.card_le_card hcandidates
    have hle' := Finset.card_le_card hholders
    rw [Finset.card_erase_of_mem (hl.mem_top hgreatest (by norm_num))] at hle
    rw [card_image_miner (by simp; omega), Finset.card_erase_of_mem (by simp), Finset.card_range] at hle'
    rw [hl.addresses_eq, card_image_miner (by simp; omega), Finset.card_range] at hcard
    rw [size_eq_card, size_eq_card]
    have hk : richK = 500 := rfl
    omega
  refine ⟨sample_keysDistinct, l, _, c, c', c'', hl.history, hrun, rfl, hc', hc'', hsize, fun hagrees => ?_⟩
  have hlen := hagrees.values.length_eq
  rw [Dict.values, Dict.values, List.length_map, List.length_map] at hlen
  exact hsize.ne hlen

end Stats

end Bismuth
