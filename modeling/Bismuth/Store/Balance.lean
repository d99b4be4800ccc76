import Bismuth.Lib.Tally
import Bismuth.Store.Body

/-!
# The balance table

`_apply_balances` adds to every key the total of the deltas for it, and keeps no zero entry.
-/

namespace Bismuth
open Py

/-! ## Deltas -/

/-- The total of the deltas of the addresses with the key `k`. -/
abbrev Acc.total (acc : Acc) (k : Bytes) : Parts := tally abytes acc k

theorem Acc.total_cons (e : Text × Parts) (acc : Acc) (k : Bytes) :
    Acc.total (e :: acc) k = (if abytes e.1 = k then e.2 else 0) + Acc.total acc k := rfl

theorem Acc.total_add (a : Text) (d : Parts) (acc : Acc) (k : Bytes) :
    (acc.add a d).total k = acc.total k + if abytes a = k then d else 0 := by
  induction acc with
  | nil => simp [Acc.add]
  | cons e acc ih =>
    simp only [Acc.add]
    split <;> rename_i he
    · subst he
      simp only [Acc.total, tally_cons]
      split <;> abel
    · simp only [Acc.total, tally_cons] at ih ⊢
      rw [ih, add_assoc]

theorem Acc.mem_add {acc : Acc} (h : e ∈ acc.add a d) : e.1 = a ∨ ∃ e' ∈ acc, e'.1 = e.1 := by
  induction acc with
  | nil => simp [Acc.add] at h; exact .inl (by rw [h])
  | cons x acc ih =>
    simp only [Acc.add] at h
    split at h
    · rcases List.mem_cons.1 h with rfl | h
      · exact .inl ‹_›
      · exact .inr ⟨e, by simp [h], rfl⟩
    · rcases List.mem_cons.1 h with rfl | h
      · exact .inr ⟨_, List.mem_cons_self, rfl⟩
      · exact (ih h).imp id fun ⟨e', h', he⟩ => ⟨e', by simp [h'], he⟩

/-- The addresses of the deltas are stored ones, each of them once. -/
structure Acc.Ok (acc : Acc) : Prop where
  stored : ∀ e ∈ acc, StoredAddress e.1
  nodup : (acc.map Prod.fst).Nodup

theorem Acc.Ok.nil : Acc.Ok [] := ⟨by simp, by simp⟩

theorem Acc.Ok.add {acc : Acc} (h : acc.Ok) (ha : StoredAddress a) (d : Parts) :
    (acc.add a d).Ok := by
  refine ⟨fun e he => ?_, ?_⟩
  · rcases Acc.mem_add he with h' | ⟨e', h', he⟩
    · exact h' ▸ ha
    · exact he ▸ h.stored e' h'
  · have hnd := h.nodup
    clear h
    induction acc with
    | nil => simp [Acc.add]
    | cons x acc ih =>
      simp only [List.map_cons, List.nodup_cons] at hnd
      simp only [Acc.add]
      split <;> rename_i hx
      · simpa using hnd
      · simp only [List.map_cons, List.nodup_cons]
        refine ⟨fun hmem => ?_, ih hnd.2⟩
        obtain ⟨e, he, hex⟩ := List.mem_map.1 hmem
        rcases Acc.mem_add he with h' | ⟨e', h', he'⟩
        · exact hx (hex ▸ h')
        · exact hnd.1 (List.mem_map.2 ⟨e', h', he'.trans hex⟩)

theorem Acc.total_fold_write (acc l : Acc) (k : Bytes) :
    (acc.fold .write l).total k = acc.total k + l.total k := by
  induction l generalizing acc with
  | nil => simp [Acc.fold]
  | cons e l ih =>
    have := ih (acc.add e.1 e.2)
    rw [Acc.total_add, add_assoc] at this
    exact this

theorem Acc.total_fold_delete (acc l : Acc) (k : Bytes) :
    (acc.fold .delete l).total k = acc.total k - l.total k := by
  induction l generalizing acc with
  | nil => simp [Acc.fold]
  | cons e l ih =>
    have := ih (acc.add e.1 (-e.2))
    rw [Acc.total_add] at this
    rw [Acc.total_cons]
    refine this.trans ?_
    split <;> abel

theorem Acc.Ok.fold {acc l : Acc} (h : acc.Ok) (hl : ∀ e ∈ l, StoredAddress e.1) (d : Dir) :
    (acc.fold d l).Ok := by
  induction l generalizing acc with
  | nil => exact h
  | cons e l ih =>
    exact ih (h.add (hl e (by simp)) _) fun e' he' => hl e' (by simp [he'])

/-! ## Keys -/

theorem abytes_eq_utf8 (h : a.length ≤ 56) : abytes a = utf8 a :=
  List.take_of_length_le (by have := length_utf8_le a; omega)

theorem utf8_ne_nil (h : a ≠ []) : utf8 a ≠ [] := fun h' => h (utf8_injective (h'.trans rfl : utf8 a = utf8 []))

theorem abytes_ne_nil (h : a ≠ []) : abytes a ≠ [] := by
  have := utf8_ne_nil h
  simp [abytes, this]

/-- A short address is not cut, and no cut address has its key. -/
theorem abytes_inj (h : a.length ≤ 56) (he : abytes a = abytes b) : a = b := by
  rw [abytes_eq_utf8 h, abytes] at he
  have hlen := length_utf8_le a
  have htake := congrArg List.length he
  rw [List.length_take] at htake
  rw [List.take_of_length_le (by omega)] at he
  exact utf8_injective he

theorem lmdbKey_abytes (h : a ≠ []) : lmdbKey (abytes a) = (.ok (abytes a) : Except Err Bytes) := by
  have h1 := abytes_ne_nil h
  have h2 : (abytes a).length ≤ 255 := List.length_take_le _ _
  rw [lmdbKey, if_neg (by simp [h1]; omega)]

theorem Acc.Ok.nodup_keys (h : Acc.Ok acc) : (acc.map fun e => abytes e.1).Nodup := by
  have : (acc.map fun e => abytes e.1) = (acc.map Prod.fst).map abytes := by simp
  rw [this]
  refine h.nodup.map_on fun a ha b hb he => ?_
  obtain ⟨e, he1, rfl⟩ := List.mem_map.1 ha
  obtain ⟨e', he2, rfl⟩ := List.mem_map.1 hb
  exact abytes_inj (h.stored e he1).2 he

/-! ## The table -/

/-- The parts under a key, zero where there is no entry. -/
def partsAt (bal : OrdTable Bytes Parts) (k : Bytes) : Parts := (bal.get? k).getD 0

def Fits (p : Parts) : Prop := balPack p = (.ok p : Except Err Parts)

theorem fits_iff : Fits p ↔ (-2 ^ 127 ≤ p.1 ∧ p.1 < 2 ^ 127) ∧ (-2 ^ 127 ≤ p.2.1 ∧ p.2.1 < 2 ^ 127) ∧
    (-2 ^ 127 ≤ p.2.2.1 ∧ p.2.2.1 < 2 ^ 127) ∧ (-2 ^ 127 ≤ p.2.2.2 ∧ p.2.2.2 < 2 ^ 127) := by
  simp only [Fits, balPack, fitsI128, ite_eq_left_iff, reduceCtorEq, imp_false, not_not,
    Bool.and_eq_true, decide_eq_true_eq, and_assoc]

theorem Fits.zero : Fits 0 := by rw [fits_iff]; decide

theorem Fits.of_le (hl : Fits l) (hu : Fits u) (h1 : l ≤ p) (h2 : p ≤ u) : Fits p := by
  rw [fits_iff] at *
  obtain ⟨a1, a2, a3, a4⟩ := h1
  obtain ⟨b1, b2, b3, b4⟩ := h2
  exact ⟨⟨hl.1.1.trans a1, b1.trans_lt hu.1.2⟩, ⟨hl.2.1.1.trans a2, b2.trans_lt hu.2.1.2⟩,
    ⟨hl.2.2.1.1.trans a3, b3.trans_lt hu.2.2.1.2⟩, ⟨hl.2.2.2.1.trans a4, b4.trans_lt hu.2.2.2.2⟩⟩

/-- No entry is zero, and every entry fits. -/
def Clean (bal : OrdTable Bytes Parts) : Prop :=
  ∀ k p, bal.get? k = some p → p ≠ 0 ∧ Fits p

theorem Clean.fits (h : Clean bal) (k : Bytes) : Fits (partsAt bal k) := by
  rw [partsAt]
  cases hk : bal.get? k with
  | none => exact .zero
  | some p => exact (h k p hk).2

/-- Tables without zero entries are equal when their parts are. -/
theorem Clean.ext (h : Clean bal) (h' : Clean bal') (H : ∀ k, partsAt bal k = partsAt bal' k) :
    bal = bal' := by
  refine OrdTable.ext_get? fun k => ?_
  have hk := H k
  simp only [partsAt] at hk
  cases h1 : bal.get? k with
  | none =>
    cases h2 : bal'.get? k with
    | none => rfl
    | some q => rw [h1, h2] at hk; exact absurd hk.symm (h' k q h2).1
  | some p =>
    cases h2 : bal'.get? k with
    | none => rw [h1, h2] at hk; exact absurd hk (h k p h1).1
    | some q => rw [h1, h2] at hk; exact congrArg some hk

theorem applyBalance_ok (h : applyBalance bal a d = .ok bal') :
    (∀ k, partsAt bal' k = partsAt bal k + if abytes a = k then d else 0) ∧
      (Clean bal → Clean bal') := by
  simp only [applyBalance] at h
  split at h <;> rename_i hd
  · cases h
    exact ⟨fun k => by simp [hd], id⟩
  · simp only [Except.bind_eq_ok] at h
    obtain ⟨k, hk, h⟩ := h
    obtain ⟨rfl, -⟩ := lmdbKey_ok hk
    split at h <;> rename_i hnew
    · cases h
      refine ⟨fun k => ?_, fun hc k p hp => ?_⟩
      · rw [partsAt, OrdTable.get?_erase]
        split <;> rename_i hk
        · subst hk; simp [partsAt, hnew]
        · simp [partsAt, Ne.symm hk]
      · rw [OrdTable.get?_erase] at hp
        split at hp
        · cases hp
        · exact hc k p hp
    · obtain ⟨q, hq, h⟩ := Except.bind_eq_ok.1 h
      cases h
      have hfit : q = (bal.get? (abytes a)).getD 0 + d ∧ Fits q := by
        have := hq
        simp only [balPack] at this
        split at this <;> cases this
        exact ⟨rfl, hq⟩
      obtain ⟨rfl, hfit⟩ := hfit
      refine ⟨fun k => ?_, fun hc k p hp => ?_⟩
      · rw [partsAt, OrdTable.get?_put]
        split <;> rename_i hk
        · subst hk; simp [partsAt]
        · simp [partsAt, Ne.symm hk]
      · rw [OrdTable.get?_put] at hp
        split at hp
        · cases hp; exact ⟨hnew, hfit⟩
        · exact hc k p hp

/-- Under every key the table grows by the total of the deltas. -/
theorem applyBalances_ok (h : applyBalances bal acc = .ok bal') :
    (∀ k, partsAt bal' k = partsAt bal k + acc.total k) ∧ (Clean bal → Clean bal') := by
  induction acc generalizing bal with
  | nil => cases h; exact ⟨by simp, id⟩
  | cons e acc ih =>
    simp only [applyBalances, Except.bind_eq_ok] at h
    obtain ⟨b, hb, h⟩ := h
    obtain ⟨h1, h2⟩ := applyBalance_ok hb
    obtain ⟨h3, h4⟩ := ih h
    exact ⟨fun k => by rw [h3, h1, Acc.total_cons, add_assoc], h4 ∘ h2⟩

theorem applyBalance_of_fits (ha : a ≠ []) (hf : Fits (partsAt bal (abytes a) + d)) :
    ∃ bal', applyBalance bal a d = (.ok bal' : Except Err _) := by
  rw [applyBalance]
  split
  · exact ⟨_, rfl⟩
  · rw [lmdbKey_abytes ha, Except.ok_bind]
    dsimp only
    split
    · exact ⟨_, rfl⟩
    · rw [Fits, partsAt] at hf
      rw [hf]
      exact ⟨_, rfl⟩

/-- `_apply_balances` cannot fail when every new total fits. -/
theorem applyBalances_of_fits (bal : OrdTable Bytes Parts) (h : Acc.Ok acc)
    (hf : ∀ k, Fits (partsAt bal k + acc.total k)) :
    ∃ bal', applyBalances bal acc = (.ok bal' : Except Err _) := by
  have hnd := h.nodup_keys
  have hne : ∀ e ∈ acc, e.1 ≠ [] := fun e he => (h.stored e he).1
  clear h
  induction acc generalizing bal with
  | nil => exact ⟨bal, rfl⟩
  | cons e acc ih =>
    obtain ⟨hx, hnd'⟩ := List.nodup_cons.1 hnd
    -- the entry's key does not come back among the later deltas
    have hlast : Acc.total acc (abytes e.1) = 0 :=
      tally_of_forall_ne fun e' he' heq => hx (List.mem_map.2 ⟨e', he', heq⟩)
    have hfe : Fits (partsAt bal (abytes e.1) + e.2) := by
      have := hf (abytes e.1)
      rwa [Acc.total_cons, if_pos rfl, hlast, add_zero] at this
    obtain ⟨b, hb⟩ := applyBalance_of_fits (hne e (by simp)) hfe
    have hb' := (applyBalance_ok hb).1
    obtain ⟨b', h'⟩ := ih b (fun k => by
      have := hf k
      rwa [Acc.total_cons, ← add_assoc, ← hb'] at this) hnd'
      (fun e' he' => hne e' (by simp [he']))
    exact ⟨b', by rw [applyBalances, hb, Except.ok_bind, h']⟩

end Bismuth
