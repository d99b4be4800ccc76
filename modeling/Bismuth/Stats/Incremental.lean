import Bismuth.Stats.Defs
import Mathlib

/-!
# Incremental statistics

A cache that is topped up block by block holds what one pass over all blocks gives.
-/

namespace Bismuth

namespace Stats
open Py Relation

variable {P : Prims} {mode : Mode} {month : Number → Except Err Text} {keys : Text → Prop} {forkHeight : Option Nat}

/-! ## The scan -/

theorem between_eq_nil {lo hi : Int} (h : hi < lo) (tbs : List TypedBlock) : between lo hi tbs = [] := by
  rw [between, List.filter_eq_nil_iff]
  intro t _
  simp only [decide_eq_true_eq]
  omega

variable {tbs : List TypedBlock} {st : Store}

theorem scanFrom_eq (h : st.typedChain P mode = .ok tbs)
    (hsorted : tbs.Pairwise fun a b => a.1 < b.1) {hi : Nat} (hhi : hi + 1 < 2 ^ 64) {fuel n : Nat}
    (hfuel : hi < n + fuel) : scanFrom P mode st hi fuel n = .ok (between n hi tbs) := by
  induction fuel generalizing n with
  | zero => rw [scanFrom, between_eq_nil (by omega)]
  | succ fuel ih =>
    rw [scanFrom]
    split
    · rename_i hle
      have hlast : n ≤ min hi (n + scanChunk - 1) := by rw [scanChunk]; omega
      have hle' : min hi (n + scanChunk - 1) ≤ hi := min_le_left ..
      generalize min hi (n + scanChunk - 1) = last at hlast hle' ⊢
      have hrange : st.blocksInRange P mode n last = .ok (between n last tbs) :=
        Store.blocksInRange_eq h (by omega) (by omega)
      have hsplit : between n last tbs ++ between (last + 1) hi tbs = between n hi tbs :=
        between_between hsorted (by omega) (by omega)
      dsimp only
      rw [hrange, ih (by omega), ← hsplit]
      rfl
    · rw [between_eq_nil (by omega)]

theorem scan_eq (h : st.typedChain P mode = .ok tbs)
    (hsorted : tbs.Pairwise fun a b => a.1 < b.1) {lo hi : Nat} (hlo : 1 ≤ lo) (hhi : hi + 1 < 2 ^ 64) :
    scan P mode st lo hi = .ok (between lo hi tbs) := by
  rw [scan, max_eq_right hlo]
  exact scanFrom_eq h hsorted hhi (by omega)

/-! ## One accumulator -/

namespace Stat
variable {C S : Type} (A : Stat C S)

def fold (s : S) (blocks : List TypedBlock) : Except Err S := blocks.foldlM (fun s b => b.2.foldlM A.feed s) s

/-- The cache that one pass over the blocks up to `tip` gives. -/
def cold (tbs : List TypedBlock) (tip : Nat) : Except Err C := do
  return A.finish (← A.fold (A.start none) (between 1 tip tbs)) tip

/-- What the pass to `tip` makes of a cache. -/
def update (tbs : List TypedBlock) (tip : Nat) (cache : Option C) : Except Err (Option C) :=
  match A.pending tip cache with
  | none => .ok cache
  | some (height, s) => do return some (A.finish (← A.fold s (between (height + 1) tip tbs)) tip)

theorem fold_inv {A : Stat C S} {I : S → Prop} {blocks : List TypedBlock}
    (hstep : ∀ {s b t s'}, b ∈ blocks → t ∈ b.2 → I s → A.feed s t = .ok s' → I s') (hI : I s)
    (h : A.fold s blocks = .ok s') : I s' :=
  Except.foldlM_inv (fun hb hI h => Except.foldlM_inv (fun ht hI h => hstep hb ht hI h) hI h) hI h

theorem fold_eq_foldlM (s : S) (blocks : List TypedBlock) :
    A.fold s blocks = (blocks.flatMap Prod.snd).foldlM A.feed s := by
  induction blocks generalizing s with
  | nil => rfl
  | cons b blocks ih =>
    rw [fold, List.foldlM_cons, List.flatMap_cons, List.foldlM_append]
    exact bind_congr ih

theorem fold_append (s : S) (bs bs' : List TypedBlock) : A.fold s (bs ++ bs') = A.fold s bs >>= (A.fold · bs') := by
  rw [fold, List.foldlM_append]
  rfl

/-- The shared pass gives an accumulator the blocks above its own height. -/
theorem foldlM_feedBlock (height : Nat) (s : S) (blocks : List TypedBlock) :
    blocks.foldlM (fun j b => A.feedBlock b j) (some (height, s)) =
      (fun s' => some (height, s')) <$> A.fold s (blocks.filter (height < ·.1)) := by
  induction blocks generalizing s with
  | nil => rfl
  | cons b blocks ih =>
    rw [List.foldlM_cons, feedBlock]
    split
    · rename_i hlt
      rw [List.filter_cons_of_pos (by simpa using hlt), fold, List.foldlM_cons, bind_assoc, map_bind]
      refine bind_congr fun s' => ?_
      exact ih s'
    · rename_i hlt
      rw [List.filter_cons_of_neg (by simpa using hlt), ← ih]
      rfl

theorem foldlM_feedBlock_none (blocks : List TypedBlock) :
    blocks.foldlM (fun j b => A.feedBlock b j) (none : Option (Nat × S)) = .ok none := by
  induction blocks with
  | nil => rfl
  | cons b blocks ih =>
    rw [List.foldlM_cons, feedBlock, Except.ok_bind, ih]

theorem close_foldlM {tbs : List TypedBlock} {lo tip : Nat} {cache : Option C}
    (hlo : ∀ j ∈ A.pending tip cache, lo ≤ j.1) :
    A.close tip cache <$> (between (lo + 1) tip tbs).foldlM (fun j b => A.feedBlock b j) (A.pending tip cache) =
      A.update tbs tip cache := by
  rw [update]
  cases hp : A.pending tip cache with
  | none =>
    rw [foldlM_feedBlock_none]
    rfl
  | some j =>
    obtain ⟨height, s⟩ := j
    have hle : lo ≤ height := hlo (height, s) hp
    have hfilter : (between (lo + 1) tip tbs).filter (height < ·.1) = between (height + 1) tip tbs := by
      rw [between, between, List.filter_filter]
      refine List.filter_congr fun t _ => ?_
      rw [← Bool.decide_and, decide_eq_decide]
      omega
    rw [foldlM_feedBlock, hfilter]
    dsimp only
    cases A.fold s (between (height + 1) tip tbs) <;> rfl

end Stat

/-! ## The shared pass -/

theorem foldlM_prod {α β γ δ : Type} {f : α → δ → Except Err α} {g : β → δ → Except Err β} {h : γ → δ → Except Err γ}
    (l : List δ) (a : α) (b : β) (c : γ) {a' : α} {b' : β} {c' : γ} :
    l.foldlM (fun (x : α × β × γ) d => do return (← f x.1 d, ← g x.2.1 d, ← h x.2.2 d)) (a, b, c) = .ok (a', b', c') ↔
      l.foldlM f a = .ok a' ∧ l.foldlM g b = .ok b' ∧ l.foldlM h c = .ok c' := by
  induction l generalizing a b c with
  | nil => simp
  | cons d l ih =>
    simp only [List.foldlM_cons, Except.bind_eq_ok, Except.pure_eq_ok, Except.ok.injEq]
    constructor
    · rintro ⟨_, ⟨x, hx, y, hy, z, hz, rfl⟩, hrest⟩
      obtain ⟨h1, h2, h3⟩ := (ih x y z).1 hrest
      exact ⟨⟨x, hx, h1⟩, ⟨y, hy, h2⟩, z, hz, h3⟩
    · rintro ⟨⟨x, hx, h1⟩, ⟨y, hy, h2⟩, z, hz, h3⟩
      exact ⟨_, ⟨x, hx, y, hy, z, hz, rfl⟩, (ih x y z).2 ⟨h1, h2, h3⟩⟩

theorem foldlM_feedJobs {blocks : List TypedBlock} {j j' : Jobs} :
    blocks.foldlM (feedJobs P mode month st) j = .ok j' ↔
      blocks.foldlM (fun x b => (Monthly.stat mode month).feedBlock b x) j.1 = .ok j'.1 ∧
      blocks.foldlM (fun x b => (NewAddresses.stat P mode month st).feedBlock b x) j.2.1 = .ok j'.2.1 ∧
      blocks.foldlM (fun x b => (Miners.stat mode).feedBlock b x) j.2.2 = .ok j'.2.2 :=
  foldlM_prod (f := fun x b => (Monthly.stat mode month).feedBlock b x)
    (g := fun x b => (NewAddresses.stat P mode month st).feedBlock b x)
    (h := fun x b => (Miners.stat mode).feedBlock b x) blocks j.1 j.2.1 j.2.2

theorem Stat.update_of_pending {C S : Type} {A : Stat C S} {cache : Option C} (h : A.pending tip cache = none)
    (tbs : List TypedBlock) : A.update tbs tip cache = .ok cache := by
  rw [Stat.update, h]

theorem least_eq_none {a b c : Option Nat} (h : [a, b, c].reduceOption.min? = none) :
    a = none ∧ b = none ∧ c = none := by
  rw [List.min?_eq_none_iff] at h
  cases a <;> cases b <;> cases c <;> simp_all [List.reduceOption]

theorem least_le {a b c : Option Nat} (h : [a, b, c].reduceOption.min? = some n) :
    ∀ o ∈ [a, b, c], ∀ m ∈ o, n ≤ m := by
  intro o ho m hm
  refine (List.min?_eq_some_iff.1 h).2 m ?_
  rw [List.reduceOption_mem_iff, ← Option.mem_def.1 hm]
  exact ho

theorem pass_eq_ok (h : st.typedChain P mode = .ok tbs)
    (hsorted : tbs.Pairwise fun a b => a.1 < b.1) (htip : st.tip.getD 0 + 1 < 2 ^ 64) {c c' : Caches} :
    pass P mode month st c = .ok c' ↔
      (Monthly.stat mode month).update tbs (st.tip.getD 0) c.monthly = .ok c'.monthly ∧
      (NewAddresses.stat P mode month st).update tbs (st.tip.getD 0) c.newaddr = .ok c'.newaddr ∧
      (Miners.stat mode).update tbs (st.tip.getD 0) c.miners = .ok c'.miners := by
  rw [pass]
  dsimp only [jobs]
  split
  · rename_i hnone
    obtain ⟨h1, h2, h3⟩ := least_eq_none hnone
    rw [Stat.update_of_pending (Option.map_eq_none_iff.1 h1), Stat.update_of_pending (Option.map_eq_none_iff.1 h2),
      Stat.update_of_pending (Option.map_eq_none_iff.1 h3)]
    obtain ⟨m, n, i⟩ := c
    obtain ⟨m', n', i'⟩ := c'
    simp [Except.pure_eq_ok]
  · rename_i lo hlo
    have hle := least_le hlo
    have hle₁ : ∀ j ∈ (Monthly.stat mode month).pending (st.tip.getD 0) c.monthly, lo ≤ j.1 :=
      fun j hj => hle _ (by simp) j.1 (Option.mem_map_of_mem Prod.fst hj)
    have hle₂ : ∀ j ∈ (NewAddresses.stat P mode month st).pending (st.tip.getD 0) c.newaddr, lo ≤ j.1 :=
      fun j hj => hle _ (by simp) j.1 (Option.mem_map_of_mem Prod.fst hj)
    have hle₃ : ∀ j ∈ (Miners.stat mode).pending (st.tip.getD 0) c.miners, lo ≤ j.1 :=
      fun j hj => hle _ (by simp) j.1 (Option.mem_map_of_mem Prod.fst hj)
    rw [scan_eq h hsorted (by omega) htip, Except.ok_bind, ← Stat.close_foldlM _ hle₁, ← Stat.close_foldlM _ hle₂,
      ← Stat.close_foldlM _ hle₃, Except.bind_eq_ok, Except.map_eq_ok, Except.map_eq_ok, Except.map_eq_ok]
    constructor
    · rintro ⟨⟨j₁, j₂, j₃⟩, hj, hc⟩
      cases hc
      obtain ⟨h₁, h₂, h₃⟩ := foldlM_feedJobs.1 hj
      exact ⟨⟨j₁, h₁, rfl⟩, ⟨j₂, h₂, rfl⟩, j₃, h₃, rfl⟩
    · rintro ⟨⟨j₁, h₁, hc₁⟩, ⟨j₂, h₂, hc₂⟩, j₃, h₃, hc₃⟩
      refine ⟨(j₁, j₂, j₃), foldlM_feedJobs.2 ⟨h₁, h₂, h₃⟩, ?_⟩
      rw [hc₁, hc₂, hc₃]
      rfl

/-! ## Topping up -/

namespace Stat
variable {C S : Type} {A : Stat C S} {Agree : C → C → Prop} {tbs : List TypedBlock} {tip : Nat}

/-- Topping up a cache is as good as starting anew: from the state of a cold pass at the height of the cache on, the
two go on side by side. -/
structure Incremental (A : Stat C S) (Agree : C → C → Prop) (tbs : List TypedBlock) (tip : Nat) : Prop where
  refl : ∀ c, Agree c c
  height_eq : ∀ {c c'}, Agree c c' → A.height c = A.height c'
  height_finish : ∀ s n, A.height (A.finish s n) = n
  sim : ∀ {c s₀ n}, n < tip → A.height c = n → A.fold (A.start none) (between 1 n tbs) = .ok s₀ →
    Agree c (A.finish s₀ n) → ∃ Sim : S → S → Prop, Sim (A.start (some c)) s₀ ∧
      (∀ {s s' b t}, b ∈ between (n + 1) tip tbs → t ∈ b.2 → Sim s s' → Except.Both Sim (A.feed s t) (A.feed s' t)) ∧
      ∀ {s s'}, Sim s s' → Agree (A.finish s tip) (A.finish s' tip)

def Fresh (A : Stat C S) (Agree : C → C → Prop) (tbs : List TypedBlock) (tip : Nat) (cache : Option C) : Prop :=
  ∀ c ∈ cache, A.height c ≤ tip ∧ ∃ c₀, A.cold tbs (A.height c) = .ok c₀ ∧ Agree c c₀

variable {cache : Option C}

theorem Incremental.update (H : A.Incremental Agree tbs tip) (hsorted : tbs.Pairwise fun a b => a.1 < b.1)
    (hcache : A.Fresh Agree tbs tip cache) :
    Except.Both (fun o c₀ => ∃ c, o = some c ∧ Agree c c₀) (A.update tbs tip cache) (A.cold tbs tip) := by
  cases cache with
  | none =>
    refine (Except.Both.refl (R := Eq) (fun _ => rfl) (A.fold (A.start none) (between 1 tip tbs))).bind ?_
    rintro s _ rfl
    exact ⟨_, rfl, H.refl _⟩
  | some c =>
    obtain ⟨hle, c₀, hc₀, hagree⟩ := hcache c rfl
    by_cases htip : tip ≤ A.height c
    · have hpending : A.pending tip (some c) = none := if_pos (by simpa using htip)
      rw [update_of_pending hpending]
      rw [le_antisymm hle htip] at hc₀
      rw [hc₀]
      exact ⟨c, rfl, hagree⟩
    · have hpending : A.pending tip (some c) = some (A.height c, A.start (some c)) := if_neg (by simpa using htip)
      obtain ⟨s₀, hs₀, hfin⟩ := Except.bind_eq_ok.1 hc₀
      cases hfin
      obtain ⟨Sim, hinit, hstep, hdone⟩ := H.sim (by omega) rfl hs₀ hagree
      have hsplit : between 1 tip tbs = between 1 (A.height c) tbs ++ between (A.height c + 1) tip tbs :=
        (between_between hsorted (by omega) (by omega)).symm
      rw [Stat.update, hpending, cold, hsplit, fold_append, hs₀, Except.ok_bind]
      refine Except.Both.bind (R := Sim) ?_ fun hsim => ⟨_, rfl, hdone hsim⟩
      exact Except.Both.foldlM (fun hb hs => Except.Both.foldlM (fun ht hs => hstep hb ht hs) hs) hinit

theorem Incremental.update_both (H : A.Incremental Agree tbs tip) (hsorted : tbs.Pairwise fun a b => a.1 < b.1)
    (hcache : A.Fresh Agree tbs tip cache) :
    Except.Both (fun o o₀ => ∃ c c₀, o = some c ∧ o₀ = some c₀ ∧ Agree c c₀) (A.update tbs tip cache)
      (A.update tbs tip none) := by
  have hnone : A.update tbs tip none = some <$> A.cold tbs tip := by
    rw [Stat.update, cold, map_bind]
    rfl
  rw [hnone, map_eq_pure_bind, ← bind_pure (A.update tbs tip cache)]
  refine (H.update hsorted hcache).bind ?_
  rintro o c₀ ⟨c, rfl, hagree⟩
  exact ⟨c, c₀, rfl, rfl, hagree⟩

theorem Incremental.fresh_update (H : A.Incremental Agree tbs tip) (hsorted : tbs.Pairwise fun a b => a.1 < b.1)
    {cache cache' : Option C} (hcache : A.Fresh Agree tbs tip cache) (h : A.update tbs tip cache = .ok cache') :
    A.Fresh Agree tbs tip cache' := by
  have hboth := H.update hsorted hcache
  rw [h] at hboth
  obtain ⟨c₀, hc₀, c, rfl, hagree⟩ := hboth.of_ok
  rintro _ ⟨⟩
  have hheight : A.height c = tip := by
    obtain ⟨s₀, -, hfin⟩ := Except.bind_eq_ok.1 hc₀
    cases hfin
    rw [H.height_eq hagree, H.height_finish]
  rw [hheight]
  exact ⟨le_rfl, c₀, hc₀, hagree⟩

theorem Fresh.grow (h : A.Fresh Agree tbs tip cache) {tbs' : List TypedBlock} {tip' : Nat}
    (htip : tip ≤ tip') (hsame : ∀ {n : Nat}, n ≤ tip → between 1 n tbs' = between 1 n tbs) :
    A.Fresh Agree tbs' tip' cache := by
  intro c hc
  obtain ⟨hle, c₀, hc₀, hagree⟩ := h c hc
  refine ⟨hle.trans htip, c₀, ?_, hagree⟩
  rw [cold, hsame hle]
  exact hc₀

end Stat

/-! ## The first receipt of an address -/

def SeenIn (tbs : List TypedBlock) (a : Text) : Prop := ∃ b ∈ tbs, ∃ t ∈ b.2, t.recipient = a

theorem Shown.height_eq {blocks : List (Nat × List Row)} (H : Shown P mode st blocks) (hb : b ∈ blocks)
    (hr : r ∈ b.2) : r.height = b.1 := by
  obtain ⟨e, -, he⟩ := (Except.mapM_eq_ok.1 H.chainRows).exists_left hb
  obtain ⟨rows, hrows, he⟩ := Except.bind_eq_ok.1 he
  cases he
  exact expand_height hrows hr

/-- The recipient index knows whether an address has received up to a height. -/
theorem firstRecipientHeight_any {l : Ledger} (hist : ReflTransGen (Bismuth.Step P mode keys forkHeight) ∅ l)
    (h : l.store.typedChain P mode = .ok tbs) (ha : a.length ≤ 56) {n : Nat}
    (hn : n + 1 < 2 ^ 63) : ∃ o, firstRecipientHeight P mode l.store a = .ok o ∧
      (o.any (· ≤ n) ↔ SeenIn (between 1 n tbs) a) := by
  obtain ⟨chain, hplaced⟩ := placed_of_history hist
  obtain ⟨blocks, H, -⟩ := hplaced.shown
  have htyped := H.typedChain h
  have hone : BoundFits 1 := by decide
  rw [firstRecipientHeight, H.addressRows_from ha .recipient hone 1]
  generalize hq : (fun (pos : Pos) (r : Row) =>
    inBounds (some 1) none pos.1 && (reachable none pos && touches (some .recipient) a r)) = q
  have hiff : ∀ pos r, q pos r ↔ 1 ≤ pos.1 ∧ pos ≠ lastPos ∧ r.recipient = a := by
    intro pos r
    simp [← hq, inBounds, reachable, touches]
  have hsorted := flatMap_touched_sorted (q := q) H.sorted
  -- the receipts up to the height, by position
  have hseen : SeenIn (between 1 n tbs) a ↔ ∃ e ∈ blocks.flatMap (touched q), e.1.1 ≤ n := by
    constructor
    · rintro ⟨tb, htb, t, ht, hrecip⟩
      obtain ⟨htb, hbounds⟩ := List.mem_filter.1 htb
      obtain ⟨b, hb, hheight, hrel⟩ := htyped.exists_left htb
      obtain ⟨r, hr, hrt⟩ := hrel.exists_left ht
      obtain ⟨i, hi⟩ := List.getElem?_of_mem hr
      simp only [decide_eq_true_eq, hheight] at hbounds
      have hr' : r.recipient = a := by
        rw [(typedRow_ok hrt).2.2.2.2] at hrecip
        exact hrecip
      have hpos : ((b.1 : Int), i) ≠ lastPos := by
        intro he
        have := congrArg Prod.fst he
        simp only [lastPos] at this
        omega
      refine ⟨(((b.1 : Int), i), r), List.mem_flatMap.2 ⟨b, hb, mem_touched.2 ⟨hi, rfl, ?_⟩⟩, hbounds.2⟩
      exact (hiff _ _).2 ⟨hbounds.1, hpos, hr'⟩
    · rintro ⟨e, he, hle⟩
      obtain ⟨b, hb, he⟩ := List.mem_flatMap.1 he
      obtain ⟨hr, hpos, hqe⟩ := mem_touched.1 he
      obtain ⟨hlo, -, hrecip⟩ := (hiff _ _).1 hqe
      obtain ⟨tb, htb, hheight, hrel⟩ := htyped.exists_right hb
      obtain ⟨t, ht, hrt⟩ := hrel.exists_right (List.mem_of_getElem? hr)
      refine ⟨tb, List.mem_filter.2 ⟨htb, ?_⟩, t, ht, ?_⟩
      · rw [decide_eq_true_eq, hheight]
        omega
      · rw [(typedRow_ok hrt).2.2.2.2]
        exact hrecip
  rw [hseen]
  cases hL : blocks.flatMap (touched q) with
  | nil => exact ⟨none, rfl, by simp⟩
  | cons e L =>
    have hmem : e ∈ blocks.flatMap (touched q) := by rw [hL]; exact List.mem_cons_self
    obtain ⟨b, hb, he⟩ := List.mem_flatMap.1 hmem
    obtain ⟨hr, hpos, -⟩ := mem_touched.1 he
    obtain ⟨tb, -, -, hrel⟩ := htyped.exists_right hb
    obtain ⟨t, -, hrt⟩ := hrel.exists_right (List.mem_of_getElem? hr)
    have hheight : t.height = b.1 := by
      rw [(typedRow_ok hrt).2.2.2.2]
      exact Shown.height_eq H hb (List.mem_of_getElem? hr)
    refine ⟨some t.height, ?_, ?_⟩
    · have htake : limited 1 ((e :: L).map Prod.snd) = [e.2] := rfl
      rw [htake, List.mapM_cons, hrt]
      rfl
    · rw [Option.any_some, decide_eq_true_eq, hheight]
      constructor
      · intro hle
        exact ⟨e, List.mem_cons_self, by rw [hpos]; exact_mod_cast hle⟩
      · rintro ⟨e', he', hle⟩
        rw [hL, List.map_cons, List.pairwise_cons] at hsorted
        have hfirst : e.1.1 ≤ e'.1.1 := by
          obtain rfl | he' := List.mem_cons.1 he'
          · exact le_rfl
          · obtain h | h := hsorted.1 e'.1 (List.mem_map_of_mem he')
            · exact h.le
            · exact h.1.le
        rw [hpos] at hfirst
        exact_mod_cast hfirst.trans hle

/-! ## Months -/

def Month.counters (e : Month) : Nat × Int × Int × Int := (e.txs, e.vol, e.fees, e.emission)

/-- The same months with the same counters, but for the senders. -/
def SameCounters (d d' : Dict Text Month) : Prop :=
  ∀ m, (d.get? m).map Month.counters = (d'.get? m).map Month.counters

theorem SameCounters.set {d d' : Dict Text Month} (h : SameCounters d d') (m : Text) {e e' : Month}
    (he : e.counters = e'.counters) : SameCounters (d.set m e) (d'.set m e') := by
  intro k
  rw [Dict.get?_set, Dict.get?_set]
  split
  · rw [Option.map_some, Option.map_some, he]
  · exact h k

theorem SameCounters.getD {d d' : Dict Text Month} (h : SameCounters d d') (m : Text) :
    ((d.get? m).getD {}).counters = ((d'.get? m).getD {}).counters := by
  have hm := h m
  cases hd : d.get? m with
  | none =>
    rw [hd] at hm
    rw [Option.map_eq_none_iff.1 hm.symm]
  | some e =>
    rw [hd] at hm
    obtain ⟨e', he', heq⟩ := Option.map_eq_some_iff.1 hm.symm
    rw [he']
    exact heq.symm

/-- Counting the senders of months that are there changes nothing else. -/
theorem sameCounters_countActive {active : Dict Text (Finset Text)} {months : Dict Text Month}
    (h : ∀ e ∈ active.entries, (months.get? e.1).isSome) : SameCounters (Monthly.countActive active months) months := by
  rw [Monthly.countActive]
  generalize active.entries = es at h
  suffices ∀ d, SameCounters d months → SameCounters (es.foldl (fun months e =>
      months.set e.1 { (months.get? e.1).getD {} with active := e.2.card }) d) months from this months fun _ => rfl
  intro d hd
  induction es generalizing d with
  | nil => exact hd
  | cons e es ih =>
    rw [List.foldl_cons]
    refine ih (fun e he => h e (List.mem_cons_of_mem _ he)) _ ?_
    intro k
    rw [Dict.get?_set]
    split
    · rename_i heq
      subst heq
      obtain ⟨e', he'⟩ := Option.isSome_iff_exists.1 (h e List.mem_cons_self)
      have hcounters := hd.getD e.1
      rw [he'] at hcounters ⊢
      exact congrArg some hcounters
    · exact hd k

namespace Monthly

structure Cold (acc : Monthly) : Prop where
  cache : acc.cache = none
  active : ∀ e ∈ acc.active.entries, (acc.months.get? e.1).isSome

theorem Cold.feed {acc acc' : Monthly} (h : acc.Cold) (hfeed : Monthly.feed mode month acc t = .ok acc') : acc'.Cold := by
  rw [Monthly.feed] at hfeed
  obtain ⟨m, -, hfeed⟩ := Except.bind_eq_ok.1 hfeed
  obtain ⟨reward, -, hfeed⟩ := Except.bind_eq_ok.1 hfeed
  obtain ⟨vol, -, hfeed⟩ := Except.bind_eq_ok.1 hfeed
  obtain ⟨fee, -, hfeed⟩ := Except.bind_eq_ok.1 hfeed
  cases hfeed
  refine ⟨h.cache, fun e he => ?_⟩
  dsimp only at he ⊢
  rw [if_pos (by rw [h.cache]; rfl), Dict.mem_entries, Dict.get?_set] at he
  rw [Dict.get?_set]
  split
  · rfl
  · rename_i hne
    rw [if_neg hne] at he
    exact h.active e (Dict.mem_entries.2 he)

theorem feed_both {acc acc' : Monthly} (h : SameCounters acc.months acc'.months) (t : TypedRow) :
    Except.Both (fun a a' => a.cache = acc.cache ∧ SameCounters a.months a'.months) (Monthly.feed mode month acc t)
      (Monthly.feed mode month acc' t) := by
  rw [Monthly.feed, Monthly.feed]
  refine (Except.Both.refl (R := Eq) (fun _ => rfl) (monthOf month t)).bind ?_
  rintro m _ rfl
  refine (Except.Both.refl (R := Eq) (fun _ => rfl) (units mode t.reward)).bind ?_
  rintro reward _ rfl
  refine (Except.Both.refl (R := Eq) (fun _ => rfl) (units mode t.amount)).bind ?_
  rintro vol _ rfl
  refine (Except.Both.refl (R := Eq) (fun _ => rfl) (units mode t.fee)).bind ?_
  rintro fee _ rfl
  refine ⟨rfl, h.set m ?_⟩
  have he := h.getD m
  simp only [Month.counters, Prod.mk.injEq] at he ⊢
  obtain ⟨h1, h2, h3, h4⟩ := he
  rw [h1, h2, h3, h4]
  exact ⟨rfl, rfl, rfl, rfl⟩

structure Agree (c c₀ : MonthlyCache) : Prop where
  height : c.height = c₀.height
  months : SameCounters c.months c₀.months

theorem incremental (tbs : List TypedBlock) (tip : Nat) : (stat mode month).Incremental Agree tbs tip where
  refl c := ⟨rfl, fun _ => rfl⟩
  height_eq h := h.height
  height_finish s n := by
    show (finish s n).height = n
    rw [finish]
    split <;> rfl
  sim := by
    intro c s₀ n hn hheight hs₀ hagree
    have hcold : s₀.Cold :=
      Stat.fold_inv (fun _ _ h hfeed => h.feed hfeed)
        ⟨rfl, by simp [stat, start, EmptyCollection.emptyCollection]⟩ hs₀
    have hfinish : ∀ {s : Monthly} {n}, s.Cold → SameCounters (finish s n).months s.months := by
      intro s n hs
      rw [finish, hs.cache]
      exact sameCounters_countActive hs.active
    refine ⟨fun s s' => s.cache = some c ∧ s'.Cold ∧ SameCounters s.months s'.months, ⟨rfl, hcold, ?_⟩, ?_, ?_⟩
    · intro m
      exact (hagree.months m).trans (hfinish hcold m)
    · rintro s s' b t - - ⟨hc, hs', hsame⟩
      refine (feed_both hsame t).imp fun hs hs'' h => ?_
      exact ⟨h.1.trans hc, hs'.feed hs'', h.2⟩
    · rintro s s' ⟨hc, hs', hsame⟩
      refine ⟨?_, fun m => ?_⟩
      · show (finish s tip).height = (finish s' tip).height
        rw [finish, finish, hc, hs'.cache]
      · have hs : (finish s tip).months = s.months := by rw [finish, hc]
        refine Eq.trans ?_ (hfinish hs' m).symm
        show ((finish s tip).months.get? m).map Month.counters = _
        rw [hs]
        exact hsame m

end Monthly

/-! ## New addresses and miners -/

theorem seenIn_iff : SeenIn tbs a ↔ ∃ t ∈ tbs.flatMap Prod.snd, t.recipient = a := by
  constructor
  · rintro ⟨b, hb, t, ht, h⟩
    exact ⟨t, List.mem_flatMap.2 ⟨b, hb, ht⟩, h⟩
  · rintro ⟨t, ht, h⟩
    obtain ⟨b, hb, ht⟩ := List.mem_flatMap.1 ht
    exact ⟨b, hb, t, ht, h⟩

namespace NewAddresses
variable {st : Store}

variable {acc acc' : NewAddresses}

theorem feed_cold (hcold : acc.cold = true) (h : feed P mode month st acc t = .ok acc') :
    acc'.cold = true ∧ ∀ a, a ≠ [] → (a ∈ acc'.checked ↔ t.recipient = a ∨ a ∈ acc.checked) := by
  rw [feed] at h
  split at h
  · rename_i hskip
    cases h
    refine ⟨hcold, fun a ha => (or_iff_right_of_imp ?_).symm⟩
    rintro rfl
    exact hskip.resolve_left ha
  · rw [known, if_pos hcold, Except.ok_bind, if_neg (by simp)] at h
    obtain ⟨m, -, h⟩ := Except.bind_eq_ok.1 h
    cases h
    refine ⟨hcold, fun a ha => ?_⟩
    rw [Finset.mem_insert, eq_comm]

theorem foldlM_cold {rows : List TypedRow} (hcold : acc.cold = true)
    (h : rows.foldlM (feed P mode month st) acc = .ok acc') :
    acc'.cold = true ∧ ∀ a, a ≠ [] → (a ∈ acc'.checked ↔ (∃ t ∈ rows, t.recipient = a) ∨ a ∈ acc.checked) := by
  induction rows generalizing acc with
  | nil =>
    cases h
    exact ⟨hcold, by simp⟩
  | cons t rows ih =>
    obtain ⟨acc₁, h₁, h⟩ := Except.bind_eq_ok.1 h
    obtain ⟨hcold₁, hchecked₁⟩ := feed_cold hcold h₁
    obtain ⟨hcold', hchecked'⟩ := ih hcold₁ h
    refine ⟨hcold', fun a ha => ?_⟩
    rw [hchecked' a ha, hchecked₁ a ha, List.exists_mem_cons_iff, or_left_comm, or_assoc]

/-- An accumulator that goes on at the height `n` beside one that has seen the blocks before. -/
structure Beside (n : Nat) (seen : Text → Prop) (acc acc' : NewAddresses) : Prop where
  warm : acc.cold = false
  since : acc.since = n
  cold : acc'.cold = true
  months : acc.months = acc'.months
  checked : ∀ a, a ≠ [] → (a ∈ acc'.checked ↔ a ∈ acc.checked ∨ seen a)

theorem Beside.feed {n : Nat} {seen : Text → Prop} (H : Beside n seen acc acc')
    (hknown : ∃ o, firstRecipientHeight P mode st t.recipient = .ok o ∧ (o.any (· ≤ n) ↔ seen t.recipient)) :
    Except.Both (Beside n seen) (NewAddresses.feed P mode month st acc t)
      (NewAddresses.feed P mode month st acc' t) := by
  obtain ⟨o, ho, hseen⟩ := hknown
  rw [NewAddresses.feed, NewAddresses.feed]
  by_cases hnil : t.recipient = []
  · rw [if_pos (.inl hnil), if_pos (.inl hnil)]
    exact H
  by_cases hchecked : t.recipient ∈ acc.checked
  · rw [if_pos (.inr hchecked), if_pos (.inr ((H.checked _ hnil).2 (.inl hchecked)))]
    exact H
  have hk : known P mode st acc t.recipient = .ok (o.any (· ≤ n)) := by
    rw [known, H.warm, ho, H.since]
    rfl
  rw [if_neg (by tauto), hk, Except.ok_bind]
  by_cases hs : seen t.recipient
  · -- the index knows the address, and the cold pass has checked it
    rw [if_pos (hseen.2 hs), if_pos (.inr ((H.checked _ hnil).2 (.inr hs)))]
    refine ⟨H.warm, H.since, H.cold, H.months, fun a ha => ?_⟩
    rw [H.checked a ha, Finset.mem_insert, or_assoc]
    refine (or_iff_right_of_imp ?_).symm
    rintro rfl
    exact .inr hs
  · have hnew : ¬(t.recipient = [] ∨ t.recipient ∈ acc'.checked) := by
      rw [H.checked _ hnil]
      tauto
    rw [if_neg (fun h => hs (hseen.1 h)), if_neg hnew, known, if_pos H.cold, Except.ok_bind, if_neg (by simp)]
    refine (Except.Both.refl (R := Eq) (fun _ => rfl) (monthOf month t)).bind ?_
    rintro m _ rfl
    refine ⟨H.warm, H.since, H.cold, ?_, fun a ha => ?_⟩
    · show acc.months.set m _ = acc'.months.set m _
      rw [H.months]
    · rw [Finset.mem_insert, Finset.mem_insert, H.checked a ha, or_assoc]

theorem incremental {l : Ledger} (hd : KeysDistinct P keys)
    (hist : ReflTransGen (Bismuth.Step P mode keys forkHeight) ∅ l) {tbs : List TypedBlock}
    (h : l.store.typedChain P mode = .ok tbs) :
    (stat P mode month l.store).Incremental Eq tbs (l.store.tip.getD 0) where
  refl c := rfl
  height_eq h := congrArg _ h
  height_finish s n := rfl
  sim := by
    intro c s₀ n hn hheight hs₀ hagree
    have H := good_of_history hd hist
    rw [Stat.fold_eq_foldlM] at hs₀
    obtain ⟨hcold, hchecked⟩ := foldlM_cold rfl hs₀
    refine ⟨Beside n (SeenIn (between 1 n tbs)), ⟨rfl, hheight, hcold, ?_, fun a ha => ?_⟩, ?_, ?_⟩
    · rw [hagree]
      rfl
    · rw [hchecked a ha, seenIn_iff, or_comm]
      rfl
    · intro s s' b t hb ht hsim
      have hstored := (H.storedAddress h (List.mem_of_mem_filter hb) ht).2
      have hlt : n + 1 < 2 ^ 63 := by
        obtain ⟨read, -, HI⟩ := H
        have := HI.tip_lt
        omega
      exact hsim.feed (firstRecipientHeight_any hist h hstored.2 hlt)
    · intro s s' hsim
      show finish s _ = finish s' _
      rw [finish, finish, hsim.months]

theorem cold_congr (st st' : Store) {tbs : List TypedBlock} {n : Nat}
    (h : (stat P mode month st).cold tbs n = .ok c) : (stat P mode month st').cold tbs n = .ok c := by
  have hboth : Except.Both Eq ((stat P mode month st).cold tbs n) ((stat P mode month st').cold tbs n) := by
    rw [Stat.cold, Stat.cold, Stat.fold_eq_foldlM, Stat.fold_eq_foldlM]
    refine Except.Both.bind (R := fun s s' => s = s' ∧ s.cold = true) (Except.Both.foldlM ?_ ⟨rfl, rfl⟩) ?_
    · rintro s _ t - ⟨rfl, hcold⟩
      have heq : feed P mode month st s t = feed P mode month st' s t := by
        rw [feed, feed, known, known, if_pos hcold, if_pos hcold]
      show Except.Both _ (feed P mode month st s t) (feed P mode month st' s t)
      rw [← heq]
      refine (Except.Both.refl (R := Eq) (fun _ => rfl) _).imp ?_
      rintro s₁ _ hs₁ - rfl
      exact ⟨rfl, (feed_cold hcold hs₁).1⟩
    · rintro s _ ⟨rfl, -⟩
      exact rfl
  rw [h] at hboth
  obtain ⟨c', hc', rfl⟩ := hboth.of_ok
  exact hc'

end NewAddresses

theorem Miners.incremental (tbs : List TypedBlock) (tip : Nat) : (stat mode).Incremental Eq tbs tip where
  refl c := rfl
  height_eq h := congrArg _ h
  height_finish s n := rfl
  sim := by
    intro c s₀ n _ _ _ hagree
    refine ⟨Eq, ?_, ?_, ?_⟩
    · rw [hagree]
      rfl
    · rintro s _ b t - - rfl
      exact .refl (fun _ => rfl) _
    · rintro s _ rfl
      rfl

/-! ## The caches of a node -/

theorem tip_succ_lt {l : Ledger} (H : l.Good P mode keys forkHeight) : l.store.tip.getD 0 + 1 < 2 ^ 64 := by
  obtain ⟨read, -, HI⟩ := H
  have := HI.tip_lt
  omega

structure Sys where
  ledger : Ledger := ∅
  caches : Caches := {}

inductive Step (P : Prims) (mode : Mode) (month : Number → Except Err Text) (keys : Text → Prop)
    (forkHeight : Option Nat) : Sys → Sys → Prop
  | grow : Bismuth.Step P mode keys forkHeight s.ledger l → s.ledger.chain <+: l.chain →
    Step P mode month keys forkHeight s { s with ledger := l }
  | maintain : Step P mode month keys forkHeight s { s with caches := maintain P mode month s.ledger.store s.caches }

structure Caches.Agrees (c c₀ : Caches) : Prop where
  monthly : ∃ m m₀, c.monthly = some m ∧ c₀.monthly = some m₀ ∧ Monthly.Agree m m₀
  newaddr : c.newaddr = c₀.newaddr
  miners : c.miners = c₀.miners

/-- Each cache is that of a cold pass up to its height. -/
structure Caches.Fresh (P : Prims) (mode : Mode) (month : Number → Except Err Text) (st : Store)
    (tbs : List TypedBlock) (c : Caches) : Prop where
  monthly : (Monthly.stat mode month).Fresh Monthly.Agree tbs (st.tip.getD 0) c.monthly
  newaddr : (NewAddresses.stat P mode month st).Fresh Eq tbs (st.tip.getD 0) c.newaddr
  miners : (Miners.stat mode).Fresh Eq tbs (st.tip.getD 0) c.miners

section
variable {l l' : Ledger} {tbs tbs' : List TypedBlock} {c : Caches}

theorem Caches.Fresh.grow (h : c.Fresh P mode month l.store tbs) (H : l.Good P mode keys forkHeight)
    (H' : l'.Good P mode keys forkHeight) (hgrow : l.chain <+: l'.chain) (ht : l.store.typedChain P mode = .ok tbs)
    (ht' : l'.store.typedChain P mode = .ok tbs') : c.Fresh P mode month l'.store tbs' where
  monthly := h.monthly.grow (H.tip_mono H' hgrow) (H.between_grow H' hgrow ht ht')
  newaddr := by
    intro c hc
    obtain ⟨hle, c₀, hc₀, hagree⟩ := h.newaddr.grow (H.tip_mono H' hgrow) (H.between_grow H' hgrow ht ht') c hc
    exact ⟨hle, c₀, NewAddresses.cold_congr _ _ hc₀, hagree⟩
  miners := h.miners.grow (H.tip_mono H' hgrow) (H.between_grow H' hgrow ht ht')

theorem Caches.Fresh.of_pass (h : c.Fresh P mode month l.store tbs) (hd : KeysDistinct P keys)
    (hist : ReflTransGen (Bismuth.Step P mode keys forkHeight) ∅ l) (ht : l.store.typedChain P mode = .ok tbs)
    (hpass : pass P mode month l.store c = .ok c') : c'.Fresh P mode month l.store tbs := by
  have H := good_of_history hd hist
  have hsorted := H.sorted_typedChain ht
  obtain ⟨h₁, h₂, h₃⟩ := (pass_eq_ok ht hsorted (tip_succ_lt H)).1 hpass
  exact ⟨(Monthly.incremental tbs _).fresh_update hsorted h.monthly h₁,
    (NewAddresses.incremental hd hist ht).fresh_update hsorted h.newaddr h₂,
    (Miners.incremental tbs _).fresh_update hsorted h.miners h₃⟩

theorem Caches.Fresh.pass_both (h : c.Fresh P mode month l.store tbs) (hd : KeysDistinct P keys)
    (hist : ReflTransGen (Bismuth.Step P mode keys forkHeight) ∅ l) (ht : l.store.typedChain P mode = .ok tbs) :
    Except.Both Caches.Agrees (pass P mode month l.store c) (pass P mode month l.store {}) := by
  have H := good_of_history hd hist
  have hsorted := H.sorted_typedChain ht
  have hboth₁ := (Monthly.incremental tbs _).update_both hsorted h.monthly
  have hboth₂ := (NewAddresses.incremental hd hist ht).update_both hsorted h.newaddr
  have hboth₃ := (Miners.incremental tbs _).update_both hsorted h.miners
  refine Except.Both.intro ?_ ?_
  · intro c' hc'
    obtain ⟨h₁, h₂, h₃⟩ := (pass_eq_ok ht hsorted (tip_succ_lt H)).1 hc'
    rw [h₁] at hboth₁
    rw [h₂] at hboth₂
    rw [h₃] at hboth₃
    obtain ⟨_, hm, m, m₀, hcm, rfl, hagree⟩ := hboth₁.of_ok
    obtain ⟨_, hn, n, _, hcn, rfl, rfl⟩ := hboth₂.of_ok
    obtain ⟨_, hi, i, _, hci, rfl, rfl⟩ := hboth₃.of_ok
    exact ⟨⟨some m₀, some n, some i⟩, (pass_eq_ok ht hsorted (tip_succ_lt H)).2 ⟨hm, hn, hi⟩,
      ⟨m, m₀, hcm, rfl, hagree⟩, hcn, hci⟩
  · intro c₀ hc₀
    obtain ⟨h₁, h₂, h₃⟩ := (pass_eq_ok ht hsorted (tip_succ_lt H)).1 hc₀
    rw [h₁] at hboth₁
    rw [h₂] at hboth₂
    rw [h₃] at hboth₃
    obtain ⟨m, hm, -⟩ := hboth₁.symm.of_ok
    obtain ⟨n, hn, -⟩ := hboth₂.symm.of_ok
    obtain ⟨i, hi, -⟩ := hboth₃.symm.of_ok
    exact ⟨⟨m, n, i⟩, (pass_eq_ok ht hsorted (tip_succ_lt H)).2 ⟨hm, hn, hi⟩⟩

end

/-! ## Runs -/

structure Sys.Inv (P : Prims) (mode : Mode) (month : Number → Except Err Text) (keys : Text → Prop)
    (forkHeight : Option Nat) (s : Sys) : Prop where
  history : ReflTransGen (Bismuth.Step P mode keys forkHeight) ∅ s.ledger
  fresh : ∀ {tbs}, s.ledger.store.typedChain P mode = .ok tbs → s.caches.Fresh P mode month s.ledger.store tbs

theorem Step.inv (hd : KeysDistinct P keys) {s s' : Sys} (hi : s.Inv P mode month keys forkHeight)
    (h : Step P mode month keys forkHeight s s') : s'.Inv P mode month keys forkHeight := by
  have H := good_of_history hd hi.history
  obtain ⟨tbs, ht, -⟩ := H.typedChain
  cases h with
  | @grow _ l hstep hgrow =>
    have hist := hi.history.tail hstep
    exact ⟨hist, fun ht' => (hi.fresh ht).grow H (good_of_history hd hist) hgrow ht ht'⟩
  | maintain =>
    refine ⟨hi.history, fun ht' => ?_⟩
    show (Stats.maintain P mode month s.ledger.store s.caches).Fresh P mode month s.ledger.store _
    rw [Stats.maintain]
    split
    · rename_i c hpass
      exact (hi.fresh ht').of_pass hd hi.history ht' hpass
    · exact hi.fresh ht'

theorem run_inv (hd : KeysDistinct P keys) {s : Sys} (h : ReflTransGen (Step P mode month keys forkHeight) {} s) :
    s.Inv P mode month keys forkHeight := by
  induction h with
  | refl => exact ⟨.refl, fun _ => ⟨by simp [Stat.Fresh], by simp [Stat.Fresh], by simp [Stat.Fresh]⟩⟩
  | tail _ hstep ih => exact hstep.inv hd ih

/-- **Topping up is as good as a cold pass.** Whenever the chain has grown and the caches have been brought up to the
tip, in any order, bringing them up to the tip once more gives the figures of one pass over all blocks, and it raises
if and only if that pass does. -/
theorem pass_agrees_cold (hd : KeysDistinct P keys) {s : Sys}
    (h : ReflTransGen (Step P mode month keys forkHeight) {} s) :
    Except.Both Caches.Agrees (pass P mode month s.ledger.store s.caches) (pass P mode month s.ledger.store {}) := by
  have hi := run_inv hd h
  obtain ⟨tbs, ht, -⟩ := (good_of_history hd hi.history).typedChain
  exact (hi.fresh ht).pass_both hd hi.history ht

/-- The heights and figures of the caches at the first of two blocks and after the second one. -/
private def sampleFigures : Except Err (List (Option Nat)) := do
  let st₁ ← commitBlock .toy .decimal {} 1 (hex [1]) sampleBlocks.1 none (some 0)
  let c₁ := maintain .toy .decimal (fun _ => .ok ['m']) st₁ {}
  let st₂ ← commitBlock .toy .decimal st₁ 2 (hex [2]) sampleBlocks.2 none (some 0)
  let c₂ ← pass .toy .decimal (fun _ => .ok ['m']) st₂ c₁
  return [c₁.newaddr.map (·.height), c₂.newaddr.map (·.height), c₂.newaddr.map (·.total),
    c₂.miners.map fun c => (c.miners.values.map Prod.fst).sum]

private theorem sampleFigures_eq : sampleFigures = .ok [some 1, some 2, some 1, some 2] := by decide +kernel

/-- The caches of the first block are topped up over the second one. -/
theorem pass_agrees_cold_sample : ∃ s c, ReflTransGen (Step .toy .decimal (fun _ => .ok ['m']) (· = ['k']) (some 0)) {} s ∧
    s.caches.newaddr.map (·.height) = some 1 ∧ pass .toy .decimal (fun _ => .ok ['m']) s.ledger.store s.caches = .ok c ∧
    c.newaddr.map (·.height) = some 2 ∧ c.newaddr.map (·.total) = some 1 ∧
    Except.Both Caches.Agrees (pass .toy .decimal (fun _ => .ok ['m']) s.ledger.store s.caches)
      (pass .toy .decimal (fun _ => .ok ['m']) s.ledger.store {}) := by
  have h := sampleFigures_eq
  rw [sampleFigures] at h
  obtain ⟨st₁, h₁, h⟩ := Except.bind_eq_ok.1 h
  obtain ⟨st₂, h₂, h⟩ := Except.bind_eq_ok.1 h
  obtain ⟨c₂, hc₂, h⟩ := Except.bind_eq_ok.1 h
  simp only [Except.pure_eq_ok, Except.ok.injEq, List.cons.injEq, and_true] at h
  have hrun : ReflTransGen (Step .toy .decimal (fun _ => .ok ['m']) (· = ['k']) (some 0)) {}
      ⟨⟨st₂, _⟩, maintain .toy .decimal (fun _ => .ok ['m']) st₁ {}⟩ :=
    ((ReflTransGen.single (.grow (sample_step h₁) ⟨_, rfl⟩)).tail .maintain).tail
      (.grow (.commit none sampleBlocks_new.2 (by simp) h₂) ⟨_, rfl⟩)
  exact ⟨_, c₂, hrun, h.1, hc₂, h.2.1, h.2.2.1, pass_agrees_cold sample_keysDistinct hrun⟩

end Stats

end Bismuth
