import Bismuth.Fork
import Bismuth.Lib.Except

/-!
# Lock-in

The check of the window that ends at the tip, and the scan of the whole chain, find the same activation
height on a chain that only grows.
-/

namespace Bismuth
open Py

variable {π : Type} {cfg : Config π} {read : Nat → Except Err Bool} {signal : Nat → Bool}

/-- The `window` heights up to `t` are all signalled. -/
def Closes (signal : Nat → Bool) (window t : Nat) : Prop :=
  window ≤ t ∧ ∀ i < window, signal (t - i) = true

theorem allSignalled_range' (hread : ∀ h, s ≤ h → h < s + k → read h = .ok (signal h)) :
    allSignalled read (List.range' s k) = .ok (decide (∀ i < k, signal (s + i) = true)) := by
  induction k generalizing s with
  | zero => simp [allSignalled]
  | succ k ih =>
    have hs := hread s le_rfl (by omega)
    rw [List.range'_succ, allSignalled, hs, Except.ok_bind]
    have hsplit : (∀ i < k + 1, signal (s + i) = true) ↔
        signal s = true ∧ ∀ i < k, signal (s + 1 + i) = true := by
      constructor
      · intro h
        refine ⟨h 0 (by omega), fun i hi => ?_⟩
        rw [show s + 1 + i = s + (i + 1) by omega]
        exact h (i + 1) (by omega)
      · rintro ⟨h0, h⟩ i hi
        cases i with
        | zero => exact h0
        | succ i =>
          rw [show s + (i + 1) = s + 1 + i by omega]
          exact h i (by omega)
    cases hsig : signal s with
    | false =>
      have hnot : ¬∀ i < k + 1, signal (s + i) = true := fun h => by simp [(hsplit.1 h).1] at hsig
      rw [decide_eq_false hnot]
      rfl
    | true =>
      rw [if_pos rfl, ih fun h h1 h2 => hread h (by omega) (by omega)]
      exact congrArg Except.ok (decide_eq_decide.2 ⟨fun h => hsplit.2 ⟨hsig, h⟩, fun h => (hsplit.1 h).2⟩)

theorem lockinAtTip_eq (hread : ∀ h, 1 ≤ h → h ≤ t → read h = .ok (signal h)) :
    (Closes signal cfg.forkWindow t →
      lockinAtTip cfg read t = .ok (some (nextForkBoundary (t + cfg.forkBury) cfg.forkBoundary))) ∧
    (¬Closes signal cfg.forkWindow t → lockinAtTip cfg read t = .ok none) := by
  rw [lockinAtTip]
  by_cases ht : t < cfg.forkWindow
  · rw [if_pos ht]
    exact ⟨fun h => absurd h.1 (by omega), fun _ => rfl⟩
  · have hall := allSignalled_range' (s := t + 1 - cfg.forkWindow) (k := cfg.forkWindow)
      (fun h h1 h2 => hread h (by omega) (by omega))
    have hiff : (∀ i < cfg.forkWindow, signal (t + 1 - cfg.forkWindow + i) = true) ↔
        Closes signal cfg.forkWindow t := by
      constructor
      · refine fun h => ⟨by omega, fun i hi => ?_⟩
        have := h (cfg.forkWindow - 1 - i) (by omega)
        rwa [show t + 1 - cfg.forkWindow + (cfg.forkWindow - 1 - i) = t - i by omega] at this
      · intro h i hi
        have := h.2 (cfg.forkWindow - 1 - i) (by omega)
        rwa [show t - (cfg.forkWindow - 1 - i) = t + 1 - cfg.forkWindow + i by omega] at this
    rw [if_neg ht, hall, Except.ok_bind]
    by_cases hc : Closes signal cfg.forkWindow t
    · simp [hiff, hc]
    · simp [hiff, hc]

/-- `run` is the number of signalled heights that end just below `s`. -/
structure Trailing (signal : Nat → Bool) (s run : Nat) : Prop where
  le : run + 1 ≤ s
  signalled : ∀ i < run, signal (s - 1 - i) = true
  stops : run + 1 = s ∨ signal (s - 1 - run) = false

theorem Trailing.not_closes (H : Trailing signal s run) (h : run + 1 < window)
    (hs : signal s = true) : ¬Closes signal window s := by
  rintro ⟨hle, hall⟩
  rcases H.stops with hrun | hstop
  · omega
  · have := hall (run + 1) h
    rw [show s - (run + 1) = s - 1 - run by omega, hstop] at this
    cases this

theorem Trailing.succ (H : Trailing signal s run) (hs : signal s = true) :
    Trailing signal (s + 1) (run + 1) where
  le := by have := H.le; omega
  signalled := fun i hi => by
    cases i with
    | zero => simpa using hs
    | succ i =>
      rw [show s + 1 - 1 - (i + 1) = s - 1 - i by omega]
      exact H.signalled i (by omega)
  stops := by
    have := H.le
    rcases H.stops with h | h
    · exact .inl (by omega)
    · exact .inr (by rwa [show s + 1 - 1 - (run + 1) = s - 1 - run by omega])

theorem Trailing.zero (hs : signal s = false) : Trailing signal (s + 1) 0 where
  le := by omega
  signalled := by simp
  stops := .inr (by simpa using hs)

/-- The scan finds the first height at which a window closes, and reads no height above it. -/
theorem firstWindow_range' (hw : 1 ≤ window) (H : Trailing signal s run) (hlt : run < window)
    (hread : ∀ h, s ≤ h → h < s + k → (∀ t < h, s ≤ t → ¬Closes signal window t) →
      read h = .ok (signal h)) :
    ((∀ t, s ≤ t → t < s + k → ¬Closes signal window t) →
      firstWindow read window run (List.range' s k) = .ok none) ∧
    ∀ t, s ≤ t → t < s + k → Closes signal window t →
      (∀ t', s ≤ t' → t' < t → ¬Closes signal window t') →
      firstWindow read window run (List.range' s k) = .ok (some t) := by
  induction k generalizing s run with
  | zero => exact ⟨fun _ => rfl, fun t h1 h2 => by omega⟩
  | succ k ih =>
    have hread' : ¬Closes signal window s → ∀ h, s + 1 ≤ h → h < s + 1 + k →
        (∀ t < h, s + 1 ≤ t → ¬Closes signal window t) → read h = .ok (signal h) := by
      intro hnot h h1 h2 hnone
      refine hread h (by omega) (by omega) fun t ht hst => ?_
      rcases Nat.lt_or_eq_of_le hst with hlt | rfl
      · exact hnone t ht hlt
      · exact hnot
    rw [List.range'_succ, firstWindow, hread s le_rfl (by omega) fun t h1 h2 => by omega,
      Except.ok_bind]
    cases hs : signal s with
    | true =>
      rw [if_pos rfl]
      by_cases hfull : window ≤ run + 1
      · -- the window closes here
        have hclose : Closes signal window s := by
          refine ⟨by have := H.le; omega, fun i hi => ?_⟩
          cases i with
          | zero => simpa using hs
          | succ i =>
            rw [show s - (i + 1) = s - 1 - i by omega]
            exact H.signalled i (by omega)
        rw [if_pos hfull]
        refine ⟨fun h => absurd hclose (h s le_rfl (by omega)), fun t h1 h2 hc hfirst => ?_⟩
        obtain rfl : s = t := by
          by_contra hne
          exact hfirst s le_rfl (by omega) hclose
        rfl
      · have hnot : ¬Closes signal window s := H.not_closes (by omega) hs
        obtain ⟨ih1, ih2⟩ := ih (H.succ hs) (show run + 1 < window by omega) (hread' hnot)
        rw [if_neg hfull]
        refine ⟨fun h => ih1 fun t h1 h2 => h t (by omega) (by omega), fun t h1 h2 hc hfirst => ?_⟩
        have hne : s ≠ t := by
          rintro rfl
          exact hnot hc
        exact ih2 t (by omega) (by omega) hc fun t' h1' h2' => hfirst t' (by omega) h2'
    | false =>
      have hnot : ¬Closes signal window s := fun h => by
        have := h.2 0 (by omega)
        rw [Nat.sub_zero, hs] at this
        cases this
      obtain ⟨ih1, ih2⟩ := ih (Trailing.zero hs) (show 0 < window by omega) (hread' hnot)
      rw [if_neg (by simp)]
      refine ⟨fun h => ih1 fun t h1 h2 => h t (by omega) (by omega), fun t h1 h2 hc hfirst => ?_⟩
      have hne : s ≠ t := by
        rintro rfl
        exact hnot hc
      exact ih2 t (by omega) (by omega) hc fun t' h1' h2' => hfirst t' (by omega) h2'

theorem Trailing.one (signal : Nat → Bool) : Trailing signal 1 0 := ⟨le_rfl, by simp, .inl rfl⟩

theorem dynamicForkHeight_eq (hw : 1 ≤ cfg.forkWindow)
    (hread : ∀ h, 1 ≤ h → h ≤ tip → (∀ t < h, ¬Closes signal cfg.forkWindow t) →
      read h = .ok (signal h)) :
    ((∀ t ≤ tip, ¬Closes signal cfg.forkWindow t) → dynamicForkHeight cfg read tip = .ok none) ∧
    ∀ t ≤ tip, Closes signal cfg.forkWindow t → (∀ t' < t, ¬Closes signal cfg.forkWindow t') →
      dynamicForkHeight cfg read tip =
        .ok (some (nextForkBoundary (t + cfg.forkBury) cfg.forkBoundary)) := by
  have hzero : ¬Closes signal cfg.forkWindow 0 := fun h => absurd h.1 (by omega)
  obtain ⟨h1, h2⟩ := firstWindow_range' (k := tip) hw (Trailing.one signal)
    (show 0 < cfg.forkWindow by omega) fun h h1 h2 hnone => by
      refine hread h h1 (by omega) fun t ht => ?_
      rcases Nat.eq_zero_or_pos t with rfl | hpos
      · exact hzero
      · exact hnone t ht hpos
  rw [dynamicForkHeight]
  constructor
  · intro hnone
    split
    · rfl
    · rw [h1 fun t _ ht => hnone t (by omega)]
      rfl
  · intro t ht hc hfirst
    have hle := hc.1
    rw [if_neg (by omega), h2 t (by omega) (by omega) hc fun t' _ ht' => hfirst t' ht']
    rfl

theorem lt_nextForkBoundary (h : 0 < boundary) (n : Nat) : n < nextForkBoundary n boundary := by
  have h1 := Nat.div_add_mod n boundary
  have h2 := Nat.mod_lt n h
  rw [nextForkBoundary, Nat.add_mul, one_mul, Nat.mul_comm]
  omega

/-- As long as no window has closed at the tip, the scan finds nothing. From the first tip at which one
closes, the scan finds at every later tip the height that the check at the tip found there, which lies
above that tip. -/
theorem lockin_eq_scan (cfg : Config π) (signal : Nat → Bool) (hw : 1 ≤ cfg.forkWindow) :
    (∀ tip, (∀ t ≤ tip, lockinAtTip cfg (fun h => .ok (signal h)) t = .ok none) →
      dynamicForkHeight cfg (fun h => .ok (signal h)) tip = .ok none) ∧
    ∀ t f, lockinAtTip cfg (fun h => .ok (signal h)) t = .ok (some f) →
      (∀ t' < t, lockinAtTip cfg (fun h => .ok (signal h)) t' = .ok none) →
      t < f ∧ ∀ tip ≥ t, dynamicForkHeight cfg (fun h => .ok (signal h)) tip = .ok (some f) := by
  have hread : ∀ tip h, 1 ≤ h → h ≤ tip → (fun h => .ok (signal h) : Nat → Except Err Bool) h =
      .ok (signal h) := fun _ _ _ _ => rfl
  -- the check at a tip is none exactly when no window closes there
  have hnone : ∀ t, lockinAtTip cfg (fun h => .ok (signal h)) t = .ok none →
      ¬Closes signal cfg.forkWindow t := fun t h hc => by
    have := (lockinAtTip_eq (hread t)).1 hc
    rw [h] at this
    cases this
  have hread' : ∀ tip h, 1 ≤ h → h ≤ tip → (∀ t < h, ¬Closes signal cfg.forkWindow t) →
      (fun h => .ok (signal h) : Nat → Except Err Bool) h = .ok (signal h) := fun _ _ _ _ _ => rfl
  refine ⟨fun tip h => (dynamicForkHeight_eq hw (hread' tip)).1 fun t ht => hnone t (h t ht), ?_⟩
  intro t f hf hfirst
  have hc : Closes signal cfg.forkWindow t := by
    by_contra hc
    have := (lockinAtTip_eq (hread t)).2 hc
    rw [hf] at this
    cases this
  have heq := (lockinAtTip_eq (hread t)).1 hc
  rw [hf] at heq
  cases heq
  refine ⟨?_, fun tip ht => (dynamicForkHeight_eq hw (hread' tip)).2 t ht hc fun t' ht' =>
    hnone t' (hfirst t' ht')⟩
  exact lt_of_le_of_lt (Nat.le_add_right _ _) (lt_nextForkBoundary cfg.forkBoundary_pos _)

def twoWindow : Config Unit where
  network := .regnet
  mode := .decimal
  forkWindow := 2
  forkBoundary := 10
  forkBury := 1
  onBlock _ _ u := u
  onRollback _ u := u

/-- The heights from two on are signalled: the window closes at three. -/
theorem lockin_eq_scan_two : 1 ≤ twoWindow.forkWindow ∧
    dynamicForkHeight twoWindow (fun h => .ok (decide (2 ≤ h))) 7 = .ok (some 10) := by
  refine ⟨by decide, ?_⟩
  refine ((lockin_eq_scan twoWindow (fun h => decide (2 ≤ h)) (by decide)).2 3 10
    (by decide +kernel) ?_).2 7 (by decide)
  intro t ht
  interval_cases t <;> decide +kernel

end Bismuth
