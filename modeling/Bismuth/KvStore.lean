import Bismuth.Lib.OrdTable

/-!
# Ordered scans

`_LmdbTxn.range` of `kvstore.py`. A cursor is where LMDB documents it to be: a call that moves it gives the index of an
entry, or nothing when it returns false.
-/

namespace Bismuth

namespace Cursor
variable {K V : Type} [LinearOrder K] (t : OrdTable K V)

/-- `set_range`: the first entry whose key is not below `k`. -/
def setRange (k : K) : Option Nat := t.entries.findIdx? fun e => k ≤ e.1

def first : Option Nat := if t.entries = [] then none else some 0

def last : Option Nat := if t.entries = [] then none else some (t.entries.length - 1)

/-- `prev` from the entry `i`. -/
def prev (i : Nat) : Option Nat := if i = 0 then none else some (i - 1)

/-- `iternext`: the entry `i` and those after it. -/
def iternext (i : Nat) : List (K × V) := t.entries.drop i

/-- `iterprev`: the entry `i` and those before it, from there on. -/
def iterprev (i : Nat) : List (K × V) := (t.entries.take (i + 1)).reverse

end Cursor

namespace Kv
variable {K V : Type} [LinearOrder K] (t : OrdTable K V)
open Cursor

/-- `range` with `reverse` false. -/
def rangeForward (start stop : Option K) : List (K × V) :=
  let cur := match start with
    | some s => setRange t s
    | none => first t
  match cur with
  | none => []
  | some i =>
    match stop with
    | none => iternext t i
    | some e => (iternext t i).takeWhile fun kv => ¬e ≤ kv.1

/-- `range` with `reverse` true. -/
def rangeReverse (start stop : Option K) : List (K × V) :=
  let cur := match stop with
    | some e =>
      match setRange t e with
      | some i => prev i
      | none => last t
    | none => last t
  match cur with
  | none => []
  | some i =>
    match start with
    | none => iterprev t i
    | some s => (iterprev t i).takeWhile fun kv => ¬kv.1 < s

def range (start stop : Option K) (reverse : Bool) : List (K × V) :=
  if reverse then rangeReverse t start stop else rangeForward t start stop

/-- The entries with `start <= key < stop`. -/
def inRange (start stop : Option K) (e : K × V) : Bool := start.all (· ≤ e.1) && stop.all (e.1 < ·)

/-! ## Sorted lists -/

/-- A prefix property along a list keeps the entries that have it. -/
theorem takeWhile_eq_filter {p : α → Bool} {l : List α} (h : l.Pairwise fun a b => p b → p a) :
    l.takeWhile p = l.filter p := by
  induction l with
  | nil => rfl
  | cons a l ih =>
    obtain ⟨ha, hl⟩ := List.pairwise_cons.1 h
    rw [List.takeWhile_cons, List.filter_cons, ih hl]
    split
    · rfl
    · rename_i hpa
      rw [eq_comm, List.filter_eq_nil_iff]
      intro b hb hpb
      exact hpa (ha b hb hpb)

variable {t}

/-- The first entry that is not below a bound splits the table there. -/
theorem split_of_setRange {k : K} (h : setRange t k = some i) :
    t.entries.take i = t.entries.filter (·.1 < k) ∧ t.entries.drop i = t.entries.filter (k ≤ ·.1) := by
  obtain ⟨hi, hk, hbefore⟩ := List.findIdx?_eq_some_iff_getElem.1 h
  have hsorted := t.sorted
  rw [← List.take_append_drop i t.entries] at hsorted
  have htake : ∀ e ∈ t.entries.take i, e.1 < k := by
    intro e he
    obtain ⟨j, hj, rfl⟩ := List.mem_take_iff_getElem.1 he
    have := hbefore j (by omega)
    simpa using this
  have hdrop : ∀ e ∈ t.entries.drop i, k ≤ e.1 := by
    intro e he
    have hhead : t.entries.drop i = t.entries[i] :: t.entries.drop (i + 1) := List.drop_eq_getElem_cons hi
    have htail := (List.pairwise_append.1 hsorted).2.1
    rw [hhead] at he htail
    have hk : k ≤ t.entries[i].1 := by simpa using hk
    obtain rfl | he := List.mem_cons.1 he
    · exact hk
    · exact hk.trans ((List.pairwise_cons.1 htail).1 e he).le
  have hsplit (p : K × V → Bool) : t.entries.filter p = (t.entries.take i).filter p ++ (t.entries.drop i).filter p := by
    rw [← List.filter_append, List.take_append_drop]
  constructor
  · rw [hsplit, List.filter_eq_self.2 (by simpa using htake),
      List.filter_eq_nil_iff.2 (by simpa using hdrop), List.append_nil]
  · rw [hsplit, List.filter_eq_nil_iff.2 (by simpa using htake), List.filter_eq_self.2 (by simpa using hdrop),
      List.nil_append]

theorem lt_of_setRange {k : K} (h : setRange t k = none) : ∀ e ∈ t.entries, e.1 < k := by
  intro e he
  have := List.findIdx?_eq_none_iff.1 h e he
  simpa using this

theorem forward_start (start : Option K) :
    (match match start with
      | some s => setRange t s
      | none => first t with
    | none => []
    | some i => iternext t i) = t.entries.filter fun e => start.all (· ≤ e.1) := by
  cases start with
  | none =>
    simp only [Option.all_none, List.filter_true]
    by_cases hnil : t.entries = []
    · simp [first, hnil]
    · simp [first, hnil, iternext]
  | some s =>
    simp only [Option.all_some]
    cases hset : setRange t s with
    | none =>
      rw [eq_comm, List.filter_eq_nil_iff]
      intro e he
      simpa using lt_of_setRange hset e he
    | some i => exact (split_of_setRange hset).2

theorem reverse_start (stop : Option K) :
    (match match stop with
      | some e =>
        match setRange t e with
        | some i => prev i
        | none => last t
      | none => last t with
    | none => []
    | some i => iterprev t i) = (t.entries.filter fun e => stop.all (e.1 < ·)).reverse := by
  -- from the last entry on the whole table is met
  have hlast : (match last t with | none => [] | some i => iterprev t i) = t.entries.reverse := by
    by_cases hnil : t.entries = []
    · simp [last, hnil]
    · have hpos := List.length_pos_iff.2 hnil
      rw [last, if_neg hnil]
      dsimp only
      rw [iterprev, Nat.sub_add_cancel hpos, List.take_length]
  cases stop with
  | none =>
    simp only [Option.all_none, List.filter_true]
    exact hlast
  | some e =>
    simp only [Option.all_some]
    cases hset : setRange t e with
    | none =>
      rw [List.filter_eq_self.2 (by simpa using lt_of_setRange hset)]
      exact hlast
    | some i =>
      rw [← (split_of_setRange hset).1]
      cases i with
      | zero => rfl
      | succ i => rfl

theorem rangeForward_eq (start stop : Option K) : rangeForward t start stop = t.entries.filter (inRange start stop) := by
  have hstart := forward_start (t := t) start
  unfold rangeForward
  dsimp only
  have hsplit : t.entries.filter (inRange start stop) =
      (t.entries.filter fun e => start.all (· ≤ e.1)).filter fun e => stop.all (e.1 < ·) := by
    rw [List.filter_filter]
    exact List.filter_congr fun e _ => Bool.and_comm ..
  rw [hsplit, ← hstart]
  split
  · rfl
  · rename_i i hi
    rw [hi] at hstart
    cases stop with
    | none => simp
    | some e =>
      have hsorted : (iternext t i).Pairwise fun a b => a.1 < b.1 := t.sorted.sublist (List.drop_sublist ..)
      simp only [Option.all_some, ← not_le]
      refine takeWhile_eq_filter (hsorted.imp ?_)
      intro a b hab hb
      simp only [decide_eq_true_eq, not_le] at hb ⊢
      exact hab.trans hb

theorem rangeReverse_eq (start stop : Option K) :
    rangeReverse t start stop = (t.entries.filter (inRange start stop)).reverse := by
  have hstart := reverse_start (t := t) stop
  unfold rangeReverse
  dsimp only
  have hsplit : (t.entries.filter (inRange start stop)).reverse =
      (t.entries.filter fun e => stop.all (e.1 < ·)).reverse.filter fun e => start.all (· ≤ e.1) := by
    rw [List.filter_reverse, List.filter_filter]
    rfl
  rw [hsplit, ← hstart]
  split
  · rfl
  · rename_i i hi
    rw [hi] at hstart
    cases start with
    | none => simp
    | some s =>
      have hsorted : (iterprev t i).Pairwise fun a b => b.1 < a.1 :=
        List.pairwise_reverse.2 (t.sorted.sublist (List.take_sublist ..))
      simp only [Option.all_some, ← not_lt]
      refine takeWhile_eq_filter (hsorted.imp ?_)
      intro a b hab hb
      simp only [decide_eq_true_eq, not_lt] at hb ⊢
      exact hb.trans hab.le

variable (t) in
/-- **Ordered scans are exact.** A forward scan yields the entries between the bounds in ascending order of their keys,
and a reverse scan yields the same entries in descending order. -/
theorem range_exact (start stop : Option K) :
    range t start stop false = t.entries.filter (inRange start stop) ∧
      range t start stop true = (t.entries.filter (inRange start stop)).reverse ∧
      (t.entries.filter (inRange start stop)).Pairwise fun a b => a.1 < b.1 :=
  ⟨rangeForward_eq start stop, rangeReverse_eq start stop, t.sorted.sublist List.filter_sublist⟩

end Kv

end Bismuth
