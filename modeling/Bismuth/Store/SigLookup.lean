import Bismuth.Store.AddressRows

/-!
# Looking up the start of a signature

`rows_by_sig_prefix` scans the signature index, whose keys start with 56 bytes of a signature: what it finds is
in the order of these bytes first, and in the order of the blocks where they are the same.
-/

namespace Bismuth
open Py

variable {P : Prims} {mode : Mode}

/-- An indexable signature that starts with `p`. -/
def sigStarts (p : Text) (_ : Pos) (r : Row) : Bool := indexableSig r.signature && p.isPrefixOf r.signature

def sigKeyAt (e : Pos × Row) : Bytes := sigPrefix e.2.signature ++ posBytes e.1.1.toNat e.1.2

def sigScanned (p : Text) : Bytes := if (utf8 p).length ≤ 56 then utf8 p else sigPrefix p

theorem utf8_append (s t : Text) : utf8 (s ++ t) = utf8 s ++ utf8 t := List.flatMap_append

/-- Signatures with a common start of 56 bytes have keys that start alike. -/
theorem sigPrefix_append (h : 56 ≤ (utf8 p).length) (t : Text) : sigPrefix (p ++ t) = sigPrefix p := by
  rw [sigPrefix, utf8_append, List.take_append_of_le_length h, sigPrefix]

/-- The keys of the signatures that start with `p` are in the scan. -/
theorem sigScanned_isPrefix (h : p <+: s) (q : Bytes) : sigScanned p <+: sigPrefix s ++ q := by
  obtain ⟨t, rfl⟩ := h
  rw [sigScanned]
  split <;> rename_i hlen
  · have hutf8 : utf8 p <+: (utf8 (p ++ t)).take 56 :=
      List.prefix_take_iff.2 ⟨utf8_append p t ▸ List.prefix_append _ _, hlen⟩
    rw [sigPrefix, List.append_assoc]
    exact hutf8.trans (List.prefix_append _ _)
  · rw [sigPrefix_append (by omega)]
    exact List.prefix_append _ _

/-- The rows at the positions that satisfy `q`, when every row there can be typed. -/
theorem collectRows_filter {st : Store} {keep : TypedRow → Bool} {q : Row → Bool} {ps : List Pos} {rs : List Row}
    (h : List.Forall₂ (fun pos r => st.rowAt P mode pos = some <$> typedRow r) ps rs)
    (hq : ∀ r ∈ rs, ∃ t, typedRow r = .ok t ∧ keep t = q r) (limit : Nat) :
    st.collectRows P mode keep limit ps = (limited limit (rs.filter q)).mapM typedRow := by
  induction h generalizing limit with
  | nil => simp [Store.collectRows, limited]
  | @cons pos r ps rs hr _ ih =>
    obtain ⟨t, ht, hkeep⟩ := hq r (by simp)
    have ih := ih fun r hr => hq r (by simp [hr])
    rw [Store.collectRows, hr, ht]
    simp only [Except.map_ok, Except.ok_bind, hkeep]
    cases hqr : q r with
    | false => simp only [Bool.false_eq_true, if_false, List.filter_cons, hqr, ih]
    | true =>
      simp only [if_true, List.filter_cons, hqr]
      rcases limit with _ | _ | limit
      · simp [ih, limited, ht]
      · simp [limited, ht]
      · simp [ih, limited, ht]

namespace Shown
variable {st : Store} {blocks : List (Nat × List Row)}

theorem eq_of_pos (H : Shown P mode st blocks) {q : Pos → Row → Bool} (he : e ∈ blocks.flatMap (touched q))
    (he' : e' ∈ blocks.flatMap (touched q)) (h : e.1 = e'.1) : e = e' := by
  obtain ⟨b, hb, he⟩ := List.mem_flatMap.1 he
  obtain ⟨b', hb', he'⟩ := List.mem_flatMap.1 he'
  obtain ⟨hr, hn, -⟩ := mem_touched.1 he
  obtain ⟨hr', hn', -⟩ := mem_touched.1 he'
  have hnodup : (blocks.map Prod.fst).Nodup := (List.pairwise_map.2 H.sorted).imp fun h => h.ne
  rw [h] at hn hr
  obtain rfl : b = b' := List.inj_on_of_nodup_map hnodup hb hb' (by omega)
  rw [hr'] at hr
  exact Prod.ext h (Option.some.inj hr).symm

/-- The rows whose keys a scan meets, in the order of the keys. -/
theorem sigScan (H : Shown P mode st blocks) (pre : Bytes) : ∃ es : List (Pos × Row),
    st.sigScan pre = es.map Prod.fst ∧ (es.Pairwise fun e e' => sigKeyAt e < sigKeyAt e') ∧
      ∀ e, e ∈ es ↔ e ∈ blocks.flatMap (touched fun _ r => indexableSig r.signature) ∧ pre <+: sigKeyAt e := by
  have hkey : ∀ k, (k, ()) ∈ st.sig.entries ↔
      ∃ e ∈ blocks.flatMap (touched fun _ r => indexableSig r.signature), k = sigKeyAt e := by
    intro k
    rw [OrdTable.mem_entries, H.sig]
    constructor
    · rintro ⟨b, hb, i, r, hr, hind, rfl⟩
      refine ⟨(((b.1 : Int), i), r), List.mem_flatMap.2 ⟨b, hb, mem_touched.2 ⟨hr, rfl, hind⟩⟩, ?_⟩
      rw [sigKeyAt, Int.toNat_natCast]
    · rintro ⟨e, he, rfl⟩
      obtain ⟨b, hb, he⟩ := List.mem_flatMap.1 he
      obtain ⟨hr, hn, hind⟩ := mem_touched.1 he
      refine ⟨b, hb, e.1.2, e.2, hr, hind, ?_⟩
      rw [sigKeyAt, hn, Int.toNat_natCast]
  have hfits : ∀ e ∈ blocks.flatMap (touched fun _ r => indexableSig r.signature), splitPos (sigKeyAt e) = e.1 := by
    intro e he
    obtain ⟨b, hb, he⟩ := List.mem_flatMap.1 he
    obtain ⟨hr, hn, -⟩ := mem_touched.1 he
    rw [sigKeyAt, hn, Int.toNat_natCast, (H.fits b hb e.1.2 e.2 hr).splitPos, ← hn]
  have hchoice : ∀ k ∈ st.sig.entries.filter fun e => pre.isPrefixOf e.1,
      ∃ e ∈ blocks.flatMap (touched fun _ r => indexableSig r.signature), k.1 = sigKeyAt e := by
    rintro ⟨k, ⟨⟩⟩ hk
    exact (hkey k).1 (List.mem_filter.1 hk).1
  obtain ⟨es, hes⟩ := List.Forall₂.exists_of_forall hchoice
  refine ⟨es, ?_, ?_, fun e => ?_⟩
  · exact hes.map_eq fun {k e} h => by rw [h.2, hfits e h.1]
  · have hkeys := hes.map_eq (f := Prod.fst) (g := sigKeyAt) fun h => h.2
    rw [← List.pairwise_map, ← hkeys, List.pairwise_map]
    exact st.sig.sorted.filter _
  · constructor
    · intro he
      obtain ⟨k, hk, hmem, hke⟩ := hes.exists_left he
      exact ⟨hmem, hke ▸ List.isPrefixOf_iff_prefix.1 (List.mem_filter.1 hk).2⟩
    · rintro ⟨hmem, hpre⟩
      have hk := (hkey _).2 ⟨e, hmem, rfl⟩
      obtain ⟨e', he', hmem', hke⟩ := hes.exists_right (List.mem_filter.2 ⟨hk, List.isPrefixOf_iff_prefix.2 hpre⟩)
      have hpos := hfits e' hmem'
      rw [← hke, hfits e hmem] at hpos
      rwa [H.eq_of_pos hmem hmem' hpos]

end Shown

def sampleSigStore : Except Err Store := do
  let st ← commitBlock .toy .decimal {} 1 (hex [1]) [{ sampleRow 1 [1] 100 0 with signature := ['s', 'b'] }] none none
  commitBlock .toy .decimal st 2 (hex [2]) [{ sampleRow 2 [2] 200 0 with signature := ['s', 'a'] }] none none

theorem sampleSigStore_reached (h : sampleSigStore = .ok st) : st.Reached .toy .decimal fun _ => True := by
  obtain ⟨st₁, h₁, h₂⟩ := Except.bind_eq_ok.1 h
  exact .tail (.single (.commit trivial h₁)) (.commit trivial h₂)

end Bismuth
