import LightKV.IntervalsProofs
import LightKV.KvSpatialProofs

/-! # Merging ranges

    `MergeRanges` sorts its ranges by their starts and joins those that overlap or
    touch, in one pass.  What it returns has the codes of what it was given and is
    in a normal form: in order, with a code between any two ranges.  Ranges in that
    form are determined by their codes, so that the order in which the sort leaves
    ranges of one start does not matter, and merging again changes nothing
    (`mergeRanges_normalises`). -/

namespace KvMergeRanges

open Intervals KvSpatial

/-! ## Ranges as intervals -/

/-- The codes of a range, as numbers. -/
def span (r : MortonRange) : Span Nat :=
  ⟨r.startCode.toNat, max r.startCode.toNat r.endCode.toNat, le_max_left _ _⟩

/-- The range of some codes. -/
def ofSpan (s : Span Nat) : MortonRange :=
  ⟨UInt64.ofNat s.first, UInt64.ofNat s.last⟩

theorem last_span {r : MortonRange} (h : r.Bounded) : (span r).last = r.endCode.toNat :=
  max_eq_right (UInt64.le_iff_toNat_le.mp h.le)

theorem ofSpan_span {r : MortonRange} (h : r.Bounded) :
    ofSpan (span r) = r := by
  rw [ofSpan, last_span h, span, UInt64.ofNat_toNat, UInt64.ofNat_toNat]

theorem covers_span_iff {ranges : List MortonRange} (h : ∀ r ∈ ranges, r.Bounded) (c : Nat) :
    Covers (ranges.map span) c ↔ c < 2 ^ 64 ∧ Covered ranges (UInt64.ofNat c) := by
  have hword {d : Nat} (hd : d < 2 ^ 64) : (UInt64.ofNat d).toNat = d :=
    UInt64.toNat_ofNat_of_lt' hd
  constructor
  · rintro ⟨s, hs, hfirst, hlast⟩
    obtain ⟨r, hr, rfl⟩ := List.mem_map.mp hs
    rw [last_span (h r hr)] at hlast
    have hc : c < 2 ^ 64 := hlast.trans_lt r.endCode.toNat_lt
    refine ⟨hc, r, hr, ?_, ?_⟩
    · rw [UInt64.le_iff_toNat_le, hword hc]
      exact hfirst
    · rw [UInt64.le_iff_toNat_le, hword hc]
      exact hlast
  · rintro ⟨hc, r, hr, hfirst, hlast⟩
    rw [UInt64.le_iff_toNat_le, hword hc] at hfirst hlast
    refine ⟨span r, List.mem_map_of_mem hr, hfirst, ?_⟩
    rwa [last_span (h r hr)]

theorem apart_span {ranges : List MortonRange} (h : ∀ r ∈ ranges, r.Bounded)
    (hgap : ranges.Pairwise Gap) : (ranges.map span).Pairwise Apart := by
  rw [List.pairwise_map]
  refine hgap.imp_of_mem ?_
  intro a b ha _ hab
  refine ⟨a.endCode.toNat + 1, ?_, hab⟩
  rw [last_span (h a ha)]
  exact Nat.lt_succ_self _

/-- **Ranges in order and apart** are determined by their codes. -/
theorem eq_of_covered_iff {as bs : List MortonRange} (has : ∀ r ∈ as, r.Bounded)
    (hbs : ∀ r ∈ bs, r.Bounded) (hgapa : as.Pairwise Gap) (hgapb : bs.Pairwise Gap)
    (h : ∀ code, Covered as code ↔ Covered bs code) : as = bs := by
  have hspans : as.map span = bs.map span := by
    refine eq_of_covers_iff (apart_span has hgapa) (apart_span hbs hgapb) ?_
    intro c
    rw [covers_span_iff has, covers_span_iff hbs, h]
  have hback {ranges : List MortonRange} (hr : ∀ r ∈ ranges, r.Bounded) :
      (ranges.map span).map ofSpan = ranges := by
    rw [List.map_map]
    exact (List.map_congr_left (fun r hmem => ofSpan_span (hr r hmem))).trans (List.map_id _)
  rw [← hback has, hspans, hback hbs]

/-- **Merging normalises**: the ranges keep their codes and no others, come out in
    order, none turned around, with a code between any two, and merge to themselves.
    The sort may leave ranges of one start in any order. -/
theorem mergeRanges_normalises {raw : List MortonRange}
    (h : ∀ r ∈ raw, r.startCode ≤ r.endCode ∧ r.endCode.toNat < 2 ^ 64 - 1) :
    (∀ code, (∃ m ∈ mergeRanges raw, m.startCode ≤ code ∧ code ≤ m.endCode)
        ↔ ∃ r ∈ raw, r.startCode ≤ code ∧ code ≤ r.endCode)
      ∧ (∀ m ∈ mergeRanges raw, m.startCode ≤ m.endCode)
      ∧ (mergeRanges raw).Pairwise (fun a b => a.startCode ≤ b.startCode)
      ∧ (mergeRanges raw).Pairwise (fun a b => a.endCode.toNat + 1 < b.startCode.toNat)
      ∧ mergeRanges (mergeRanges raw) = mergeRanges raw
      ∧ ∀ sorted : List MortonRange, sorted.Perm raw →
          sorted.Pairwise (fun a b => a.startCode ≤ b.startCode) →
          mergeSorted sorted = mergeRanges raw := by
  have hbounded : ∀ r ∈ raw, r.Bounded := fun r hr => ⟨(h r hr).1, (h r hr).2⟩
  obtain ⟨hcover, hresult, hgap⟩ := mergeRanges_spec hbounded
  refine ⟨hcover, fun m hm => (hresult m hm).le, ?_, hgap, ?_, ?_⟩
  · refine hgap.imp_of_mem ?_
    intro a b ha _ hab
    have hle := UInt64.le_iff_toNat_le.mp (hresult a ha).le
    rw [Gap] at hab
    rw [UInt64.le_iff_toNat_le]
    omega
  · obtain ⟨hagain, hresult', hgap'⟩ := mergeRanges_spec hresult
    exact eq_of_covered_iff hresult' hresult hgap' hgap hagain
  · intro sorted hperm hsorted
    obtain ⟨hcover', hresult', hgap'⟩ :=
      mergeSorted_spec (fun r hr => hbounded r (hperm.mem_iff.mp hr)) hsorted
    refine eq_of_covered_iff hresult' hresult hgap' hgap ?_
    intro code
    rw [hcover', hcover]
    simp only [Covered, hperm.mem_iff]

/-- A range inside another, and one right behind it. -/
theorem mergeRanges_normalises_three :
    (∀ code, (∃ m ∈ mergeRanges [⟨10, 12⟩, ⟨3, 9⟩, ⟨4, 5⟩], m.startCode ≤ code ∧ code ≤ m.endCode)
        ↔ ∃ r ∈ [(⟨10, 12⟩ : MortonRange), ⟨3, 9⟩, ⟨4, 5⟩], r.startCode ≤ code ∧ code ≤ r.endCode)
      ∧ (∀ m ∈ mergeRanges [⟨10, 12⟩, ⟨3, 9⟩, ⟨4, 5⟩], m.startCode ≤ m.endCode)
      ∧ (mergeRanges [⟨10, 12⟩, ⟨3, 9⟩, ⟨4, 5⟩]).Pairwise (fun a b => a.startCode ≤ b.startCode)
      ∧ (mergeRanges [⟨10, 12⟩, ⟨3, 9⟩, ⟨4, 5⟩]).Pairwise
          (fun a b => a.endCode.toNat + 1 < b.startCode.toNat)
      ∧ mergeRanges (mergeRanges [⟨10, 12⟩, ⟨3, 9⟩, ⟨4, 5⟩])
          = mergeRanges [⟨10, 12⟩, ⟨3, 9⟩, ⟨4, 5⟩]
      ∧ ∀ sorted : List MortonRange, sorted.Perm [⟨10, 12⟩, ⟨3, 9⟩, ⟨4, 5⟩] →
          sorted.Pairwise (fun a b => a.startCode ≤ b.startCode) →
          mergeSorted sorted = mergeRanges [⟨10, 12⟩, ⟨3, 9⟩, ⟨4, 5⟩] :=
  mergeRanges_normalises (by decide)

end KvMergeRanges
