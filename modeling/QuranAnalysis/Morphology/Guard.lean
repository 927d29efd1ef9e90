import QuranAnalysis.Seq.Fibers
import QuranAnalysis.Morphology.Aggregate

/-!
# What the guard sees

`validate` looks at sets of addresses, so it sees only which pairs `(sura, aya)` occur among the segments
(`validate_buildWords_iff`): neither how often a word is recorded nor which numbers the ayas carry.

- `oneRecord_iff_adjacent`: every word has one record exactly when its segments stand next to each other.
- `pinned_iff`: behind the guard, the ayas of every sura are `1..k` exactly when they are numbered from 1 on and the
  largest numbers add up to 6236.
-/

namespace QuranAnalysis

open Py

namespace Morphology

/-! ## The guard -/

/-- The address `(sura, aya)` of a segment. -/
def Segment.address (s : Segment) : Int × Int := (s.location.sura, s.location.aya)

/-- The addresses of the segments. -/
def addresses (segs : List Segment) : Finset (Int × Int) := (segs.map Segment.address).toFinset

theorem mem_addresses {segs : List Segment} {s a : Int} :
    (s, a) ∈ addresses segs ↔ ∃ seg ∈ segs, seg.location.sura = s ∧ seg.location.aya = a := by
  simp [addresses, Segment.address]

/-- The words and the segments have the same addresses. -/
theorem addresses_buildWords (segs : List Segment) :
    ((buildWords segs).map fun w => (w.sura, w.aya)).toFinset = addresses segs := by
  have hkeys : ((buildWords segs).map wordKey).toFinset = (segs.map Segment.key).toFinset := by
    ext k
    rw [List.mem_toFinset, List.mem_toFinset, mem_map_wordKey_iff]
  have h := congrArg (Finset.image fun k : Key => (k.1, k.2.1)) hkeys
  rw [← Seq.toFinset_map, ← Seq.toFinset_map, List.map_map, List.map_map] at h
  exact h

theorem suras_buildWords (segs : List Segment) :
    ((buildWords segs).map (·.sura)).toFinset = (addresses segs).image Prod.fst := by
  rw [← addresses_buildWords, ← Seq.toFinset_map, List.map_map]
  rfl

/-- **The guard sees the set of the addresses and nothing else.** -/
theorem validate_buildWords_iff {segs : List Segment} : validate (buildWords segs) = .ok () ↔
    (addresses segs).image Prod.fst = (oneTo 114).toFinset ∧ (addresses segs).card = 6236 := by
  simp only [validate, suras_buildWords, addresses_buildWords]
  by_cases h : (addresses segs).image Prod.fst = (oneTo 114).toFinset
  · by_cases h' : (addresses segs).card = 6236 <;> simp [h, h']
  · simp [h]

/-- A morphology is loaded from segments whose addresses pass the guard, and holds their words. -/
theorem loadMorphology_eq_ok_iff [Interpreter] {raw : Str} {m : Morphology} :
    loadMorphology raw = .ok m ↔ ∃ segs, readSegments raw = .ok segs ∧
      ((addresses segs).image Prod.fst = (oneTo 114).toFinset ∧ (addresses segs).card = 6236) ∧
        m = ⟨buildWords segs⟩ := by
  simp only [loadMorphology, bind_eq_ok_iff, ← validate_buildWords_iff]
  constructor
  · rintro ⟨segs, hs, ⟨⟩, hv, hm⟩
    exact ⟨segs, hs, hv, (Except.ok.inj hm).symm⟩
  · rintro ⟨segs, hs, hv, rfl⟩
    exact ⟨segs, hs, (), hv, rfl⟩

/-! ## One record per word -/

/-- Every location that occurs has one record, which sees all its segments, and the counts count locations. -/
structure OneRecord (segs : List Segment) : Prop where
  once : ∀ k ∈ segs.map Segment.key, ((buildWords segs).map wordKey).count k = 1
  whole : ∀ k ∈ segs.map Segment.key,
    word ⟨buildWords segs⟩ k.1 k.2.1 k.2.2 = .ok (aggregate k (segs.filter fun s => s.key = k))
  roots : ∀ x, strip x ≠ [] → countByRoot ⟨buildWords segs⟩ x =
    (((buildWords segs).filter fun w => w.root = some x).map wordKey).dedup.length
  lemmas : ∀ x, strip x ≠ [] → countByLemma ⟨buildWords segs⟩ x =
    (((buildWords segs).filter fun w => w.lem = some x).map wordKey).dedup.length

/-- If no location has two records, its segments stand next to each other. -/
theorem adjacent_of_count {segs : List Segment}
    (h : ∀ k ∈ segs.map Segment.key, ((buildWords segs).map wordKey).count k = 1) :
    Seq.Adjacent (segs.map Segment.key) := by
  have hr := Seq.runs_isRuns Segment.key segs
  rw [← hr.nodup_iff_adjacent, ← map_wordKey_buildWords hr, List.nodup_iff_count_le_one]
  intro k
  by_cases hk : k ∈ (buildWords segs).map wordKey
  · exact (h k (mem_map_wordKey_iff.mp hk)).le
  · rw [List.count_eq_zero.mpr hk]
    omega

/-- The counts of a column count locations, if none has two records. -/
theorem countByColumn_eq_dedup {ws : List MorphologyWord} (hn : (ws.map wordKey).Nodup)
    (column : MorphologyWord → Option Str) {x : Str} (hx : strip x ≠ []) :
    countByColumn column ⟨ws⟩ x = ((ws.filter fun w => column w = some x).map wordKey).dedup.length := by
  have hd : ((ws.filter fun w => column w = some x).map wordKey).Nodup :=
    hn.sublist ((List.filter_sublist (p := fun w => decide (column w = some x))).map _)
  rw [countByColumn, if_neg hx, hd.dedup, List.length_map, List.countP_eq_length_filter]

/-- **Every word has one record exactly when its segments stand next to each other.** -/
theorem oneRecord_iff_adjacent (segs : List Segment) :
    OneRecord segs ↔ Seq.Adjacent (segs.map Segment.key) := by
  refine ⟨fun h => adjacent_of_count h.once, fun h => ?_⟩
  have hr := Seq.runs_isRuns Segment.key segs
  have hn := hr.nodup_iff_adjacent.mpr h
  have hn' : ((buildWords segs).map wordKey).Nodup := by rwa [map_wordKey_buildWords hr]
  refine ⟨fun k hk => ?_, fun k hk => ?_, fun x hx => ?_, fun x hx => ?_⟩
  · exact List.count_eq_one_of_mem hn' (mem_map_wordKey_iff.mpr hk)
  · rw [hr.mem_keys_iff.symm] at hk
    obtain ⟨⟨k, r⟩, hq, rfl⟩ := List.mem_map.mp hk
    have hmem : aggregate k r ∈ buildWords segs := by
      rw [buildWords_of_isRuns hr]
      exact List.mem_map.mpr ⟨_, hq, rfl⟩
    have hfind : (buildWords segs).find? (fun w => w.sura = k.1 ∧ w.aya = k.2.1 ∧ w.word = k.2.2) =
        some (aggregate k r) := by
      refine Seq.find?_eq_some_of_nodup hn' hmem fun w => ?_
      simp [wordKey, aggregate, wordOf, Prod.ext_iff]
    rw [word, hfind, hr.filter_key_eq hn hq]
  · exact countByColumn_eq_dedup hn' _ hx
  · exact countByColumn_eq_dedup hn' _ hx

/-! ## Segments at given addresses -/

/-- One word of one segment at each address. -/
def segmentsAt (l : List (Int × Int)) : List Segment :=
  l.map fun p => ⟨⟨p.1, p.2, 1, 1⟩, "qAl".toList, "STEM|POS:V|LEM:qaAla|ROOT:qwl".toList⟩

/-- The ayas `first` in sura 1, and one aya in each other sura. -/
def firstSuraAddresses (first : List Int) : List (Int × Int) :=
  first.map (fun a => (1, a)) ++ (List.range 113).map fun (i : Nat) => ((i : Int) + 2, 1)

theorem addresses_segmentsAt (l : List (Int × Int)) : addresses (segmentsAt l) = l.toFinset := by
  rw [addresses, segmentsAt, List.map_map]
  congr 1
  exact List.map_id l

/-- 6123 different ayas in sura 1 and one in each other sura have 114 suras and 6236 addresses. -/
theorem guard_firstSura {first : List Int} (hn : first.Nodup) (hl : first.length = 6123) :
    (firstSuraAddresses first).toFinset.image Prod.fst = (oneTo 114).toFinset ∧
      (firstSuraAddresses first).toFinset.card = 6236 := by
  constructor
  · ext s
    simp only [firstSuraAddresses, Finset.mem_image, List.mem_toFinset, List.mem_append, List.mem_map, List.mem_range,
      mem_oneTo]
    constructor
    · rintro ⟨p, ⟨a, _, rfl⟩ | ⟨i, hi, rfl⟩, rfl⟩ <;> simp only <;> omega
    · rintro ⟨h1, h2⟩
      by_cases h : s = 1
      · obtain ⟨a, ha⟩ := List.exists_mem_of_length_pos (l := first) (by omega)
        exact ⟨(1, a), Or.inl ⟨a, ha, rfl⟩, h.symm⟩
      · exact ⟨(s, 1), Or.inr ⟨s.toNat - 2, by omega, by rw [Prod.mk.injEq]; omega⟩, rfl⟩
  · have hnd : (firstSuraAddresses first).Nodup := by
      rw [firstSuraAddresses, List.nodup_append]
      refine ⟨hn.map fun a b h => (Prod.mk.inj h).2, List.nodup_range.map fun i j h => ?_, ?_⟩
      · have := (Prod.mk.inj h).1
        omega
      · rintro p hp q hq rfl
        obtain ⟨a, _, rfl⟩ := List.mem_map.mp hp
        obtain ⟨i, _, h⟩ := List.mem_map.mp hq
        have := (Prod.mk.inj h).1
        omega
    rw [List.toFinset_card_of_nodup hnd, firstSuraAddresses]
    simp [hl]

/-- One word in each aya of `firstSuraAddresses` passes the guard. -/
theorem validate_firstSura {first : List Int} (hn : first.Nodup) (hl : first.length = 6123) :
    validate (buildWords (segmentsAt (firstSuraAddresses first))) = .ok () := by
  rw [validate_buildWords_iff, addresses_segmentsAt]
  exact guard_firstSura hn hl

/-- A word of sura 1 that is read twice: its second segment stands at the end of the file. -/
def splitSegments : List Segment :=
  segmentsAt (firstSuraAddresses (oneTo 6123)) ++ [⟨⟨1, 1, 1, 2⟩, "hu".toList, "SUFFIX|PRON:3MS".toList⟩]

/-- The guard accepts a word that is recorded twice. -/
theorem splitSegments_accepted : validate (buildWords splitSegments) = .ok () ∧
    ¬ ∀ k ∈ splitSegments.map Segment.key, ((buildWords splitSegments).map wordKey).count k = 1 := by
  constructor
  · have haddr : addresses splitSegments = (firstSuraAddresses (oneTo 6123)).toFinset := by
      have hmem : ((1, 1) : Int × Int) ∈ firstSuraAddresses (oneTo 6123) :=
        List.mem_append_left _ (List.mem_map.mpr ⟨1, mem_oneTo.mpr (by omega), rfl⟩)
      rw [addresses, splitSegments, List.map_append, List.toFinset_append, ← addresses, addresses_segmentsAt]
      simpa [Segment.address] using hmem
    rw [validate_buildWords_iff, haddr]
    exact guard_firstSura (nodup_oneTo _) (length_oneTo _)
  · intro h
    have hadj := adjacent_of_count h
    -- the key of the word, the key of the next aya, and the key of the word again
    have hsub : [((1, 1, 1) : Key), (1, 2, 1), (1, 1, 1)].Sublist (splitSegments.map Segment.key) := by
      have h2 : (oneTo 2).Sublist (oneTo 6123) := oneTo_sublist (by omega)
      have hfirst := (h2.map fun a => ((1, a) : Int × Int)).trans (List.sublist_append_left _
        ((List.range 113).map fun (i : Nat) => ((i : Int) + 2, (1 : Int))))
      rw [splitSegments, List.map_append, segmentsAt, List.map_map]
      exact (hfirst.map fun p => ((p.1, p.2, 1) : Key)).append (List.Sublist.refl _)
    have := hadj _ _ hsub
    simp at this

/-! ## Numbering -/

/-- The aya numbers of every sura are `1..k` for some `k ≥ 1`. -/
def Pinned (segs : List Segment) : Prop :=
  ∀ s, 1 ≤ s → s ≤ 114 → ∃ k : Nat, 1 ≤ k ∧
    ∀ a, (∃ seg ∈ segs, seg.location.sura = s ∧ seg.location.aya = a) ↔ 1 ≤ a ∧ a ≤ k

/-- The largest aya number of a sura. -/
def largestAya (segs : List Segment) (s : Int) : Nat :=
  ((segs.filter fun seg => seg.location.sura = s).map (·.location.aya.toNat)).foldr max 0

theorem largestAya_le_iff {segs : List Segment} {s : Int} {k : Nat} :
    largestAya segs s ≤ k ↔ ∀ a, (s, a) ∈ addresses segs → a ≤ k := by
  rw [largestAya, Seq.foldr_max_le_iff]
  constructor
  · intro h a ha
    obtain ⟨seg, hseg, rfl, rfl⟩ := mem_addresses.mp ha
    have := h _ (List.mem_map_of_mem (List.mem_filter.mpr ⟨hseg, by simp⟩))
    omega
  · intro h n hn
    obtain ⟨seg, hseg, rfl⟩ := List.mem_map.mp hn
    obtain ⟨hseg, hs⟩ := List.mem_filter.mp hseg
    have := h seg.location.aya (mem_addresses.mpr ⟨seg, hseg, by simpa using hs, rfl⟩)
    omega

/-- Behind the guard, a sura number occurs exactly in `1..114`. -/
theorem exists_address_iff {segs : List Segment} (h : (addresses segs).image Prod.fst = (oneTo 114).toFinset)
    {s : Int} : (∃ a, (s, a) ∈ addresses segs) ↔ 1 ≤ s ∧ s ≤ 114 := by
  have hs : s ∈ (addresses segs).image Prod.fst ↔ s ∈ (oneTo 114).toFinset := by rw [h]
  rw [List.mem_toFinset, mem_oneTo] at hs
  simpa using hs

/-- The ayas of the suras are `1..k` exactly when the fibres of the addresses are `1..k`. -/
theorem pinned_iff_fiber {segs : List Segment} (h : (addresses segs).image Prod.fst = (oneTo 114).toFinset) :
    Pinned segs ↔ ∀ s ∈ (oneTo 114).toFinset,
      Seq.fiber (addresses segs) s = Finset.Icc 1 (largestAya segs s : ℤ) := by
  simp only [Pinned, List.mem_toFinset, mem_oneTo]
  refine forall_congr' fun s => ⟨fun hk ⟨h1, h2⟩ => ?_, fun hf h1 h2 => ⟨largestAya segs s, ?_, fun a => ?_⟩⟩
  · obtain ⟨k, hk1, hk⟩ := hk h1 (by omega)
    have hmem : ∀ a, (s, a) ∈ addresses segs ↔ 1 ≤ a ∧ a ≤ k := fun a => mem_addresses.trans (hk a)
    -- the largest number is the bound
    have hl : largestAya segs s = k := by
      refine le_antisymm (largestAya_le_iff.mpr fun a ha => ((hmem a).mp ha).2) ?_
      have := largestAya_le_iff.mp le_rfl k ((hmem k).mpr (by omega))
      omega
    ext a
    rw [Seq.mem_fiber, Finset.mem_Icc, hl, hmem]
  · obtain ⟨a, ha⟩ := (exists_address_iff h).mpr ⟨h1, h2⟩
    rw [← Seq.mem_fiber, hf ⟨h1, by omega⟩, Finset.mem_Icc] at ha
    omega
  · rw [← mem_addresses, ← Seq.mem_fiber, hf ⟨h1, by omega⟩, Finset.mem_Icc]

/-- **Behind the guard, the ayas of every sura are `1..k` exactly when no aya is numbered below 1 and the largest aya
numbers add up to the number of ayas.** -/
theorem pinned_iff {segs : List Segment} (h : validate (buildWords segs) = .ok ()) : Pinned segs ↔
    (∀ seg ∈ segs, 1 ≤ seg.location.aya) ∧ ((oneTo 114).map (largestAya segs)).sum = 6236 := by
  obtain ⟨hs, hcard⟩ := validate_buildWords_iff.mp h
  have hfst : ∀ p ∈ addresses segs, p.1 ∈ (oneTo 114).toFinset := fun p hp => by
    rw [← hs]
    exact Finset.mem_image_of_mem _ hp
  have hsum : (∀ seg ∈ segs, 1 ≤ seg.location.aya) →
      (Pinned segs ↔ ((oneTo 114).map (largestAya segs)).sum = 6236) := by
    intro h1
    have hm : ∀ s ∈ (oneTo 114).toFinset,
        Seq.fiber (addresses segs) s ⊆ Finset.Icc 1 (largestAya segs s : ℤ) := by
      intro s _ a ha
      rw [Seq.mem_fiber] at ha
      obtain ⟨seg, hseg, rfl, rfl⟩ := mem_addresses.mp ha
      exact Finset.mem_Icc.mpr ⟨h1 seg hseg, largestAya_le_iff.mp le_rfl _ ha⟩
    rw [pinned_iff_fiber hs, Seq.forall_fiber_eq_Icc_iff hfst hm, hcard,
      List.sum_toFinset _ (nodup_oneTo 114)]
  refine ⟨fun hp => ?_, fun ⟨h1, h2⟩ => (hsum h1).mpr h2⟩
  have h1 : ∀ seg ∈ segs, 1 ≤ seg.location.aya := by
    intro seg hseg
    obtain ⟨hs1, hs2⟩ := (exists_address_iff hs).mp ⟨_, mem_addresses.mpr ⟨seg, hseg, rfl, rfl⟩⟩
    obtain ⟨k, -, hk⟩ := hp _ hs1 hs2
    exact ((hk _).mp ⟨seg, hseg, rfl, rfl⟩).1
  exact ⟨h1, (hsum h1).mp hp⟩

/-- The characterization at ayas `1..6123` of sura 1. -/
theorem pinned_iff_oneTo : Pinned (segmentsAt (firstSuraAddresses (oneTo 6123))) ↔
    (∀ seg ∈ segmentsAt (firstSuraAddresses (oneTo 6123)), 1 ≤ seg.location.aya) ∧
      ((oneTo 114).map (largestAya (segmentsAt (firstSuraAddresses (oneTo 6123))))).sum = 6236 :=
  pinned_iff (validate_firstSura (nodup_oneTo _) (length_oneTo _))

/-- The first sura starts with aya 2. -/
def gapSegments : List Segment := segmentsAt (firstSuraAddresses ((oneTo 6123).map (· + 1)))

/-- The guard accepts a sura without aya 1. -/
theorem gapSegments_accepted : validate (buildWords gapSegments) = .ok () ∧ ¬ Pinned gapSegments := by
  constructor
  · exact validate_firstSura ((nodup_oneTo _).map fun a b h => by omega) (by simp)
  · intro h
    obtain ⟨k, hk1, hk⟩ := h 1 (by omega) (by omega)
    have hmem : ((1, 1) : Int × Int) ∈ addresses gapSegments := mem_addresses.mpr ((hk 1).mpr (by omega))
    rw [gapSegments, addresses_segmentsAt, List.mem_toFinset, firstSuraAddresses, List.mem_append, List.map_map] at hmem
    rcases hmem with hm | hm
    · obtain ⟨a, ha, he⟩ := List.mem_map.mp hm
      have h1 := (mem_oneTo.mp ha).1
      have h2 := (Prod.mk.inj he).2
      simp only at h2
      omega
    · obtain ⟨i, _, he⟩ := List.mem_map.mp hm
      have := (Prod.mk.inj he).1
      omega

end Morphology

end QuranAnalysis
