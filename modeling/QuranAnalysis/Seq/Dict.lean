import Mathlib.Algebra.BigOperators.Group.List.Basic
import Mathlib.Algebra.Order.Ring.Nat
import Mathlib.Data.List.Induction
import Mathlib.Data.List.Perm.Basic
import Mathlib.Data.List.Nodup
import Mathlib.Data.List.Perm.Lattice

/-!
# Insertion-ordered dictionaries

An insertion-ordered dictionary is the list of its entries; a new key goes to the end, a known key keeps its place.

- `Dict.set` and `List.lookup` satisfy the usual laws (`lookup_set_self`, `lookup_set_of_ne`, `keys_set`); without
  duplicate keys, lookups find the entries (`lookup_eq_some_iff_mem`), in whatever order (`lookup_of_perm`).
- `group key l` distributes `l` over its keys: the keys are listed in the order of their first appearance
  (`group_order`) and each key holds its elements in the order of `l` (`lookup_group`).
- `tally l` counts occurrences: each element is listed once, in the order of first appearance (`keys_tally`,
  `pairwise_eraseDups`), and holds its number of occurrences (`lookup_tally`, `sum_tally`).
- Where keys repeat, there is a first element with a key that is known (`exists_first_duplicate`).
- Listing the elements key by key permutes the list (`perm_flatMap_filter`).
- A list of blocks of one key each is distributed over its blocks (`AreBlocks.filter_eq`, `AreBlocks.eraseDups_eq`).
-/

namespace Seq

open List

variable {α κ ν : Type*} [DecidableEq κ]

/-- A dictionary as the list of its entries in insertion order. -/
abbrev Dict (κ ν : Type*) := List (κ × ν)

namespace Dict

/-- `d[k] = v`: a known key keeps its place, a new one goes to the end. -/
def set : Dict κ ν → κ → ν → Dict κ ν
  | [], k, v => [(k, v)]
  | (k', v') :: d, k, v => if k' = k then (k', v) :: d else (k', v') :: set d k v

/-- The keys in insertion order. -/
def keys (d : Dict κ ν) : List κ := d.map Prod.fst

@[simp] theorem lookup_set_self [BEq κ] [LawfulBEq κ] (d : Dict κ ν) (k : κ) (v : ν) :
    (d.set k v).lookup k = some v := by
  induction d with
  | nil => simp [set]
  | cons e d ih =>
    obtain ⟨k', v'⟩ := e
    rw [set]
    split
    · next h => simp [h]
    · next h =>
      have hk : (k == k') = false := beq_eq_false_iff_ne.2 fun e => h e.symm
      rw [lookup_cons, hk]
      exact ih

theorem lookup_set_of_ne [BEq κ] [LawfulBEq κ] (d : Dict κ ν) {k j : κ} (hj : j ≠ k) (v : ν) :
    (d.set k v).lookup j = d.lookup j := by
  induction d with
  | nil => simp [set, hj]
  | cons e d ih =>
    obtain ⟨k', v'⟩ := e
    rw [set]
    split
    · next h =>
      have hk : (j == k') = false := beq_eq_false_iff_ne.2 (h ▸ hj)
      simp [lookup_cons, hk]
    · next h => rw [lookup_cons, lookup_cons, ih]

/-- A new key goes to the end. -/
theorem set_of_notMem {d : Dict κ ν} {k : κ} (h : k ∉ d.keys) (v : ν) : d.set k v = d ++ [(k, v)] := by
  induction d with
  | nil => rfl
  | cons e d ih =>
    obtain ⟨k', v'⟩ := e
    simp only [keys, map_cons, mem_cons, not_or] at h
    rw [set, if_neg fun e => h.1 e.symm, ih h.2, cons_append]

omit [DecidableEq κ] in
/-- A lookup succeeds on the keys. -/
theorem lookup_isSome [BEq κ] [LawfulBEq κ] {d : Dict κ ν} {k : κ} : (d.lookup k).isSome ↔ k ∈ d.keys := by
  simp only [lookup_isSome_iff, beq_iff_eq, keys, mem_map]
  exact exists_congr fun p => and_congr_right fun _ => eq_comm

/-- Setting a key adds it at the end, unless it is known. -/
theorem keys_set (d : Dict κ ν) (k : κ) (v : ν) : (d.set k v).keys = if k ∈ d.keys then d.keys else d.keys ++ [k] := by
  induction d with
  | nil => simp [set, keys]
  | cons e d ih =>
    obtain ⟨k', v'⟩ := e
    rw [set]
    split
    · next h => simp [keys, h]
    · next h =>
      have hk : k ≠ k' := fun e => h e.symm
      simp only [keys, map_cons, mem_cons, hk, false_or] at ih ⊢
      rw [ih]
      split <;> simp [*]

omit [DecidableEq κ] in
/-- What a lookup finds is an entry. -/
theorem mem_of_lookup [BEq κ] [LawfulBEq κ] {d : Dict κ ν} {k : κ} {v : ν} (h : d.lookup k = some v) : (k, v) ∈ d := by
  obtain ⟨l₁, l₂, rfl, -⟩ := lookup_eq_some_iff.mp h
  simp

omit [DecidableEq κ] in
/-- Without duplicate keys, lookups find exactly the entries. -/
theorem lookup_eq_some_iff_mem [BEq κ] [LawfulBEq κ] {d : Dict κ ν} (hd : d.keys.Nodup) {k : κ} {v : ν} :
    d.lookup k = some v ↔ (k, v) ∈ d := by
  refine ⟨mem_of_lookup, fun h => ?_⟩
  obtain ⟨l₁, l₂, rfl⟩ := append_of_mem h
  rw [keys, map_append, map_cons, nodup_append] at hd
  have hk : ∀ p ∈ l₁, k ≠ p.1 := fun p hp he => hd.2.2 p.1 (mem_map_of_mem hp) k (by simp) he.symm
  exact lookup_eq_some_iff.mpr ⟨l₁, l₂, rfl, fun p hp => by simpa using hk p hp⟩

omit [DecidableEq κ] in
/-- The order of the entries does not matter to lookups, without duplicate keys. -/
theorem lookup_of_perm [BEq κ] [LawfulBEq κ] {d e : Dict κ ν} (h : d ~ e) (hd : d.keys.Nodup) (k : κ) :
    d.lookup k = e.lookup k := by
  have he : e.keys.Nodup := (h.map Prod.fst).nodup_iff.mp hd
  apply Option.ext
  intro v
  rw [lookup_eq_some_iff_mem hd, lookup_eq_some_iff_mem he, h.mem_iff]

end Dict

omit [DecidableEq κ] in
/-- **Where keys repeat, there is a first element whose key is known.** -/
theorem exists_first_duplicate (key : α → κ) : ∀ {known l : List α}, (known.map key).Nodup →
    ¬ ((known ++ l).map key).Nodup → ∃ before a after, l = before ++ a :: after ∧
      ((known ++ before).map key).Nodup ∧ key a ∈ (known ++ before).map key
  | known, [], hknown, h => absurd (by simpa using hknown) h
  | known, a :: l, hknown, h => by
    by_cases ha : key a ∈ known.map key
    · exact ⟨[], a, l, rfl, by simpa using hknown, by simpa using ha⟩
    · have hknown' : ((known ++ [a]).map key).Nodup := by
        rw [map_append, map_singleton]
        exact hknown.append (nodup_singleton _) (by simpa using ha)
      rw [append_cons] at h
      obtain ⟨before, b, after, rfl, hn, hb⟩ := exists_first_duplicate key hknown' h
      rw [append_assoc, singleton_append] at hn hb
      exact ⟨a :: before, b, after, rfl, hn, hb⟩

/-! ## First appearances -/

theorem eraseDups_concat (ks : List κ) (k : κ) :
    (ks ++ [k]).eraseDups = if k ∈ ks then ks.eraseDups else ks.eraseDups ++ [k] := by
  rw [eraseDups_append]
  split
  · next h => simp [removeAll, h]
  · next h => simp [removeAll, h, eraseDups_cons]

theorem nodup_eraseDups (ks : List κ) : ks.eraseDups.Nodup := by
  induction ks using List.reverseRecOn with
  | nil => simp
  | append_singleton ks k ih =>
    rw [eraseDups_concat]
    split
    · exact ih
    · next h =>
      rw [← concat_eq_append, nodup_concat]
      exact ⟨by rwa [mem_eraseDups], ih⟩

/-- What is left stands in the order of first appearance. -/
theorem pairwise_eraseDups (ks : List κ) : ks.eraseDups.Pairwise fun j k => ks.idxOf j < ks.idxOf k := by
  induction ks using List.reverseRecOn with
  | nil => simp
  | append_singleton ks k ih =>
    have hkeep : ks.eraseDups.Pairwise fun i j => (ks ++ [k]).idxOf i < (ks ++ [k]).idxOf j := by
      refine ih.imp_of_mem fun {i j} hi hj hij => ?_
      rwa [idxOf_append, idxOf_append, if_pos (mem_eraseDups.mp hi), if_pos (mem_eraseDups.mp hj)]
    rw [eraseDups_concat]
    split
    · exact hkeep
    · next hk =>
      rw [pairwise_append]
      refine ⟨hkeep, by simp, fun i hi j hj => ?_⟩
      obtain rfl := mem_singleton.mp hj
      have hi := mem_eraseDups.mp hi
      rw [idxOf_append, idxOf_append, if_pos hi, if_neg hk]
      have := idxOf_lt_length_of_mem hi
      omega

/-- Listing the elements key by key permutes the list. -/
theorem perm_flatMap_filter (key : α → κ) (l : List α) {ks : List κ} (hn : ks.Nodup) (hk : ∀ a ∈ l, key a ∈ ks) :
    ks.flatMap (fun k => l.filter (fun a => key a = k)) ~ l := by
  induction ks generalizing l with
  | nil =>
    obtain rfl : l = [] := eq_nil_iff_forall_not_mem.mpr fun a ha => by simpa using hk a ha
    simp
  | cons k ks ih =>
    rw [nodup_cons] at hn
    have hrest : ks.flatMap (fun j => l.filter (fun a => key a = j)) =
        ks.flatMap (fun j => (l.filter (fun a => ¬ key a = k)).filter (fun a => key a = j)) := by
      refine flatMap_congr fun j hj => ?_
      have hjk : j ≠ k := fun e => hn.1 (e ▸ hj)
      rw [filter_filter]
      refine filter_congr fun a _ => ?_
      by_cases h : key a = j <;> simp [h, hjk]
    rw [flatMap_cons, hrest]
    have hsplit : l.filter (fun a => key a = k) ++ l.filter (fun a => ¬ key a = k) ~ l := by
      simpa only [decide_not] using filter_append_perm (fun a => decide (key a = k)) l
    refine (Perm.append_left _ (ih _ hn.2 ?_)).trans hsplit
    intro a ha
    rw [mem_filter] at ha
    simpa [show key a ≠ k by simpa using ha.2] using hk a ha.1

/-! ## Grouping -/

/-- One step of grouping: open a group for a new key and note the key, then append to the group. -/
def groupStep (key : α → κ) (st : Dict κ (List α) × List κ) (a : α) : Dict κ (List α) × List κ :=
  let st := if (st.1.lookup (key a)).isSome then st else (st.1.set (key a) [], st.2 ++ [key a])
  (st.1.set (key a) (((st.1.lookup (key a)).getD []) ++ [a]), st.2)

/-- The groups of `l` by key, and the keys in the order of first appearance. -/
def group (key : α → κ) (l : List α) : Dict κ (List α) × List κ := l.foldl (groupStep key) ([], [])

theorem group_concat (key : α → κ) (l : List α) (a : α) : group key (l ++ [a]) = groupStep key (group key l) a := by
  simp [group]

/-- After grouping a key holds its elements, in order, and other keys are absent. -/
theorem lookup_group (key : α → κ) (l : List α) (k : κ) :
    (group key l).1.lookup k = if k ∈ l.map key then some (l.filter (fun a => key a = k)) else none := by
  induction l using List.reverseRecOn with
  | nil => rfl
  | append_singleton l a ih =>
    rw [group_concat, groupStep]
    by_cases ha : key a ∈ l.map key
    · by_cases hk : k = key a
      · subst hk
        simp only [ha, if_true] at ih
        simp [ih, filter_append]
      · have hk' : key a ≠ k := fun e => hk e.symm
        split <;> simp [Dict.lookup_set_of_ne _ hk, ih, filter_append, hk, hk']
    · by_cases hk : k = key a
      · subst hk
        have hl : l.filter (fun b => key b = key a) = [] := by
          rw [filter_eq_nil_iff]
          exact fun b hb hba => ha (mem_map.mpr ⟨b, hb, by simpa using hba⟩)
        simp only [ha, if_false] at ih
        simp [ih, filter_append, hl]
      · have hk' : key a ≠ k := fun e => hk e.symm
        split <;> simp [Dict.lookup_set_of_ne _ hk, ih, filter_append, hk, hk']

/-- The keys are noted in the order of their first appearance. -/
theorem group_order (key : α → κ) (l : List α) : (group key l).2 = (l.map key).eraseDups := by
  induction l using List.reverseRecOn with
  | nil => rfl
  | append_singleton l a ih =>
    rw [group_concat, groupStep, map_append, map_singleton, eraseDups_concat, ← ih]
    have hl := lookup_group key l (key a)
    split
    · next h =>
      rw [hl] at h
      split at h
      · next hm => simp [hm]
      · cases h
    · next h =>
      rw [hl] at h
      split at h
      · exact absurd rfl h
      · next hm => simp [hm]

/-! ## Counting -/

/-- Count one more occurrence. -/
def tallyStep (d : Dict κ Nat) (k : κ) : Dict κ Nat := d.set k ((d.lookup k).getD 0 + 1)

/-- The number of occurrences of each element, in the order of first appearance. -/
def tally (ks : List κ) : Dict κ Nat := ks.foldl tallyStep []

theorem tally_concat (ks : List κ) (k : κ) : tally (ks ++ [k]) = tallyStep (tally ks) k := by simp [tally]

/-- Every element is counted exactly. -/
theorem lookup_tally [BEq κ] [LawfulBEq κ] (ks : List κ) (k : κ) :
    ((tally ks).lookup k).getD 0 = ks.count k := by
  -- all lawful tests for equality agree, also with the one of `tallyStep`
  obtain rfl : ‹BEq κ› = instBEqOfDecidableEq := lawful_beq_subsingleton _ _
  induction ks using List.reverseRecOn with
  | nil => rfl
  | append_singleton ks j ih =>
    rw [tally_concat, tallyStep, count_append, ← ih]
    by_cases h : k = j
    · subst h; simp
    · have hj : j ≠ k := fun e => h e.symm
      rw [Dict.lookup_set_of_ne _ h]
      simp [hj]

/-- The counted elements, in the order of first appearance. -/
theorem keys_tally (ks : List κ) : (tally ks).keys = ks.eraseDups := by
  induction ks using List.reverseRecOn with
  | nil => rfl
  | append_singleton ks k ih =>
    rw [tally_concat, tallyStep, Dict.keys_set, eraseDups_concat, ih]
    simp only [mem_eraseDups]

theorem nodup_keys_tally (ks : List κ) : (tally ks).keys.Nodup := by
  rw [keys_tally]
  exact nodup_eraseDups ks

/-- The tally lists every element once, with its number of occurrences. -/
theorem tally_eq (ks : List κ) : tally ks = ks.eraseDups.map fun k => (k, ks.count k) := by
  have h : (tally ks).map (fun e => (e.1, ks.count e.1)) = tally ks := by
    refine (map_congr_left fun e he => ?_).trans (map_id _)
    have hl := (Dict.lookup_eq_some_iff_mem (nodup_keys_tally ks)).mpr he
    rw [← lookup_tally ks e.1, hl]
    rfl
  rw [← keys_tally, Dict.keys, map_map]
  exact h.symm

/-- Counted elements occur. -/
theorem pos_of_mem_tally {ks : List κ} {e : κ × Nat} (he : e ∈ tally ks) : 0 < e.2 := by
  rw [tally_eq, mem_map] at he
  obtain ⟨k, hk, rfl⟩ := he
  exact count_pos_iff.mpr (mem_eraseDups.mp hk)

omit [DecidableEq κ] in
/-- A sum over blocks, block by block. -/
theorem sum_map_flatMap (f : α → List κ) (g : κ → Nat) (l : List α) :
    ((l.flatMap f).map g).sum = (l.map fun a => ((f a).map g).sum).sum := by
  rw [map_flatMap, flatMap_def, sum_flatten, map_map]
  rfl

omit [DecidableEq κ] in
/-- A number of elements is a sum of ones. -/
theorem countP_eq_sum_map (p : κ → Bool) (l : List κ) : l.countP p = (l.map fun k => if p k then 1 else 0).sum := by
  induction l with
  | nil => rfl
  | cons k l ih => rw [countP_cons, map_cons, sum_cons, ih, Nat.add_comm]

/-- **A sum over a list is the sum over its tally, each term as often as it was counted.** -/
theorem sum_tally (f : κ → Nat) (ks : List κ) : ((tally ks).map fun e => e.2 * f e.1).sum = (ks.map f).sum := by
  have hp : ks.eraseDups.flatMap (fun k => ks.filter (fun j => j = k)) ~ ks :=
    perm_flatMap_filter id ks (nodup_eraseDups ks) fun k hk => mem_eraseDups.mpr hk
  have hk (k : κ) : ((ks.filter (fun j => j = k)).map f).sum = ks.count k * f k := by
    rw [filter_eq, map_replicate, sum_replicate_nat]
  calc ((tally ks).map fun e => e.2 * f e.1).sum
      = (ks.eraseDups.map fun k => ks.count k * f k).sum := by rw [tally_eq, map_map]; rfl
    _ = (ks.eraseDups.map fun k => ((ks.filter (fun j => j = k)).map f).sum).sum := by simp only [hk]
    _ = ((ks.eraseDups.flatMap fun k => ks.filter (fun j => j = k)).map f).sum := (sum_map_flatMap _ _ _).symm
    _ = (ks.map f).sum := (hp.map f).sum_nat

/-- The elements with a property are counted by what they are. -/
theorem sum_count_filter [BEq κ] [LawfulBEq κ] (p : κ → Bool) (ks : List κ) :
    ((ks.eraseDups.filter p).map ks.count).sum = ks.countP p := by
  obtain rfl : ‹BEq κ› = instBEqOfDecidableEq := lawful_beq_subsingleton _ _
  have hfilter (js : List κ) : ((js.filter p).map ks.count).sum =
      (js.map fun k => ks.count k * if p k then 1 else 0).sum := by
    induction js with
    | nil => rfl
    | cons k js ih => cases hk : p k <;> simp [hk, ih]
  rw [hfilter, countP_eq_sum_map, ← sum_tally (fun k => if p k then 1 else 0) ks, tally_eq, map_map]
  rfl

/-! ## Blocks of one key -/

section Blocks

variable {key : α → κ}

/-- `bs` are blocks of one key each, the key of block `i` being `num i`. -/
def AreBlocks (key : α → κ) (num : Nat → κ) (bs : List (List α)) : Prop :=
  ∀ i b, bs[i]? = some b → b ≠ [] ∧ ∀ a ∈ b, key a = num i

omit [DecidableEq κ] in
theorem AreBlocks.head {num : Nat → κ} {b : List α} {bs : List (List α)} (h : AreBlocks key num (b :: bs)) :
    b ≠ [] ∧ ∀ a ∈ b, key a = num 0 := h 0 b rfl

omit [DecidableEq κ] in
theorem AreBlocks.tail {num : Nat → κ} {b : List α} {bs : List (List α)} (h : AreBlocks key num (b :: bs)) :
    AreBlocks key (fun i => num (i + 1)) bs := fun i c hc => h (i + 1) c (by simpa using hc)

omit [DecidableEq κ] in
/-- An element of the blocks has the key of its block. -/
theorem AreBlocks.exists_num {num : Nat → κ} {bs : List (List α)} (h : AreBlocks key num bs) {a : α}
    (ha : a ∈ bs.flatten) : ∃ i, key a = num i := by
  obtain ⟨b, hb, hab⟩ := mem_flatten.mp ha
  obtain ⟨i, hi⟩ := List.mem_iff_getElem?.mp hb
  exact ⟨i, (h i b hi).2 a hab⟩

/-- Filtering at the key of a block gives the block. -/
theorem AreBlocks.filter_eq {bs : List (List α)} : ∀ {num : Nat → κ}, AreBlocks key num bs →
    Function.Injective num → ∀ {n : Nat} {b : List α}, bs[n]? = some b →
      bs.flatten.filter (fun a => key a = num n) = b := by
  induction bs with
  | nil => intro _ _ _ n b hb; cases hb
  | cons c bs ih =>
    intro num h hinj n b hb
    have hinj' : Function.Injective fun i => num (i + 1) := fun i j hij => by have := hinj hij; omega
    rw [flatten_cons, filter_append]
    cases n with
    | zero =>
      obtain rfl : c = b := by simpa using hb
      have h1 : c.filter (fun a => key a = num 0) = c := by
        rw [filter_eq_self]
        exact fun a ha => by simpa using h.head.2 a ha
      have h2 : bs.flatten.filter (fun a => key a = num 0) = [] := by
        rw [filter_eq_nil_iff]
        intro a ha hk
        obtain ⟨i, hi⟩ := h.tail.exists_num ha
        have := hinj (hi.symm.trans (by simpa using hk))
        omega
      rw [h1, h2, append_nil]
    | succ n =>
      have h1 : c.filter (fun a => key a = num (n + 1)) = [] := by
        rw [filter_eq_nil_iff]
        intro a ha hk
        have := hinj ((h.head.2 a ha).symm.trans (by simpa using hk))
        omega
      rw [h1, nil_append]
      exact ih h.tail hinj' (by simpa using hb)

/-- The keys of the blocks first appear in order. -/
theorem AreBlocks.eraseDups_eq {bs : List (List α)} : ∀ {num : Nat → κ}, AreBlocks key num bs →
    Function.Injective num → (bs.flatten.map key).eraseDups = (List.range bs.length).map num := by
  induction bs with
  | nil => intro _ _ _; rfl
  | cons b bs ih =>
    intro num h hinj
    have hinj' : Function.Injective fun i => num (i + 1) := fun i j hij => by have := hinj hij; omega
    have ih := ih h.tail hinj'
    obtain ⟨a, b, rfl⟩ := exists_cons_of_ne_nil h.head.1
    -- behind the first key, the rest of its block is erased and nothing else
    have h1 : (b.map key).filter (fun k => !k == num 0) = [] := by
      rw [filter_eq_nil_iff]
      intro k hk
      obtain ⟨x, hx, rfl⟩ := mem_map.mp hk
      simp [h.head.2 x (mem_cons_of_mem _ hx)]
    have h2 : (bs.flatten.map key).filter (fun k => !k == num 0) = bs.flatten.map key := by
      rw [filter_eq_self]
      intro k hk
      obtain ⟨x, hx, rfl⟩ := mem_map.mp hk
      obtain ⟨i, hi⟩ := h.tail.exists_num hx
      have : num (i + 1) ≠ num 0 := fun e => by have := hinj e; omega
      simp [hi, this]
    rw [flatten_cons, cons_append, map_cons, eraseDups_cons, h.head.2 a (by simp), map_append, filter_append, h1, h2,
      nil_append, ih, length_cons, range_succ_eq_map, map_cons, map_map]
    rfl

end Blocks

end Seq
