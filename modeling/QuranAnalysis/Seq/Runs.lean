import Mathlib.Data.List.Chain
import Mathlib.Data.List.Nodup
import Mathlib.Data.Finset.Card

/-!
# Runs of equal keys

`runs key l` cuts `l` into its maximal stretches of neighbouring elements with one key, each with that key.

- `IsRuns key l rs` says that `rs` is such a cut; `runs` gives one (`runs_isRuns`).
- `Adjacent ks` says that no key comes back after a different one. The keys of the runs are then pairwise different,
  and conversely (`IsRuns.nodup_iff_adjacent`).
- Counting runs by their key is then counting keys (`IsRuns.countP_eq_card`), and a run is the part of the list with its
  key (`IsRuns.filter_key_eq`).
- Lists with the same elements of each key have the same runs, in some order (`IsRuns.perm_of_filter_eq`).
- `FirstRun key l k run`: the first run with key `k`. There is at most one (`FirstRun.unique`), and a search through the
  runs finds it (`IsRuns.firstRun_of_find?`).
-/

namespace Seq

open List

variable {α κ : Type*} {key : α → κ}

/-- The maximal runs of neighbours with one key, each with its key. -/
def runs [DecidableEq κ] (key : α → κ) : List α → List (κ × List α)
  | [] => []
  | a :: l =>
    match runs key l with
    | [] => [(key a, [a])]
    | (k, r) :: rs => if key a = k then (k, a :: r) :: rs else (key a, [a]) :: (k, r) :: rs

/-- `rs` cuts `l` into nonempty runs of one key each, and neighbouring runs have different keys. -/
structure IsRuns (key : α → κ) (l : List α) (rs : List (κ × List α)) : Prop where
  flatten : rs.flatMap Prod.snd = l
  ne_nil : ∀ q ∈ rs, q.2 ≠ []
  key_eq : ∀ q ∈ rs, ∀ a ∈ q.2, key a = q.1
  differ : (rs.map Prod.fst).IsChain (· ≠ ·)

/-- An element with the key of the first run joins it. -/
theorem IsRuns.cons_same {a : α} {l r : List α} {k : κ} {rs : List (κ × List α)} (h : IsRuns key l ((k, r) :: rs))
    (ha : key a = k) : IsRuns key (a :: l) ((k, a :: r) :: rs) := by
  have hne := h.ne_nil
  have hkey := h.key_eq
  rw [forall_mem_cons] at hne hkey
  refine ⟨by simpa using h.flatten, ?_, ?_, h.differ⟩
  · rw [forall_mem_cons]
    exact ⟨cons_ne_nil _ _, hne.2⟩
  · rw [forall_mem_cons, forall_mem_cons]
    exact ⟨⟨ha, hkey.1⟩, hkey.2⟩

/-- An element with another key is a run of its own. -/
theorem IsRuns.cons_new {a : α} {l : List α} {rs : List (κ × List α)} (h : IsRuns key l rs)
    (ha : ∀ q ∈ rs.head?, key a ≠ q.1) : IsRuns key (a :: l) ((key a, [a]) :: rs) := by
  refine ⟨by simpa using h.flatten, ?_, ?_, ?_⟩
  · rw [forall_mem_cons]
    exact ⟨cons_ne_nil _ _, h.ne_nil⟩
  · rw [forall_mem_cons]
    exact ⟨by simp, h.key_eq⟩
  · cases rs with
    | nil => simp
    | cons q rs =>
      rw [map_cons, map_cons, isChain_cons_cons]
      exact ⟨ha q (by simp), h.differ⟩

/-- `runs` cuts its list into runs. -/
theorem runs_isRuns [DecidableEq κ] (key : α → κ) (l : List α) : IsRuns key l (runs key l) := by
  induction l with
  | nil => exact ⟨rfl, by simp [runs], by simp [runs], by simp [runs]⟩
  | cons a l ih =>
    rw [runs]
    match hr : runs key l with
    | [] =>
      rw [hr] at ih
      exact ih.cons_new (by simp)
    | (k, r) :: rs =>
      rw [hr] at ih
      simp only
      split
      · next hak => exact ih.cons_same hak
      · next hak => exact ih.cons_new (by simpa using hak)

namespace IsRuns

variable {l : List α} {rs : List (κ × List α)}

/-- The runs after the first one cut the rest of the list. -/
theorem tail {q : κ × List α} (h : IsRuns key l (q :: rs)) : IsRuns key (rs.flatMap Prod.snd) rs :=
  ⟨rfl, fun p hp => h.ne_nil p (mem_cons_of_mem _ hp), fun p hp => h.key_eq p (mem_cons_of_mem _ hp),
    by have := h.differ; rw [map_cons] at this; exact this.tail⟩

/-- A run's elements are elements of the list. -/
theorem mem_of_mem_run (h : IsRuns key l rs) {q : κ × List α} (hq : q ∈ rs) {a : α} (ha : a ∈ q.2) : a ∈ l := by
  rw [← h.flatten]; exact mem_flatMap.mpr ⟨q, hq, ha⟩

/-- Every element is in a run with its key. -/
theorem exists_run (h : IsRuns key l rs) {a : α} (ha : a ∈ l) : ∃ q ∈ rs, a ∈ q.2 ∧ q.1 = key a := by
  rw [← h.flatten] at ha
  obtain ⟨q, hq, haq⟩ := mem_flatMap.mp ha
  exact ⟨q, hq, haq, (h.key_eq q hq a haq).symm⟩

/-- Every run has an element, so its key is a key of the list. -/
theorem exists_mem_run (h : IsRuns key l rs) {q : κ × List α} (hq : q ∈ rs) : ∃ a ∈ q.2, a ∈ l ∧ key a = q.1 := by
  obtain ⟨a, ha⟩ := exists_mem_of_ne_nil _ (h.ne_nil q hq)
  exact ⟨a, ha, h.mem_of_mem_run hq ha, h.key_eq q hq a ha⟩

/-- The runs and the list have the same keys. -/
theorem mem_keys_iff (h : IsRuns key l rs) {k : κ} : k ∈ rs.map Prod.fst ↔ k ∈ l.map key := by
  constructor
  · intro hk
    obtain ⟨q, hq, rfl⟩ := mem_map.mp hk
    obtain ⟨a, _, hal, hak⟩ := h.exists_mem_run hq
    exact mem_map.mpr ⟨a, hal, hak⟩
  · intro hk
    obtain ⟨a, ha, rfl⟩ := mem_map.mp hk
    obtain ⟨q, hq, _, hqa⟩ := h.exists_run ha
    exact mem_map.mpr ⟨q, hq, hqa⟩

/-- The keys of the list are those of the first run, then those of the others. -/
theorem map_key_cons {q : κ × List α} (h : IsRuns key l (q :: rs)) :
    l.map key = replicate q.2.length q.1 ++ (rs.flatMap Prod.snd).map key := by
  have hq : q.2.map key = replicate q.2.length q.1 := by
    rw [eq_replicate_iff]
    refine ⟨by simp, fun k hk => ?_⟩
    obtain ⟨a, ha, rfl⟩ := mem_map.mp hk
    exact h.key_eq q (by simp) a ha
  rw [← h.flatten, flatMap_cons, map_append, hq]

end IsRuns

/-! ## Equal keys next to each other -/

/-- No key comes back after a different one: equal keys stand next to each other. -/
def Adjacent (ks : List κ) : Prop := ∀ a b, [a, b, a] <+ ks → b = a

/-- A part of an adjacent list is adjacent. -/
theorem Adjacent.of_append_right {ks ks' : List κ} (h : Adjacent (ks ++ ks')) : Adjacent ks' :=
  fun a b hs => h a b (hs.trans (sublist_append_right _ _))

namespace IsRuns

variable {l : List α} {rs : List (κ × List α)}

/-- If equal keys stand next to each other, no two runs have one key. -/
theorem nodup_of_adjacent (h : IsRuns key l rs) (ha : Adjacent (l.map key)) : (rs.map Prod.fst).Nodup := by
  induction rs generalizing l with
  | nil => simp
  | cons q rs ih =>
    rw [h.map_key_cons] at ha
    rw [map_cons, nodup_cons]
    refine ⟨fun hq => ?_, ih h.tail ha.of_append_right⟩
    -- the next run has another key, and the first key comes back behind it
    match rs, h, hq with
    | q' :: rs, h, hq =>
      have hne : q.1 ≠ q'.1 := by
        have := h.differ
        rw [map_cons, map_cons, isChain_cons_cons] at this
        exact this.1
      have hq' : q.1 ∈ rs.map Prod.fst := by simpa [hne] using hq
      have h0 : q.2.length ≠ 0 := by simpa using h.ne_nil q (by simp)
      have h1 : q'.2.length ≠ 0 := by simpa using h.ne_nil q' (by simp)
      have hk : q.1 ∈ (rs.flatMap Prod.snd).map key := h.tail.tail.mem_keys_iff.mp hq'
      have hs : [q.1] ++ ([q'.1] ++ [q.1]) <+
          replicate q.2.length q.1 ++ (((q' :: rs).flatMap Prod.snd).map key) := by
        rw [h.tail.map_key_cons]
        exact (singleton_sublist.mpr (mem_replicate.mpr ⟨h0, rfl⟩)).append
          ((singleton_sublist.mpr (mem_replicate.mpr ⟨h1, rfl⟩)).append (singleton_sublist.mpr hk))
      exact hne (ha q.1 q'.1 hs).symm

/-- If no two runs have one key, equal keys stand next to each other. -/
theorem adjacent_of_nodup (h : IsRuns key l rs) (hn : (rs.map Prod.fst).Nodup) : Adjacent (l.map key) := by
  induction rs generalizing l with
  | nil =>
    obtain rfl : l = [] := by simpa using h.flatten.symm
    intro a b hs
    simp at hs
  | cons q rs ih =>
    rw [map_cons, nodup_cons] at hn
    have iht := ih h.tail hn.2
    have hfresh : q.1 ∉ (rs.flatMap Prod.snd).map key := fun hk => hn.1 (h.tail.mem_keys_iff.mpr hk)
    intro a b hs
    rw [h.map_key_cons] at hs
    obtain ⟨l₁, l₂, he, h₁, h₂⟩ := sublist_append_iff.mp hs
    -- the three keys lie in the first run, behind it, or across its end
    match l₁, he, h₁ with
    | [], he, _ => exact iht a b (by rw [he, nil_append]; exact h₂)
    | [x], he, h₁ =>
      simp only [cons_append, nil_append, cons.injEq] at he
      obtain ⟨rfl, rfl⟩ := he
      have hx : a = q.1 := eq_of_mem_replicate (singleton_sublist.mp h₁)
      exact absurd (h₂.subset (by simp [hx])) hfresh
    | [x, y], he, h₁ =>
      simp only [cons_append, nil_append, cons.injEq] at he
      obtain ⟨rfl, rfl, rfl⟩ := he
      have hx : a = q.1 := eq_of_mem_replicate (h₁.subset (by simp))
      exact absurd (h₂.subset (by simp [hx])) hfresh
    | x :: y :: z :: w, he, h₁ =>
      simp only [cons_append, cons.injEq] at he
      obtain ⟨rfl, rfl, rfl, _⟩ := he
      have hx : a = q.1 := eq_of_mem_replicate (h₁.subset (by simp))
      have hy : b = q.1 := eq_of_mem_replicate (h₁.subset (by simp))
      rw [hx, hy]

/-- **No two runs have one key exactly when equal keys stand next to each other.** -/
theorem nodup_iff_adjacent (h : IsRuns key l rs) : (rs.map Prod.fst).Nodup ↔ Adjacent (l.map key) :=
  ⟨h.adjacent_of_nodup, h.nodup_of_adjacent⟩

/-- The part of the list with the key of a run that stays in that run, is that run. -/
theorem filter_key_eq [DecidableEq κ] (h : IsRuns key l rs) (hn : (rs.map Prod.fst).Nodup) {q : κ × List α}
    (hq : q ∈ rs) : l.filter (fun a => key a = q.1) = q.2 := by
  induction rs generalizing l with
  | nil => cases hq
  | cons p rs ih =>
    rw [map_cons, nodup_cons] at hn
    rw [← h.flatten, flatMap_cons, filter_append]
    rcases mem_cons.mp hq with rfl | hq
    · have h1 : q.2.filter (fun a => key a = q.1) = q.2 := by
        rw [filter_eq_self]
        exact fun a ha => by simpa using h.key_eq q (by simp) a ha
      have h2 : (rs.flatMap Prod.snd).filter (fun a => key a = q.1) = [] := by
        rw [filter_eq_nil_iff]
        intro a ha hk
        apply hn.1
        rw [h.tail.mem_keys_iff]
        exact mem_map.mpr ⟨a, ha, by simpa using hk⟩
      rw [h1, h2, append_nil]
    · have h1 : p.2.filter (fun a => key a = q.1) = [] := by
        rw [filter_eq_nil_iff]
        intro a ha hk
        apply hn.1
        have hp : key a = p.1 := h.key_eq p (by simp) a ha
        rw [← hp, show key a = q.1 by simpa using hk]
        exact mem_map_of_mem hq
      rw [h1, nil_append, ih h.tail hn.2 hq]

/-- The runs are the elements of the list by key. -/
theorem mem_iff [DecidableEq κ] (h : IsRuns key l rs) (hn : (rs.map Prod.fst).Nodup) {q : κ × List α} :
    q ∈ rs ↔ q.2 ≠ [] ∧ l.filter (fun a => key a = q.1) = q.2 := by
  constructor
  · intro hq
    exact ⟨h.ne_nil q hq, h.filter_key_eq hn hq⟩
  · intro hq
    obtain ⟨hne, hfilter⟩ := hq
    obtain ⟨a, ha⟩ := exists_mem_of_ne_nil _ hne
    rw [← hfilter, mem_filter, decide_eq_true_iff] at ha
    obtain ⟨p, hp, -, hpk⟩ := h.exists_run ha.1
    have hkey : p.1 = q.1 := hpk.trans ha.2
    have hrun := h.filter_key_eq hn hp
    rw [hkey, hfilter] at hrun
    rwa [← Prod.ext hkey hrun.symm]

/-- Lists with the same elements of each key have the same runs, in some order, if no two runs of one have one key. -/
theorem perm_of_filter_eq [DecidableEq κ] {l' : List α} {rs' : List (κ × List α)} (h : IsRuns key l rs)
    (h' : IsRuns key l' rs') (hn : (rs.map Prod.fst).Nodup) (hn' : (rs'.map Prod.fst).Nodup)
    (hf : ∀ k, l.filter (fun a => key a = k) = l'.filter (fun a => key a = k)) : rs.Perm rs' := by
  rw [perm_ext_iff_of_nodup (Nodup.of_map _ hn) (Nodup.of_map _ hn')]
  intro q
  rw [h.mem_iff hn, h'.mem_iff hn', hf]

/-- Where no two runs have one key, the runs are counted by their keys. -/
theorem countP_eq_card [DecidableEq κ] (h : IsRuns key l rs) (hn : (rs.map Prod.fst).Nodup) (P : κ → Prop)
    [DecidablePred P] : rs.countP (fun q => P q.1) = ((l.map key).toFinset.filter P).card := by
  have hnd : ((rs.filter fun q => P q.1).map Prod.fst).Nodup := hn.sublist (filter_sublist.map _)
  have hset : ((rs.filter fun q => P q.1).map Prod.fst).toFinset = (l.map key).toFinset.filter P := by
    ext k
    rw [Finset.mem_filter, mem_toFinset, mem_toFinset, ← h.mem_keys_iff]
    simp only [mem_map, mem_filter, decide_eq_true_eq]
    constructor
    · rintro ⟨q, ⟨hq, hP⟩, rfl⟩
      exact ⟨⟨q, hq, rfl⟩, hP⟩
    · rintro ⟨⟨q, hq, rfl⟩, hP⟩
      exact ⟨q, ⟨hq, hP⟩, rfl⟩
  rw [← hset, toFinset_card_of_nodup hnd, length_map, countP_eq_length_filter]

end IsRuns

instance [DecidableEq κ] (ks : List κ) : Decidable (Adjacent ks) :=
  decidable_of_iff ((runs id ks).map Prod.fst).Nodup (by
    have h := (runs_isRuns id ks).nodup_iff_adjacent
    rwa [map_id] at h)

/-- If no two elements have one key, a lookup by the key of an element finds it. -/
theorem find?_eq_some_of_nodup {l : List α} (hn : (l.map key).Nodup) {a : α} (ha : a ∈ l) {p : α → Bool}
    (hp : ∀ b, p b = true ↔ key b = key a) : l.find? p = some a := by
  induction l with
  | nil => cases ha
  | cons b l ih =>
    rw [map_cons, nodup_cons] at hn
    rcases mem_cons.mp ha with rfl | ha
    · rw [find?_cons_of_pos ((hp a).mpr rfl)]
    · have hb : ¬ p b = true := fun hb => hn.1 (mem_map.mpr ⟨a, ha, ((hp b).mp hb).symm⟩)
      rw [find?_cons_of_neg hb, ih hn.2 ha]

/-- If no two elements have one key, a lookup by key does not depend on the order. -/
theorem find?_of_perm {l l' : List α} (hp : l.Perm l') (hn : (l'.map key).Nodup) {k : κ} {p : α → Bool}
    (hk : ∀ a, p a = true ↔ key a = k) : l'.find? p = l.find? p := by
  cases h : l.find? p with
  | none =>
    rw [find?_eq_none] at h ⊢
    exact fun a ha => h a (hp.mem_iff.mpr ha)
  | some a =>
    have ha : key a = k := (hk a).mp (find?_some h)
    exact find?_eq_some_of_nodup hn (hp.mem_iff.mp (mem_of_find?_eq_some h)) fun b => by rw [hk, ha]

/-- If no two elements have one key, the elements with a key do not depend on the order. -/
theorem filter_key_of_perm [DecidableEq κ] {l l' : List α} (hp : l.Perm l') (hn : (l.map key).Nodup) (k : κ) :
    l.filter (fun a => key a = k) = l'.filter (fun a => key a = k) := by
  have hperm := hp.filter fun a => key a = k
  rcases hl : l.filter fun a => key a = k with - | ⟨a, - | ⟨b, rest⟩⟩
  case nil =>
    rw [hl] at hperm
    exact hperm.nil_eq
  case cons.nil =>
    rw [hl] at hperm
    exact (perm_singleton.mp hperm.symm).symm
  case cons.cons =>
    -- two elements with the key
    have hsub : [key a, key b] <+ l.map key := by
      have h := (filter_sublist (l := l) (p := fun a => key a = k)).map key
      rw [hl, map_cons, map_cons] at h
      exact Sublist.trans (by simp) h
    have hkey : ∀ c ∈ a :: b :: rest, key c = k := fun c hc => by
      rw [← hl, mem_filter, decide_eq_true_iff] at hc
      exact hc.2
    have hne := hn.sublist hsub
    rw [hkey a (by simp), hkey b (by simp)] at hne
    simp at hne

/-- Different keys stand next to each other as they are. -/
theorem adjacent_of_nodup {ks : List κ} (h : ks.Nodup) : Adjacent ks := by
  intro a b hs
  have hn := h.sublist hs
  simp at hn

/-! ## The first run with a key -/

/-- `run` is the first maximal run with key `k`. -/
structure FirstRun (key : α → κ) (l : List α) (k : κ) (run : List α) : Prop where
  ne_nil : run ≠ []
  key_eq : ∀ a ∈ run, key a = k
  split : ∃ before after, l = before ++ (run ++ after) ∧ (∀ a ∈ before, key a ≠ k) ∧ ∀ a ∈ after.head?, key a ≠ k

section FirstRun

variable {l run run' : List α} {k : κ}

theorem FirstRun.mem (h : FirstRun key l k run) {a : α} (ha : a ∈ run) : a ∈ l := by
  obtain ⟨before, after, rfl, -⟩ := h.split
  exact mem_append_right _ (mem_append_left _ ha)

/-- The first run is what stands behind the elements with other keys, up to the next other key. -/
theorem FirstRun.eq_takeWhile [DecidableEq κ] (h : FirstRun key l k run) :
    run = (l.dropWhile fun a => key a ≠ k).takeWhile fun a => key a = k := by
  obtain ⟨before, after, rfl, hb, ha⟩ := h.split
  obtain ⟨b, r, rfl⟩ := exists_cons_of_ne_nil h.ne_nil
  have hkey : key b = k := h.key_eq b (by simp)
  rw [dropWhile_append_of_pos (by simpa using hb), cons_append, dropWhile_cons_of_neg (by simpa using hkey),
    ← cons_append, takeWhile_append_of_pos (by simpa using h.key_eq)]
  cases after with
  | nil => simp
  | cons c after =>
    rw [takeWhile_cons_of_neg (by simpa using ha c (by simp)), append_nil]

theorem FirstRun.unique (h : FirstRun key l k run) (h' : FirstRun key l k run') : run = run' := by
  classical
  rw [h.eq_takeWhile, h'.eq_takeWhile]

end FirstRun

end Seq
