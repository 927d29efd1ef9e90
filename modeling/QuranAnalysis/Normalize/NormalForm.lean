import QuranAnalysis.Seq.Rewrite
import QuranAnalysis.Normalize

/-!
# `normalize` computes a normal form

Every table of `normalize.py` rewrites single characters (`translate_eq_rewrite`). The four tables do not interfere:
no code point has two entries, and none is mapped to a code point that has one (`nonInterfering_tables`). So applying
some of them in a row is one translation by all their entries (`translateAll_eq`), in whatever order
(`translateAll_of_perm`).

- `variation_iff_edit`: a step of orthographic variation is an edit by these entries, forward or backward.
- `normalize_normal_form`: equal normal forms mean connected by variation; orders and repetitions do not matter.
-/

namespace QuranAnalysis

open Py

/-! ## Tables as rewriting rules -/

/-- The rules of a table for characters. -/
def rulesOf (table : Table) (c : Char) : Option (Option Char) := (table.lookup c.toNat).map fun e => e.map Char.ofNat

theorem translate_eq_rewrite (table : Table) (text : Str) :
    translate table text = Seq.rewrite (rulesOf table) text := by
  refine List.flatMap_congr fun c _ => ?_
  unfold Seq.rewriteOne rulesOf
  rcases table.lookup c.toNat with _ | _ | n <;> rfl

/-- A character without an entry is kept. -/
theorem rulesOf_eq_none_iff {table : Table} {c : Char} : rulesOf table c = none ↔ c.toNat ∉ table.keys := by
  rw [rulesOf, Option.map_eq_none_iff, ← Seq.Dict.lookup_isSome, Option.not_isSome_iff_eq_none]

/-- `t` has no entries for the code points that `s` maps to. -/
def KeepsTargets (t s : Table) : Prop := ∀ e ∈ s, ∀ n ∈ e.2, (Char.ofNat n).toNat ∉ t.keys

instance (t s : Table) : Decidable (KeepsTargets t s) := List.decidableBAll _ s

theorem KeepsTargets.keeps {t s : Table} (h : KeepsTargets t s) : Seq.Keeps (rulesOf t) (rulesOf s) := by
  intro a b hab
  obtain ⟨e, he, heb⟩ := Option.map_eq_some_iff.mp hab
  obtain ⟨n, rfl, rfl⟩ := Option.map_eq_some_iff.mp heb
  exact rulesOf_eq_none_iff.mpr (h _ (Seq.Dict.mem_of_lookup he) n rfl)

/-- Fewer entries interfere less. -/
theorem KeepsTargets.mono {t s t' s' : Table} (h : KeepsTargets t s) (ht : t' ⊆ t) (hs : s' ⊆ s) :
    KeepsTargets t' s' := fun e he n hn hk => h e (hs he) n hn (List.map_subset _ ht hk)

/-- Two translations in a row are one. -/
theorem translate_translate {t s : Table} (h : KeepsTargets t s) (x : Str) :
    translate t (translate s x) = translate (s ++ t) x := by
  rw [translate_eq_rewrite, translate_eq_rewrite, translate_eq_rewrite, Seq.rewrite_rewrite h.keeps]
  congr 1
  funext c
  rw [rulesOf, rulesOf, rulesOf, List.lookup_append, Option.map_or]

/-! ## Tables that do not interfere -/

/-- No code point has two entries, and none is mapped to a code point with an entry. -/
structure NonInterfering (ts : List Table) : Prop where
  nodup : (Seq.Dict.keys ts.flatten).Nodup
  keeps : KeepsTargets ts.flatten ts.flatten

/-- The translations by the tables, one after the other. -/
def translateAll (ts : List Table) (x : Str) : Str := ts.foldl (fun y t => translate t y) x

theorem NonInterfering.tail {t : Table} {ts : List Table} (h : NonInterfering (t :: ts)) : NonInterfering ts := by
  have hsub : ts.flatten ⊆ (t :: ts).flatten := List.subset_append_right t ts.flatten
  refine ⟨?_, h.keeps.mono hsub hsub⟩
  have hn := h.nodup
  rw [Seq.Dict.keys, List.flatten_cons, List.map_append, List.nodup_append] at hn
  exact hn.2.1

theorem NonInterfering.of_perm {ts us : List Table} (h : NonInterfering ts) (hp : ts.Perm us) : NonInterfering us :=
  ⟨(hp.flatten.map Prod.fst).nodup_iff.mp h.nodup, h.keeps.mono hp.flatten.symm.subset hp.flatten.symm.subset⟩

/-- Tables that do not interfere translate like all their entries together. -/
theorem translateAll_eq {ts : List Table} (h : NonInterfering ts) (x : Str) :
    translateAll ts x = translate ts.flatten x := by
  induction ts generalizing x with
  | nil => simp [translateAll, translate]
  | cons t ts ih =>
    have hk : KeepsTargets ts.flatten t :=
      h.keeps.mono (List.subset_append_right t _) (List.subset_append_left t _)
    show translateAll ts (translate t x) = _
    rw [ih h.tail, translate_translate hk, List.flatten_cons]

theorem translateAll_eq_rewrite {ts : List Table} (h : NonInterfering ts) :
    translateAll ts = Seq.rewrite (rulesOf ts.flatten) := by
  funext x
  rw [translateAll_eq h, translate_eq_rewrite]

/-- Their order does not matter. -/
theorem translateAll_of_perm {ts us : List Table} (h : NonInterfering ts) (hp : ts.Perm us) (x : Str) :
    translateAll us x = translateAll ts x := by
  rw [translateAll_eq h, translateAll_eq (h.of_perm hp)]
  refine List.flatMap_congr fun c _ => ?_
  rw [Seq.Dict.lookup_of_perm hp.flatten h.nodup]

/-- Translating again changes nothing. -/
theorem translateAll_idem {ts : List Table} (h : NonInterfering ts) (x : Str) :
    translateAll ts (translateAll ts x) = translateAll ts x := by
  rw [translateAll_eq_rewrite h, Seq.rewrite_idem h.keeps.keeps]

/-- No translated code point is left. -/
theorem notMem_keys_of_mem_translateAll {ts : List Table} (h : NonInterfering ts) {x : Str} {c : Char}
    (hc : c ∈ translateAll ts x) {t : Table} (ht : t ∈ ts) : c.toNat ∉ t.keys := by
  rw [translateAll_eq_rewrite h] at hc
  have := rulesOf_eq_none_iff.mp (Seq.eq_none_of_mem_rewrite h.keeps.keeps hc)
  exact fun hk => this (List.map_subset _ (fun e he => List.mem_flatten.mpr ⟨t, ht, he⟩) hk)

/-! ## The four tables -/

/-- The tables of `normalize`, in the order of the pipeline. -/
def normalizeTables : List Table := [tatweelDelete, tashkeelDelete, hamzaMap]

theorem normalize_eq_translateAll (x : Str) : normalize x = translateAll normalizeTables x := rfl

theorem nonInterfering_tables : NonInterfering (finalFormsMap :: normalizeTables) := ⟨by decide, by decide⟩

theorem nonInterfering_normalizeTables : NonInterfering normalizeTables := nonInterfering_tables.tail

/-- The pipeline is one rewriting. -/
theorem normalize_eq_rewrite (x : Str) : normalize x = Seq.rewrite (rulesOf normalizeTables.flatten) x := by
  rw [normalize_eq_translateAll, translateAll_eq_rewrite nonInterfering_normalizeTables]

theorem normalize_append (x y : Str) : normalize (x ++ y) = normalize x ++ normalize y := by
  simp [normalize_eq_rewrite]

/-! ## Orthographic variation -/

/-- One step of orthographic variation: a tatweel or a mark goes or comes, a carrier becomes its base letter or back. -/
inductive Variation : Str → Str → Prop
  | delete (x y : Str) (c : Char) (h : c.toNat = tatweel ∨ c.toNat ∈ tashkeelCodepoints) :
    Variation (x ++ c :: y) (x ++ y)
  | insert (x y : Str) (c : Char) (h : c.toNat = tatweel ∨ c.toNat ∈ tashkeelCodepoints) :
    Variation (x ++ y) (x ++ c :: y)
  | toBase (x y : Str) (c d : Char) (h : (c.toNat, some d.toNat) ∈ hamzaMap) : Variation (x ++ c :: y) (x ++ d :: y)
  | toCarrier (x y : Str) (c d : Char) (h : (c.toNat, some d.toNat) ∈ hamzaMap) : Variation (x ++ d :: y) (x ++ c :: y)

/-- The entries that delete. -/
theorem rulesOf_normalizeTables_delete {c : Char} :
    rulesOf normalizeTables.flatten c = some none ↔ c.toNat = tatweel ∨ c.toNat ∈ tashkeelCodepoints := by
  have hnone : ∀ n : Nat, (n, (none : Option Nat)) ∉ hamzaMap := by simp [hamzaMap]
  unfold rulesOf
  rw [Option.map_eq_some_iff]
  simp only [Option.map_eq_none_iff, exists_eq_right,
    Seq.Dict.lookup_eq_some_iff_mem nonInterfering_normalizeTables.nodup]
  simp [normalizeTables, tatweelDelete, tashkeelDelete, hnone]

/-- The entries that map. -/
theorem rulesOf_normalizeTables_replace {c d : Char} :
    rulesOf normalizeTables.flatten c = some (some d) ↔ (c.toNat, some d.toNat) ∈ hamzaMap := by
  have hchar : ∀ e ∈ hamzaMap, ∀ n ∈ e.2, (Char.ofNat n).toNat = n := by decide
  have hsome : ∀ n m : Nat, (n, some m) ∈ normalizeTables.flatten ↔ (n, some m) ∈ hamzaMap := by
    simp [normalizeTables, tatweelDelete, tashkeelDelete]
  unfold rulesOf
  rw [Option.map_eq_some_iff]
  simp only [Option.map_eq_some_iff, Seq.Dict.lookup_eq_some_iff_mem nonInterfering_normalizeTables.nodup]
  constructor
  · rintro ⟨e, he, n, rfl, rfl⟩
    rw [hsome] at he
    rwa [hchar _ he n rfl]
  · intro h
    exact ⟨_, (hsome _ _).mpr h, d.toNat, rfl, Char.ofNat_toNat d⟩

/-- A step of variation is an edit, forward or backward. -/
theorem variation_iff_edit {x y : Str} :
    Variation x y ↔ Relation.SymmGen (Seq.Edit (rulesOf normalizeTables.flatten)) x y := by
  constructor
  · intro h
    cases h with
    | delete x y c h => exact .of_rel (.delete x y (rulesOf_normalizeTables_delete.mpr h))
    | insert x y c h => exact .of_rel_symm (.delete x y (rulesOf_normalizeTables_delete.mpr h))
    | toBase x y c d h => exact .of_rel (.replace x y (rulesOf_normalizeTables_replace.mpr h))
    | toCarrier x y c d h => exact .of_rel_symm (.replace x y (rulesOf_normalizeTables_replace.mpr h))
  · rintro (h | h)
    · cases h with
      | delete x y h => exact .delete x y _ (rulesOf_normalizeTables_delete.mp h)
      | replace x y h => exact .toBase x y _ _ (rulesOf_normalizeTables_replace.mp h)
    · cases h with
      | delete x y h => exact .insert x y _ (rulesOf_normalizeTables_delete.mp h)
      | replace x y h => exact .toCarrier x y _ _ (rulesOf_normalizeTables_replace.mp h)

/-- Equal normal forms are connected by variation. -/
theorem normalize_eq_iff {x y : Str} : normalize x = normalize y ↔ Relation.ReflTransGen Variation x y := by
  have hv : Variation = Relation.SymmGen (Seq.Edit (rulesOf normalizeTables.flatten)) := by
    funext x y
    exact propext variation_iff_edit
  rw [normalize_eq_rewrite, normalize_eq_rewrite, Seq.rewrite_eq_iff nonInterfering_normalizeTables.keeps.keeps, hv,
    Relation.EqvGen.reflTransGen_symmGen]

/-! ## The normal form -/

/-- Functions that translate by the tables, in the order of another list of tables. -/
theorem exists_tables_of_perm {ts : List Table} {steps : List (Str → Str)} (h : steps.Perm (ts.map translate)) :
    ∃ us, us.Perm ts ∧ ∀ x, steps.foldl (fun y step => step y) x = translateAll us x := by
  have hmap : List.Forall₂ (fun step t => step = translate t) (ts.map translate) ts := by simp
  obtain ⟨us, hf, hp⟩ := List.perm_comp_forall₂ h hmap
  refine ⟨us, hp, ?_⟩
  clear hp h
  induction hf with
  | nil => intro x; rfl
  | cons hstep _ ih => intro x; rw [List.foldl_cons, ih, hstep]; rfl

/-- What `normalize` returns has no deleted and no mapped code point. -/
theorem normalized_of_mem {x : Str} {c : Char} (hc : c ∈ normalize x) :
    c.toNat ≠ tatweel ∧ c.toNat ∉ tashkeelCodepoints ∧ c.toNat ∉ hamzaMap.keys := by
  rw [normalize_eq_translateAll] at hc
  have hkeys : ∀ t ∈ normalizeTables, c.toNat ∉ t.keys := fun t ht =>
    notMem_keys_of_mem_translateAll nonInterfering_normalizeTables hc ht
  refine ⟨?_, ?_, hkeys hamzaMap (by simp [normalizeTables])⟩
  · simpa [tatweelDelete, Seq.Dict.keys] using hkeys tatweelDelete (by simp [normalizeTables])
  · simpa [tashkeelDelete, Seq.Dict.keys] using hkeys tashkeelDelete (by simp [normalizeTables])

/-- The final forms may be folded before or behind `normalize`. -/
theorem normalizeFinalForms_normalize (x : Str) :
    normalizeFinalForms (normalize x) = normalize (normalizeFinalForms x) := by
  have hp : (finalFormsMap :: normalizeTables).Perm (normalizeTables ++ [finalFormsMap]) :=
    (List.perm_append_singleton finalFormsMap normalizeTables).symm
  have h := translateAll_of_perm nonInterfering_tables hp x
  rwa [translateAll, List.foldl_append] at h

/-- `normalize` and the final forms together, as one list of tables. -/
theorem normalizeFinalForms_normalize_eq_translateAll (x : Str) :
    normalizeFinalForms (normalize x) = translateAll (finalFormsMap :: normalizeTables) x :=
  normalizeFinalForms_normalize x

theorem normalize_idem (x : Str) : normalize (normalize x) = normalize x :=
  translateAll_idem nonInterfering_normalizeTables x

/-- **`normalize` computes a normal form for orthographic variation**, by steps in any order, and folding the final
forms goes along with it. -/
theorem normalize_normal_form :
    (∀ x y : Str, normalize x = normalize y ↔ Relation.ReflTransGen Variation x y) ∧
      (∀ x : Str, normalize (normalize x) = normalize x) ∧
      (∀ (steps : List (Str → Str)) (x : Str), steps.Perm [removeTatweel, stripTashkeel, normalizeHamza] →
        steps.foldl (fun y step => step y) x = normalize x) ∧
      (∀ x : Str, normalizeFinalForms (normalize x) = normalize (normalizeFinalForms x)) ∧
      (∀ x : Str, normalizeFinalForms (normalize (normalizeFinalForms (normalize x))) =
        normalizeFinalForms (normalize x)) ∧
      (∀ x : Str, ∀ c ∈ normalize x, c.toNat ≠ tatweel ∧ c.toNat ∉ tashkeelCodepoints ∧ c.toNat ∉ hamzaMap.keys) ∧
      ∀ x : Str, ∀ c ∈ normalizeFinalForms (normalize x), c.toNat ≠ tatweel ∧ c.toNat ∉ tashkeelCodepoints ∧
        c.toNat ∉ hamzaMap.keys ∧ c.toNat ∉ finalFormsMap.keys := by
  refine ⟨fun x y => normalize_eq_iff, normalize_idem, fun steps x hsteps => ?_, normalizeFinalForms_normalize,
    fun x => ?_, fun x c hc => normalized_of_mem hc, fun x c hc => ?_⟩
  · have hsteps : steps.Perm (normalizeTables.map translate) := hsteps
    obtain ⟨us, hp, hfold⟩ := exists_tables_of_perm hsteps
    rw [hfold, normalize_eq_translateAll, translateAll_of_perm nonInterfering_normalizeTables hp.symm]
  · simp only [normalizeFinalForms_normalize_eq_translateAll, translateAll_idem nonInterfering_tables]
  · have hfinal : c.toNat ∉ finalFormsMap.keys := by
      have hall := hc
      rw [normalizeFinalForms_normalize_eq_translateAll] at hall
      exact notMem_keys_of_mem_translateAll nonInterfering_tables hall (by simp)
    rw [normalizeFinalForms_normalize] at hc
    obtain ⟨h1, h2, h3⟩ := normalized_of_mem hc
    exact ⟨h1, h2, h3, hfinal⟩

end QuranAnalysis
