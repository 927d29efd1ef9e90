import QuranAnalysis.Normalize.NormalForm

/-!
# Normalising and tokenising

No table has an entry for whitespace, and none maps to whitespace (`noSpace_tables`). So normalising a text goes token
by token (`tokenize_translateAll`), and through a join of tokens (`translateAll_join`).

- `GoesTokenwise norm`: the tokens of `norm text` are the nonempty ones among the tokens of `text` under `norm`.
- `goesTokenwise_normalize`: so it is for `normalize`, with or without folding the final forms.
-/

namespace QuranAnalysis

open Py

/-- No entry is for whitespace or maps to whitespace. -/
def NoSpace (t : Table) : Prop :=
  ∀ e ∈ t, isSpace (Char.ofNat e.1) = false ∧ ∀ n ∈ e.2, isSpace (Char.ofNat n) = false

instance (t : Table) : Decidable (NoSpace t) := List.decidableBAll _ t

theorem NoSpace.mono {t s : Table} (h : NoSpace t) (hs : s ⊆ t) : NoSpace s := fun e he => h e (hs he)

theorem noSpace_tables : NoSpace (finalFormsMap :: normalizeTables).flatten := by decide

theorem noSpace_normalizeTables : NoSpace normalizeTables.flatten :=
  noSpace_tables.mono (List.subset_append_right finalFormsMap _)

/-- Whitespace is kept, and none comes up. -/
theorem NoSpace.keepsSeparators {t : Table} (h : NoSpace t) : Seq.KeepsSeparators isSpace (rulesOf t) := by
  constructor
  · intro c hc
    rw [rulesOf_eq_none_iff]
    intro hk
    obtain ⟨e, he, hec⟩ := List.mem_map.mp hk
    have hs := (h e he).1
    rw [hec, Char.ofNat_toNat, hc] at hs
    cases hs
  · intro c d hcd
    obtain ⟨e, he, hed⟩ := Option.map_eq_some_iff.mp hcd
    obtain ⟨n, rfl, rfl⟩ := Option.map_eq_some_iff.mp hed
    exact (h _ (Seq.Dict.mem_of_lookup he)).2 n rfl

section Tables

variable {ts : List Table} (h : NonInterfering ts) (hs : NoSpace ts.flatten)

include h hs

/-- **Translating goes token by token**, and tokens that are deleted altogether are left out. -/
theorem tokenize_translateAll (x : Str) :
    tokenize (translateAll ts x) = ((tokenize x).map (translateAll ts)).filter fun t => !t.isEmpty := by
  rw [translateAll_eq_rewrite h]
  exact Seq.fields_rewrite hs.keepsSeparators x

/-- Translating goes through a join. -/
theorem translateAll_join (xs : List Str) : translateAll ts (join xs) = join (xs.map (translateAll ts)) := by
  rw [translateAll_eq_rewrite h]
  exact Seq.rewrite_intercalate hs.keepsSeparators (by decide) xs

/-- A text without whitespace stays one. -/
theorem isSpace_of_mem_translateAll {x : Str} (hx : ∀ c ∈ x, isSpace c = false) {c : Char}
    (hc : c ∈ translateAll ts x) : isSpace c = false := by
  rw [translateAll_eq_rewrite h] at hc
  exact hs.keepsSeparators.no_sep hx c hc

end Tables

theorem tokenize_normalize (x : Str) :
    tokenize (normalize x) = ((tokenize x).map normalize).filter fun t => !t.isEmpty :=
  tokenize_translateAll nonInterfering_normalizeTables noSpace_normalizeTables x

theorem normalize_join (xs : List Str) : normalize (join xs) = join (xs.map normalize) :=
  translateAll_join nonInterfering_normalizeTables noSpace_normalizeTables xs

/-- A normalised token has no whitespace; it may be empty. -/
theorem isSpace_of_mem_normalize {t : Str} (ht : IsToken t) {c : Char} (hc : c ∈ normalize t) : isSpace c = false :=
  isSpace_of_mem_translateAll nonInterfering_normalizeTables noSpace_normalizeTables ht.no_sep hc

/-! ## Token by token -/

/-- Applied to a text, `norm` gives the tokens that it gives applied to the tokens, but for the empty ones; the other
characters are whitespace. -/
structure GoesTokenwise (norm : Str → Str) : Prop where
  tokens : ∀ text, tokenize (norm text) = ((tokenize text).map norm).filter fun t => !t.isEmpty
  chars : ∀ text, ((norm text).filter fun c => !isSpace c) = ((tokenize text).map norm).flatten

/-- The characters of the tokens are all characters but whitespace. -/
theorem flatten_tokenize (text : Str) : (tokenize text).flatten = text.filter fun c => !isSpace c :=
  Seq.flatten_fields text

/-- Empty tokens have no characters, so the tokens decide. -/
theorem goesTokenwise_of_tokens {norm : Str → Str}
    (h : ∀ text, tokenize (norm text) = ((tokenize text).map norm).filter fun t => !t.isEmpty) :
    GoesTokenwise norm := by
  refine ⟨h, fun text => ?_⟩
  rw [← flatten_tokenize, h, List.flatten_filter_not_isEmpty]

/-- **Normalising and tokenising commute**, also where the final forms are folded before or behind. -/
theorem goesTokenwise_normalize : GoesTokenwise normalize ∧
    GoesTokenwise (fun text => normalizeFinalForms (normalize text)) ∧
      GoesTokenwise (fun text => normalize (normalizeFinalForms text)) := by
  have hfinal : GoesTokenwise fun text => normalizeFinalForms (normalize text) := by
    refine goesTokenwise_of_tokens fun text => ?_
    simp only [normalizeFinalForms_normalize_eq_translateAll]
    exact tokenize_translateAll nonInterfering_tables noSpace_tables text
  refine ⟨goesTokenwise_of_tokens tokenize_normalize, hfinal, ?_⟩
  simpa only [normalizeFinalForms_normalize] using hfinal

end QuranAnalysis
