import QuranAnalysis.Corpus.Conserve
import QuranAnalysis.Normalize.Tokens
import QuranAnalysis.Primitives

/-!
# Counting over the running text

The primitives normalise and count word by word. For a loaded corpus the same counts come out of its running text,
normalised as a whole:

- `countByForm_eq_count_tokens`: forms are counted by splitting the normalised text into tokens;
- `countBySubstring_eq_count_text`: substrings are counted by scanning the normalised text.
-/

namespace QuranAnalysis

open Py

section Texts

variable {ts : List Str}

/-- The normalised tokens, but for those that are deleted altogether, are the tokens of the normalised text. -/
theorem tokenize_normalize_join (hts : ∀ t ∈ ts, IsToken t) :
    tokenize (normalize (join ts)) = (ts.map normalize).filter fun t => !t.isEmpty := by
  rw [tokenize_normalize, tokenize, split_join hts]

/-- A form is found among the tokens of the normalised text as often as among the normalised tokens. -/
theorem count_tokenize_normalize_join (hts : ∀ t ∈ ts, IsToken t) {target : Str} (h : target ≠ []) :
    (tokenize (normalize (join ts))).count target = (ts.map normalize).count target := by
  rw [tokenize_normalize_join hts, List.count_filter (by simpa using h)]

/-- A needle without whitespace occurs in the normalised text as often as in the normalised tokens. -/
theorem count_normalize_join {needle : Str} (h : IsToken needle) :
    count (normalize (join ts)) needle = (ts.map fun t => count (normalize t) needle).sum := by
  have hsep : ' ' ∉ needle := fun hs => by
    have := h.no_sep _ hs
    revert this
    decide
  simp only [count, if_neg h.ne_nil]
  rw [normalize_join, join, Seq.occurrences_intercalate h.ne_nil hsep, List.map_map]
  rfl

/-- A needle with whitespace occurs in no normalised token. -/
theorem count_normalize_eq_zero (hts : ∀ t ∈ ts, IsToken t) {needle : Str} {c : Char} (hc : c ∈ needle)
    (hs : isSpace c = true) : (ts.map fun t => count (normalize t) needle).sum = 0 := by
  rw [List.sum_eq_zero_iff_forall_eq_nat]
  intro n hn
  obtain ⟨t, ht, rfl⟩ := List.mem_map.mp hn
  rw [count, if_neg (List.ne_nil_of_mem hc)]
  refine Seq.occurrences_eq_zero hc fun hct => ?_
  rw [isSpace_of_mem_normalize (hts t ht) hct] at hs
  cases hs

end Texts

/-- The words of a loaded corpus are tokens. -/
theorem isToken_of_loadCorpus [Interpreter] {edition raw : Str} {c : Corpus} (h : loadCorpus edition raw = .ok c)
    {b : Bool} : ∀ t ∈ (c.words b).map (·.text), IsToken t := by
  obtain ⟨records, M, -, -, rfl⟩ := lists_of_loadCorpus h
  intro t ht
  obtain ⟨w, hw, rfl⟩ := List.mem_map.mp ht
  exact isToken_of_mem_words hw

/-- **Forms are counted alike word by word and over the running text.** -/
theorem countByForm_eq_count_tokens [Interpreter] {edition raw : Str} {c : Corpus} (h : loadCorpus edition raw = .ok c)
    (b : Bool) (form : Str) (hform : strip (normalize form) ≠ []) :
    countByForm c form b normalize = (tokenize (normalize (c.text b))).count (normalize form) := by
  rw [Corpus.text, count_tokenize_normalize_join (isToken_of_loadCorpus h) (ne_nil_of_strip hform), countByForm,
    if_neg hform, List.map_map, List.count_eq_countP, List.countP_map]
  exact List.countP_congr fun w _ => by simp

/-- A form of the small file. -/
theorem countByForm_eq_count_tokens_sample :
    countByForm sampleCorpus "allahi".toList true normalize =
      (tokenize (normalize (sampleCorpus.text true))).count (normalize "allahi".toList) :=
  @countByForm_eq_count_tokens defaultInterpreter _ _ _ loadUthmani_sample true "allahi".toList (by decide)

/-- **Substrings are counted alike inside the words and over the running text**; a query with whitespace, or that
normalises to nothing, counts nothing. -/
theorem countBySubstring_eq_count_text [Interpreter] {edition raw : Str} {c : Corpus}
    (h : loadCorpus edition raw = .ok c) (b : Bool) (q : Str) :
    (normalize q ≠ [] → (∀ ch ∈ normalize q, isSpace ch = false) →
      countBySubstring c q b normalize = count (normalize (c.text b)) (normalize q)) ∧
      (normalize q = [] ∨ (∃ ch ∈ normalize q, isSpace ch = true) → countBySubstring c q b normalize = 0) := by
  have hts : ∀ t ∈ (c.words b).map (·.text), IsToken t := isToken_of_loadCorpus h
  have hsum : ((c.words b).map fun w => count (normalize w.text) (normalize q)) =
      ((c.words b).map (·.text)).map fun t => count (normalize t) (normalize q) := by
    rw [List.map_map]
    rfl
  constructor
  · intro hne hsp
    have htok : IsToken (normalize q) := ⟨hne, hsp⟩
    have hstrip : strip (normalize q) ≠ [] := by
      rw [strip_eq_of_isToken htok]
      exact hne
    rw [countBySubstring, if_neg hstrip, Corpus.text, count_normalize_join htok, hsum]
  · intro hblank
    unfold countBySubstring
    by_cases hstrip : strip (normalize q) = []
    · rw [if_pos hstrip]
    · rcases hblank with hq | ⟨ch, hch, hsp⟩
      · exact absurd (by rw [hq]; rfl) hstrip
      · rw [if_neg hstrip, hsum, count_normalize_eq_zero hts hch hsp]

/-- A substring of the small file, inside a word and at the start of one. -/
theorem countBySubstring_eq_count_text_sample :
    countBySubstring sampleCorpus "al".toList true normalize =
      count (normalize (sampleCorpus.text true)) (normalize "al".toList) := by
  have hall : (normalize "al".toList).all (fun ch => !isSpace ch) = true := by decide
  exact (@countBySubstring_eq_count_text defaultInterpreter _ _ _ loadUthmani_sample true "al".toList).1 (by decide)
    (by simpa using hall)

end QuranAnalysis
