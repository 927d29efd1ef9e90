import Mathlib.Algebra.BigOperators.Ring.List
import QuranAnalysis.Corpus.Conserve
import QuranAnalysis.Primitives.Letters
import QuranAnalysis.Claims.Checks

/-!
# Counts add up

Every count for a fixed query is a sum over the words (`IsWordCount.exists_sum`). So counts add up over the parts into
which the words of a corpus fall:

- `wordCount_basmala`: with the separated basmalas a count grows by the same count over these basmalas alone;
- `wordCount_suras`: a count over the corpus is the sum of the counts over its suras;
- `counts_additive`: both for loaded corpora, where every sura is found by its number and every separated basmala has
  the length of aya 1:1.
-/

namespace QuranAnalysis

open Py

/-- The counts over the words of a corpus, for a fixed query and normaliser. -/
inductive IsWordCount (normalizer : Str → Str) : (Corpus → Bool → Nat) → Prop
  | form (form : Str) : IsWordCount normalizer fun c b => countByForm c form b normalizer
  | substring (q : Str) : IsWordCount normalizer fun c b => countBySubstring c q b normalizer
  | letter (d : Char) : IsWordCount normalizer fun c b => ((letterFrequency c b normalizer).lookup d).getD 0

/-- The corpus of one sura. -/
def singleSura (c : Corpus) (n : Int) : Result Corpus := do
  let s ← c.sura n
  .ok ⟨c.edition, [s]⟩

/-- The separated basmalas alone, as a corpus. -/
def Corpus.basmalas (c : Corpus) : Corpus :=
  ⟨c.edition, c.suras.map fun s => ⟨s.number, [⟨s.number, basmalaAya, s.separatedBasmala.getD []⟩], none⟩⟩

/-! ## Sums over words -/

/-- **Every count is a sum over the words.** -/
theorem IsWordCount.exists_sum {normalizer : Str → Str} {f : Corpus → Bool → Nat} (hf : IsWordCount normalizer f) :
    ∃ g : Word → Nat, ∀ c b, f c b = ((c.words b).map g).sum := by
  cases hf with
  | form form =>
    by_cases hs : strip (normalizer form) = []
    · refine ⟨fun _ => 0, fun c b => ?_⟩
      simp [countByForm, hs]
    · refine ⟨fun w => if decide (normalizer w.text = normalizer form) then 1 else 0, fun c b => ?_⟩
      show countByForm c form b normalizer = _
      rw [countByForm, if_neg hs, Seq.countP_eq_sum_map]
  | substring q =>
    by_cases hs : strip (normalizer q) = []
    · refine ⟨fun _ => 0, fun c b => ?_⟩
      simp [countBySubstring, hs]
    · refine ⟨fun w => count (normalizer w.text) (normalizer q), fun c b => ?_⟩
      show countBySubstring c q b normalizer = _
      rw [countBySubstring, if_neg hs]
  | letter d =>
    refine ⟨fun w => (normalizer w.text).count d, fun c b => ?_⟩
    show ((letterFrequency c b normalizer).lookup d).getD 0 = _
    rw [lookup_letterFrequency, normalizedChars, List.count_flatMap]
    rfl

/-- A sura's words with its separated basmala. -/
theorem Sura.words_true (s : Sura) : s.words true = s.separatedBasmala.getD [] ++ s.words false := by
  unfold Sura.words
  cases s.separatedBasmala <;> rfl

theorem Corpus.words_basmalas (c : Corpus) (b : Bool) :
    c.basmalas.words b = c.suras.flatMap fun s => s.separatedBasmala.getD [] := by
  rw [Corpus.words, Corpus.basmalas, List.flatMap_map]
  refine List.flatMap_congr fun s _ => ?_
  cases b <;> simp [Sura.words]

/-- **With the basmalas a count grows by the count over the basmalas.** -/
theorem wordCount_basmala {normalizer : Str → Str} {f : Corpus → Bool → Nat} (hf : IsWordCount normalizer f)
    (c : Corpus) : f c true = f c false + f c.basmalas false := by
  obtain ⟨g, hg⟩ := hf.exists_sum
  rw [hg, hg, hg, Corpus.words_basmalas, Corpus.words, Corpus.words, Seq.sum_map_flatMap, Seq.sum_map_flatMap,
    Seq.sum_map_flatMap, ← List.sum_map_add]
  congr 1
  refine List.map_congr_left fun s _ => ?_
  rw [Sura.words_true, List.map_append, List.sum_append_nat, Nat.add_comm]

/-- **A count over a corpus is the sum of the counts over its suras.** -/
theorem wordCount_suras {normalizer : Str → Str} {f : Corpus → Bool → Nat} (hf : IsWordCount normalizer f)
    (c : Corpus) (b : Bool) :
    f c b = ((c.suras.map fun s => (⟨c.edition, [s]⟩ : Corpus)).map fun sub => f sub b).sum := by
  obtain ⟨g, hg⟩ := hf.exists_sum
  rw [hg, Corpus.words, Seq.sum_map_flatMap, List.map_map]
  congr 1
  refine List.map_congr_left fun s _ => ?_
  rw [Function.comp_apply, hg, Corpus.words, List.flatMap_singleton]

/-! ## Loaded corpora -/

section Mushaf

variable {M : Mushaf} {edition : Str}

/-- Every sura of a mushaf is found by its number. -/
theorem corpus_sura_number {s : Sura} (hs : s ∈ (M.corpus edition).suras) :
    (M.corpus edition).sura s.number = .ok s := by
  obtain ⟨n, vs, hv, rfl⟩ := Seq.mem_mapIdx_iff.mp hs
  exact corpus_sura hv

/-- So the suras are found one after the other. -/
theorem mapM_suras {β : Type} (M : Mushaf) (edition : Str) (g : Sura → β) :
    ((oneTo (M.corpus edition).suras.length).mapM fun n => do
        let s ← (M.corpus edition).sura n
        .ok (g s) : Result (List β)) = .ok ((M.corpus edition).suras.map g) := by
  have hnum : oneTo (M.corpus edition).suras.length = (M.corpus edition).suras.map (·.number) := by
    rw [Mushaf.corpus, Seq.map_mapIdx, List.length_mapIdx, ← mapIdx_eq_oneTo]
    rfl
  rw [hnum, List.mapM_map]
  refine mapM_eq_ok_map fun s hs => ?_
  rw [Function.comp_apply, corpus_sura_number hs]
  rfl

/-- A separated basmala has as many words as verse 1 of sura 1. -/
theorem length_separatedBasmala {s : Sura} (hs : s ∈ (M.corpus edition).suras) :
    (s.separatedBasmala.getD []).length = if s.separatedBasmala.isSome then M.basmala.length else 0 := by
  obtain ⟨n, vs, -, rfl⟩ := Seq.mem_mapIdx_iff.mp hs
  cases ho : opening M.basmala ((n : Int) + 1) vs with
  | none => simp [suraOf, ho]
  | some o =>
    obtain ⟨-, -, hlen⟩ := length_opening ho
    simp [suraOf, ho, hlen]

/-- The words of the separated basmalas. -/
theorem length_words_true (M : Mushaf) (edition : Str) :
    ((M.corpus edition).words true).length = ((M.corpus edition).words false).length +
      M.basmala.length * (M.corpus edition).suras.countP fun s => s.separatedBasmala.isSome := by
  rw [Corpus.words, Corpus.words, List.length_flatMap, List.length_flatMap, Seq.countP_eq_sum_map,
    ← List.sum_map_mul_left, ← List.sum_map_add]
  congr 1
  refine List.map_congr_left fun s hs => ?_
  rw [Sura.words_true, List.length_append, length_separatedBasmala hs, Nat.add_comm]
  split <;> simp

end Mushaf

/-- **Counts over a loaded corpus add up** over the separated basmalas and over the suras. -/
theorem counts_additive [Interpreter] {edition raw : Str} {c : Corpus} (h : loadCorpus edition raw = .ok c)
    (normalizer : Str → Str) :
    (∀ f, IsWordCount normalizer f → f c true = f c false + f c.basmalas false) ∧
      (∃ subs, (oneTo c.suras.length).mapM (singleSura c) = .ok subs ∧
        ∀ f, IsWordCount normalizer f → ∀ b, f c b = (subs.map fun sub => f sub b).sum) ∧
      (∃ freqs, (oneTo c.suras.length).mapM (suraLetterFreq c) = .ok freqs ∧
        ∀ d, ((letterFrequency c false normalize).lookup d).getD 0 =
          (freqs.map fun freq => (freq.lookup d).getD 0).sum) ∧
      ∃ first, c.aya 1 1 = .ok first ∧ (c.words true).length = (c.words false).length +
        first.words.length * c.suras.countP fun s => s.separatedBasmala.isSome := by
  obtain ⟨records, M, -, -, rfl⟩ := lists_of_loadCorpus h
  refine ⟨fun f hf => wordCount_basmala hf _, ⟨_, mapM_suras M edition _, fun f hf b => wordCount_suras hf _ b⟩,
    ⟨_, mapM_suras M edition _, fun d => ?_⟩, ⟨_, corpus_first M edition, ?_⟩⟩
  · rw [List.map_map]
    exact (wordCount_suras (.letter d) _ false).trans (by rw [List.map_map]; rfl)
  · rw [length_words_true, length_enumWords]

/-- The small file gains the two words of the basmala of sura 2. -/
theorem counts_additive_sample :
    ∃ first, sampleCorpus.aya 1 1 = .ok first ∧ (sampleCorpus.words true).length =
      (sampleCorpus.words false).length +
        first.words.length * sampleCorpus.suras.countP fun s => s.separatedBasmala.isSome :=
  (@counts_additive defaultInterpreter _ _ _ loadUthmani_sample normalize).2.2.2

end QuranAnalysis
