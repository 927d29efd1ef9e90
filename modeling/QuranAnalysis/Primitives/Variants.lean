import QuranAnalysis.Corpus.Respell
import QuranAnalysis.Primitives.Letters

/-!
# What the primitives see of a corpus

A primitive looks at the address of a word and at its normalised text. Corpora whose words agree in these have the same
forms (`Corpus.SameForms`), and no primitive tells them apart, whatever the spelling of their words:
`countByForm_congr`, `countBySubstring_congr`, `letterFrequency_congr` and `firstOccurrencePosition_congr`.

- `sameForms_of_respelled`: files whose verses have the same normal forms token by token load to corpora with the same
  forms, if the same basmalas are set apart.
-/

namespace QuranAnalysis

open Py

/-- The same address in sura and aya, and the same normalised text. -/
structure Word.SameForm (norm : Str → Str) (w w' : Word) : Prop where
  sura : w'.sura = w.sura
  aya : w'.aya = w.aya
  form : norm w'.text = norm w.text

/-- The same number, and words with the same forms, with and without the opening basmala. -/
structure Sura.SameForms (norm : Str → Str) (s s' : Sura) : Prop where
  number : s'.number = s.number
  words : ∀ b, List.Forall₂ (Word.SameForm norm) (s.words b) (s'.words b)

/-- Sura by sura the same forms. -/
def Corpus.SameForms (norm : Str → Str) (c c' : Corpus) : Prop := List.Forall₂ (Sura.SameForms norm) c.suras c'.suras

theorem Corpus.SameForms.refl {norm : Str → Str} (c : Corpus) : c.SameForms norm c :=
  List.forall₂_same.mpr fun _ _ => ⟨rfl, fun _ => List.forall₂_same.mpr fun _ _ => ⟨rfl, rfl, rfl⟩⟩

section Primitives

variable {norm : Str → Str} {c c' : Corpus}

/-- Word by word the same forms. -/
theorem Corpus.SameForms.words (h : c.SameForms norm c') (b : Bool) :
    List.Forall₂ (Word.SameForm norm) (c.words b) (c'.words b) :=
  List.rel_flatMap h fun _ _ hs => hs.words b

/-- The suras with a number have the same forms, or there is none in both. -/
theorem Corpus.SameForms.sura (h : c.SameForms norm c') (n : Int) :
    (∃ s s', c.sura n = .ok s ∧ c'.sura n = .ok s' ∧ s.SameForms norm s') ∨
      ∃ e, c.sura n = .error e ∧ c'.sura n = .error e := by
  have hfind : Option.Rel (Sura.SameForms norm) (c.suras.find? (·.number = n)) (c'.suras.find? (·.number = n)) :=
    find?_of_forall₂ (fun s s' hs => by rw [hs.number]) h
  unfold Corpus.sura
  generalize c.suras.find? _ = o at hfind
  generalize c'.suras.find? _ = o' at hfind
  cases hfind with
  | none => exact .inr ⟨_, rfl, rfl⟩
  | some hs => exact .inl ⟨_, _, rfl, rfl, hs⟩

/-- The corpora of single suras have the same forms. -/
theorem Sura.SameForms.corpus {s s' : Sura} (h : s.SameForms norm s') (edition edition' : Str) :
    (⟨edition, [s]⟩ : Corpus).SameForms norm ⟨edition', [s']⟩ := .cons h .nil

theorem countByForm_congr (h : c.SameForms norm c') (form : Str) (b : Bool) :
    countByForm c' form b norm = countByForm c form b norm := by
  have hcount : (c'.words b).countP (fun w => norm w.text = norm form) =
      (c.words b).countP fun w => norm w.text = norm form :=
    (countP_eq_of_forall₂ (fun w w' hw => by rw [hw.form]) (h.words b)).symm
  rw [countByForm, hcount, countByForm]

theorem countBySubstring_congr (h : c.SameForms norm c') (q : Str) (b : Bool) :
    countBySubstring c' q b norm = countBySubstring c q b norm := by
  have hmap : ((c'.words b).map fun w => count (norm w.text) (norm q)) =
      (c.words b).map fun w => count (norm w.text) (norm q) :=
    (map_eq_of_forall₂ (fun w w' hw => by rw [hw.form]) (h.words b)).symm
  rw [countBySubstring, hmap, countBySubstring]

theorem letterFrequency_congr (h : c.SameForms norm c') (b : Bool) :
    letterFrequency c' b norm = letterFrequency c b norm := by
  have hforms : (c.words b).map (fun w => norm w.text) = (c'.words b).map fun w => norm w.text :=
    map_eq_of_forall₂ (fun w w' hw => hw.form.symm) (h.words b)
  rw [letterFrequency_eq_tally, letterFrequency_eq_tally, normalizedChars, normalizedChars, List.flatMap_def,
    List.flatMap_def, hforms]

theorem firstOccurrencePosition_congr (h : c.SameForms norm c') (form : Str) (b : Bool) :
    firstOccurrencePosition c' form b norm = firstOccurrencePosition c form b norm := by
  have hfind : Option.Rel (Word.SameForm norm) ((c.words b).find? fun w => norm w.text = norm form)
      ((c'.words b).find? fun w => norm w.text = norm form) :=
    find?_of_forall₂ (fun w w' hw => by rw [hw.form]) (h.words b)
  have hpos : ((c'.words b).find? fun w => norm w.text = norm form).map (fun w => (w.sura, w.aya)) =
      ((c.words b).find? fun w => norm w.text = norm form).map fun w => (w.sura, w.aya) := by
    generalize (c.words b).find? _ = o at hfind ⊢
    generalize (c'.words b).find? _ = o' at hfind ⊢
    cases hfind with
    | none => rfl
    | some hw => rw [Option.map_some, Option.map_some, hw.sura, hw.aya]
  rw [firstOccurrencePosition, hpos, firstOccurrencePosition]

end Primitives

/-! ## Respelled files -/

/-- Token by token the same normalised text. -/
abbrev SameTokens (norm : Str → Str) : List Str → List Str → Prop := List.Forall₂ fun t t' => norm t' = norm t

/-- A spelling that keeps the normalised text of every token. -/
def Spelling.KeepsForms (norm : Str → Str) (σ : Spelling) : Prop :=
  ∀ s a v, (∀ t ∈ v, IsToken t) → SameTokens norm v (σ.verse s a v)

section Respelled

variable {norm : Str → Str}

theorem sameForm_enumWords (s a : Int) {v v' : List Str} (h : SameTokens norm v v') :
    List.Forall₂ (Word.SameForm norm) (enumWords s a v) (enumWords s a v') :=
  Seq.forall₂_mapIdx h fun _ _ _ _ _ ht => ⟨rfl, rfl, ht⟩

theorem sameForm_ayasOf (n : Int) {vs vs' : List (List Str)} (h : List.Forall₂ (SameTokens norm) vs vs') :
    List.Forall₂ (Word.SameForm norm) ((ayasOf n vs).flatMap (·.words)) ((ayasOf n vs').flatMap (·.words)) :=
  List.rel_flatMap (R := fun ay ay' : Aya => List.Forall₂ (Word.SameForm norm) ay.words ay'.words)
    (Seq.forall₂_mapIdx h fun _ _ _ _ _ hv => sameForm_enumWords _ _ hv) fun _ _ hay => hay

/-- **Suras whose verses have the same normal forms have the same forms, if both or none of them open.** -/
theorem sameForms_suraOf {ref ref' : List Str} (hr : ref'.length = ref.length) {vs vs' : List (List Str)}
    (h : List.Forall₂ (SameTokens norm) vs vs') {n : Int}
    (ho : Opens ref' n (vs'.headD []) ↔ Opens ref n (vs.headD [])) :
    (suraOf ref n vs).SameForms norm (suraOf ref' n vs') := by
  refine ⟨rfl, fun b => ?_⟩
  rw [words_suraOf, words_suraOf, opening, opening, bodies, bodies, hr]
  by_cases hopens : Opens ref n (vs.headD [])
  · have hopens' := ho.mpr hopens
    simp only [if_pos hopens, if_pos hopens', Option.map_some, Option.getD_some]
    cases h with
    | nil => simp [Opens] at hopens
    | cons hv h =>
      refine List.rel_append ?_ (sameForm_ayasOf n (.cons (List.forall₂_drop _ hv) h))
      cases b with
      | false => exact .nil
      | true => exact sameForm_enumWords _ _ (List.forall₂_take _ hv)
  · have hopens' := mt ho.mp hopens
    simp only [if_neg hopens, if_neg hopens', Option.map_none, Option.getD_none, ite_self]
    exact List.rel_append .nil (sameForm_ayasOf n h)

/-- A basmala is set apart exactly from a verse that opens with it. -/
theorem isSome_separatedBasmala {ref : List Str} {n : Int} {vs : List (List Str)} :
    (suraOf ref n vs).separatedBasmala.isSome ↔ Opens ref n (vs.headD []) := by
  rw [suraOf, Option.isSome_map, opening]
  split
  · next h => exact iff_of_true rfl h
  · next h => exact iff_of_false (by simp) h

/-- **A respelled mushaf has the same forms, if the same basmalas are set apart.** -/
theorem Mushaf.sameForms_respell {σ : Spelling} (hσ : σ.KeepsForms norm) (M : Mushaf) {edition : Str}
    (hb : ((M.respell σ).corpus edition).basmalaAddresses = (M.corpus edition).basmalaAddresses) :
    (M.corpus edition).SameForms norm ((M.respell σ).corpus edition) := by
  have hsame : List.Forall₂ (· = ·) M.suras M.suras := List.forall₂_same.mpr fun _ _ => rfl
  have hlen : (M.respell σ).basmala.length = M.basmala.length := by
    rw [M.basmala_respell]
    exact (hσ 1 1 _ M.isToken_basmala).length_eq.symm
  rw [Corpus.SameForms, Mushaf.corpus, Mushaf.corpus, Mushaf.respell, List.mapIdx_mapIdx]
  refine Seq.forall₂_mapIdx hsame fun n vs _ hvs _ he => ?_
  subst he
  refine sameForms_suraOf hlen ?_ ?_
  · -- the verses of the sura
    have hverses : List.Forall₂ (SameTokens norm) (vs.mapIdx fun _ v => v)
        (vs.mapIdx fun a v => σ.verse ((n : Int) + 1) ((a : Int) + 1) v) := by
      refine Seq.forall₂_mapIdx (List.forall₂_same.mpr fun _ _ => rfl) fun a v _ hv _ he => ?_
      subst he
      exact hσ _ _ v (M.isToken vs (List.mem_of_getElem? hvs) v (List.mem_of_getElem? hv))
    rwa [show vs.mapIdx (fun _ v => v) = vs by simp [List.mapIdx_eq_iff]] at hverses
  · -- its opening basmala
    have hn := congrArg (·[n]?) hb
    simp only [Corpus.basmalaAddresses, Mushaf.corpus, Mushaf.respell, List.getElem?_map, List.getElem?_mapIdx, hvs,
      Option.map_some, Option.some.injEq, Prod.mk.injEq] at hn
    have hsome := congrArg Option.isSome hn.2
    rw [Option.isSome_map, Option.isSome_map] at hsome
    rw [← isSome_separatedBasmala, ← isSome_separatedBasmala, ← hsome]
    rfl

/-- **Respelled files load to corpora with the same forms**, if the spelling keeps the normal forms and the same
basmalas are set apart. -/
theorem sameForms_of_respelled [Interpreter] {σ : Spelling} (hσ : σ.KeepsForms norm) {edition raw raw' : Str}
    (h : RespelledText σ raw raw') {c c' : Corpus} (hc : loadCorpus edition raw = .ok c)
    (hc' : loadCorpus edition raw' = .ok c') (hb : c'.basmalaAddresses = c.basmalaAddresses) : c.SameForms norm c' := by
  obtain ⟨M, rfl, hM⟩ := (loadCorpus_respell h).2 c hc
  obtain rfl : (M.respell σ).corpus edition = c' := Except.ok.inj (hM.symm.trans hc')
  exact M.sameForms_respell hσ hb

end Respelled

end QuranAnalysis
