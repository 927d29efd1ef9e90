import Mathlib.Logic.Relation
import QuranAnalysis.Corpus.Outcomes
import QuranAnalysis.Claims.Main
import QuranAnalysis.Claims.Variants

/-!
# Edits that no report shows

`FileEdit` relates the text and the morphology before and after an edit that keeps what is counted.

- `FileEdit.sameText`, `FileEdit.sameMorphology`: each file is loaded with the same outcome (`SameOutcome`), the same
  exception or data with the same forms or counts.
- `FileEdit.sameContext`: so are the default contexts.
- `defaultReport_edits`: so no sequence of edits changes the outcome of the command.
-/

namespace QuranAnalysis

open Py Validation

section Edits

variable [Interpreter]

/-- The files that are read next to the register. -/
structure Files where
  text : Str
  qac : Str

/-- Edits of the files that keep what is counted: the text is respelled, token by token, with the same normal forms and
different tokens kept apart; the rows of the morphology are edited without a change to their words, roots and lemmas; or
its words are moved. -/
inductive FileEdit : Files → Files → Prop
  | respell {f : Str → Str} {hf : ∀ t, IsToken t → IsToken (f t)} {text text' : Str} (qac : Str)
      (hinj : Set.InjOn f {t | IsToken t}) (hkeep : ∀ t, IsToken t → normalize (f t) = normalize t)
      (h : RespelledText (.everyToken f hf) text text') : FileEdit ⟨text, qac⟩ ⟨text', qac⟩
  | annotate (text : Str) {qac qac' : Str} (h : Morphology.AnnotatedAlike qac qac') : FileEdit ⟨text, qac⟩ ⟨text, qac'⟩
  | reorder (text : Str) {qac qac' : Str} (h : Morphology.ReorderedText qac qac') : FileEdit ⟨text, qac⟩ ⟨text, qac'⟩

/-! ## The context -/

/-- An edited text is loaded with the same outcome. -/
theorem FileEdit.sameText {a b : Files} (h : FileEdit a b) :
    SameOutcome (Corpus.SameForms normalize) (loadSimpleClean a.text) (loadSimpleClean b.text) := by
  cases h with
  | respell qac hinj hkeep h =>
    refine .of_error_iff (fun e => loadCorpus_eq_error_of_respelled h) fun c c' hc hc' => ?_
    exact sameForms_everyToken hinj hkeep h hc hc'
  | annotate | reorder => exact .refl Corpus.SameForms.refl _

/-- And so is an edited morphology. -/
theorem FileEdit.sameMorphology {a b : Files} (h : FileEdit a b) :
    SameOutcome Morphology.SameCounts (Morphology.loadMorphology a.qac) (Morphology.loadMorphology b.qac) := by
  cases h with
  | respell => exact .refl Morphology.SameCounts.refl _
  | annotate text h =>
    refine .of_or ((Morphology.loadMorphology_annotatedAlike h).imp_right fun hm => ?_)
    obtain ⟨m, m', hm, hm', hwords⟩ := hm
    exact ⟨m, m', hm, hm', Morphology.sameCounts_of_wordsAlike hwords⟩
  | reorder text h =>
    refine .of_or ((Morphology.loadMorphology_reordered h).imp_right fun hm => ?_)
    obtain ⟨m, m', hm, hm', hperm, -⟩ := hm
    exact ⟨m, m', hm, hm', Morphology.sameCounts_of_perm hperm⟩

/-- The default contexts are told apart by no check. -/
theorem FileEdit.sameContext {a b : Files} (h : FileEdit a b) : SameOutcome CheckContext.SameForms
    (buildDefaultContext a.text a.qac) (buildDefaultContext b.text b.qac) :=
  h.sameText.bind fun _ _ hc => h.sameMorphology.bind fun _ _ hm => .ok ⟨.some hc, .some hm⟩

/-! ## The report -/

/-- One edit does not change the outcome. -/
theorem FileEdit.sameReport {V E : Type} [Pydantic V E] {a b : Files} (h : FileEdit a b) (document : V) :
    defaultReport document b.text b.qac = defaultReport document a.text a.qac := by
  rw [defaultReport, defaultReport]
  cases loadRegister document with
  | error e => rfl
  | ok r =>
    have hreport := h.sameContext.bind (S := (· = ·)) (f := (generateReport r.register · none))
      (g := (generateReport r.register · none)) fun ctx ctx' hctx => by
        rw [generateReport_congr hctx]
        exact .refl (fun _ => rfl) _
    simp only [hreport.eq]

/-- **Edits that keep what is counted do not change the outcome of the command**, report or exception: in any number,
in any order, and taken back. -/
theorem defaultReport_edits {V E : Type} [Pydantic V E] {a b : Files} (h : Relation.EqvGen FileEdit a b)
    (document : V) : defaultReport document b.text b.qac = defaultReport document a.text a.qac := by
  induction h with
  | rel a b h => exact h.sameReport document
  | refl a => rfl
  | symm a b _ ih => exact ih.symm
  | trans a b c _ _ ih ih' => exact ih'.trans ih

omit [Interpreter] in
/-- A verse gets a tatweel behind every token, and the 6236 words of the morphology other forms, in reverse. -/
theorem defaultReport_edits_sample : ∃ qac qac',
    @Morphology.loadMorphology defaultInterpreter qac = .ok (Morphology.sampleMorphology "qAl".toList) ∧
      @Morphology.loadMorphology defaultInterpreter qac' =
        .ok ⟨(Morphology.sampleMorphology "qaAlat".toList).words.reverse⟩ ∧
          ∀ document, @defaultReport defaultInterpreter _ _ plainPydantic document "1|1|bismiـ allahiـ".toList qac' =
            @defaultReport defaultInterpreter _ _ plainPydantic document "1|1|bismi allahi".toList qac := by
  have hform : Morphology.CleanColumn "qAl".toList := by decide
  have hform' : Morphology.CleanColumn "qaAlat".toList := by decide
  have hl := Morphology.loadable_sampleMorphology hform'
  obtain ⟨qac, hseg, hqac⟩ := @Morphology.Loadable.exists_raw defaultInterpreter _
    (Morphology.loadable_sampleMorphology hform)
  obtain ⟨qac₁, hseg₁, -⟩ := @Morphology.Loadable.exists_raw defaultInterpreter _ hl
  obtain ⟨qac₂, hseg₂, hqac₂⟩ := @Morphology.Loadable.exists_raw defaultInterpreter _
    (@Morphology.Loadable.reverse defaultInterpreter _ hl)
  have hrespell := @FileEdit.respell defaultInterpreter _ _ _ _ qac injOn_withTatweel normalize_withTatweel
    respelledText_withTatweel
  have hannotate := @FileEdit.annotate defaultInterpreter "1|1|bismiـ allahiـ".toList _ _
    (@Morphology.annotatedAlike_sample defaultInterpreter _ _ _ _ hseg hseg₁)
  have hreorder := @FileEdit.reorder defaultInterpreter "1|1|bismiـ allahiـ".toList _ _
    (@Morphology.reorderedText_reverse defaultInterpreter _ (Morphology.nodup_sampleMorphology _) _ _ hseg₁ hseg₂)
  have hedits := (Relation.EqvGen.rel _ _ hrespell).trans _ _ _ ((Relation.EqvGen.rel _ _ hannotate).trans _ _ _
    (.rel _ _ hreorder))
  exact ⟨qac, qac₂, hqac, hqac₂, @defaultReport_edits defaultInterpreter _ _ plainPydantic _ _ hedits⟩

end Edits

end QuranAnalysis
