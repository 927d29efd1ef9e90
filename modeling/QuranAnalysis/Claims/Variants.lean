import QuranAnalysis.Primitives.Variants
import QuranAnalysis.Morphology.Export
import QuranAnalysis.Morphology.Variants
import QuranAnalysis.Claims.Stability
import QuranAnalysis.Claims.Report

/-!
# What a report sees of its data

The checks look at the Simple-Clean corpus through the primitives with `normalize`, and at a morphology through its
counts. So they do not tell contexts apart whose Simple-Clean corpora have the same forms and whose morphologies have
the same counts (`CheckContext.SameForms`).

- `blind_of_mem`: no built-in check tells such contexts apart.
- `generateReport_congr`: so all registers have the same reports.
- `generateReport_respelled`: the spelling of the text shows in no report, as long as it keeps the normal forms of the
  tokens and the same basmalas are set apart.
- `generateReport_annotatedAlike`: of a morphology file it shows only which words it has with which roots and lemmas.
- `generateReport_reordered`: nor does it show their order.
-/

namespace QuranAnalysis

open Py

/-- The same counts of roots and lemmas. -/
structure Morphology.SameCounts (m m' : Morphology) : Prop where
  root : ∀ x, countByRoot m' x = countByRoot m x
  lem : ∀ x, countByLemma m' x = countByLemma m x

theorem Morphology.SameCounts.refl (m : Morphology) : m.SameCounts m := ⟨fun _ => rfl, fun _ => rfl⟩

/-- In Simple-Clean the same forms, and the same counts of roots and lemmas. -/
structure CheckContext.SameForms (ctx ctx' : CheckContext) : Prop where
  corpora : Option.Rel (Corpus.SameForms normalize) (ctx.corpora.lookup simpleClean) (ctx'.corpora.lookup simpleClean)
  morphology : Option.Rel Morphology.SameCounts ctx.morphology ctx'.morphology

/-- The corpora have the same forms, or none is loaded in both. -/
theorem CheckContext.SameForms.corpus {ctx ctx' : CheckContext} (h : ctx.SameForms ctx') :
    (∃ c c', ctx.corpus simpleClean = .ok c ∧ ctx'.corpus simpleClean = .ok c' ∧ c.SameForms normalize c') ∨
      ∃ e, ctx.corpus simpleClean = .error e ∧ ctx'.corpus simpleClean = .error e := by
  have hc := h.corpora
  unfold CheckContext.corpus
  generalize ctx.corpora.lookup simpleClean = o at hc ⊢
  generalize ctx'.corpora.lookup simpleClean = o' at hc ⊢
  cases hc with
  | none => exact .inr ⟨_, rfl, rfl⟩
  | some hc => exact .inl ⟨_, _, rfl, rfl, hc⟩

/-- A check that does not tell such contexts apart. -/
def Blind (fn : CheckFn) : Prop := ∀ claim ctx ctx', ctx.SameForms ctx' → fn claim ctx' = fn claim ctx

/-! ## Checks of one kind of data -/

/-- A check that reads a corpus. -/
theorem blind_corpus {g : Claim → Corpus → Result Measurement}
    (hg : ∀ claim c c', c.SameForms normalize c' → g claim c' = g claim c) :
    Blind fun claim ctx => ctx.corpus simpleClean >>= g claim := by
  intro claim ctx ctx' h
  rcases h.corpus with ⟨c, c', hc, hc', hcc⟩ | ⟨e, hc, hc'⟩
  · simp only [hc, hc', bind, Except.bind, hg claim c c' hcc]
  · simp only [hc, hc', bind, Except.bind]

/-- A check that reads nothing but the morphology. -/
theorem blind_morphology {fn : CheckFn} (hfn : ∀ claim ctx, fn claim ctx = fn claim ⟨[], ctx.morphology⟩)
    (hm : ∀ claim m m', m.SameCounts m' → fn claim ⟨[], some m'⟩ = fn claim ⟨[], some m⟩) : Blind fn := by
  intro claim ctx ctx' h
  rw [hfn claim ctx, hfn claim ctx']
  have hsame := h.morphology
  generalize ctx.morphology = o at hsame ⊢
  generalize ctx'.morphology = o' at hsame ⊢
  cases hsame with
  | none => rfl
  | some hsame => exact hm claim _ _ hsame

theorem blind_formCheck (form : Str) : Blind (formCheck form) :=
  blind_corpus fun _ _ _ h => by rw [countByForm_congr h]

theorem blind_dunyaAkhiraEqual : Blind dunyaAkhiraEqual :=
  blind_corpus fun _ _ _ h => by rw [countByForm_congr h, countByForm_congr h]

/-- The letters of a sura are the letters of its normal forms. -/
theorem suraLetterFreq_congr {c c' : Corpus} (h : c.SameForms normalize c') (n : Int) :
    suraLetterFreq c' n = suraLetterFreq c n := by
  unfold suraLetterFreq
  rcases h.sura n with ⟨s, s', hs, hs', hss⟩ | ⟨e, hs, hs'⟩
  · simp only [hs, hs', bind, Except.bind, letterFrequency_congr (hss.corpus c.edition c'.edition)]
  · simp only [hs, hs', bind, Except.bind]

theorem blind_letterCheck (n : Int) (letter : Char) : Blind (letterCheck n letter) :=
  blind_corpus fun _ _ _ h => by rw [suraLetterFreq_congr h]

theorem blind_lemmaCheck (lem : Str) : Blind (lemmaCheck lem) :=
  blind_morphology (fun _ _ => rfl) fun _ _ _ h => by simp only [lemmaCheck, h.lem]

theorem blind_lemmaPairCheck (lem lem' : Str) : Blind (lemmaPairCheck lem lem') :=
  blind_morphology (fun _ _ => rfl) fun _ _ _ h => by simp only [lemmaPairCheck, h.lem]

theorem blind_bahrBarrWaterRatio : Blind bahrBarrWaterRatio :=
  blind_morphology (fun _ _ => rfl) fun _ _ _ h => by simp only [bahrBarrWaterRatio, h.root]

/-- Words that are annotated alike have the same counts. -/
theorem Morphology.sameCounts_of_wordsAlike {m m' : Morphology}
    (h : List.Forall₂ Morphology.WordsAlike m.words m'.words) : m.SameCounts m' := by
  have hcount : ∀ column : MorphologyWord → Option Str,
      (∀ w w', Morphology.WordsAlike w w' → column w' = column w) → ∀ x,
        countByColumn column m' x = countByColumn column m x := by
    intro column hcolumn x
    have hp := countP_eq_of_forall₂ (p := fun w => decide (column w = some x))
      (q := fun w => decide (column w = some x)) (fun w w' hw => by rw [hcolumn w w' hw]) h
    rw [countByColumn, countByColumn, hp]
  exact ⟨hcount (·.root) fun _ _ hw => hw.root, hcount (·.lem) fun _ _ hw => hw.lem⟩

/-- The counts do not depend on the order of the words. -/
theorem Morphology.sameCounts_of_perm {m m' : Morphology} (h : m.words.Perm m'.words) : m.SameCounts m' := by
  have hcount : ∀ (column : MorphologyWord → Option Str) x,
      countByColumn column m' x = countByColumn column m x := fun column x => by
    rw [countByColumn, countByColumn, h.countP_eq]
  exact ⟨hcount (·.root), hcount (·.lem)⟩

/-! ## The runner and the report -/

section Registry

variable [Interpreter]

theorem blind_allahFirstOccurrence11 : Blind allahFirstOccurrence11 :=
  blind_corpus fun _ _ _ h => by rw [firstOccurrencePosition_congr h]

/-- **No built-in check tells contexts with the same forms and counts apart.** -/
theorem blind_of_mem : ∀ e ∈ builtinChecks, Blind e.2 := by
  simp only [builtinChecks, List.forall_mem_cons]
  refine ⟨?abjadAllah, ?abjadBasmala, ?yawm, ?shahr, ?ayyam, ?sab, ?dunya, ?qaf, ?noon, ?basmala, ?dunyaAkhira, ?hayat,
    ?malaika, ?rajul, ?bahr, ?allah, by simp⟩
  case abjadAllah | abjadBasmala | basmala => exact fun _ _ _ _ => rfl
  case yawm | shahr | ayyam => exact blind_lemmaCheck _
  case sab | dunya => exact blind_formCheck _
  case qaf | noon => exact blind_letterCheck _ _
  case dunyaAkhira => exact blind_dunyaAkhiraEqual
  case hayat | malaika | rajul => exact blind_lemmaPairCheck _ _
  case bahr => exact blind_bahrBarrWaterRatio
  case allah => exact blind_allahFirstOccurrence11

/-- Nor does the runner. -/
theorem evaluateClaim_congr {ctx ctx' : CheckContext} (h : ctx.SameForms ctx') (claim : Claim) :
    evaluateClaim claim ctx' none = evaluateClaim claim ctx none := by
  have hnone : ctx'.morphology = none ↔ ctx.morphology = none := by
    have hm := h.morphology
    generalize ctx.morphology = o at hm ⊢
    generalize ctx'.morphology = o' at hm ⊢
    cases hm with
    | none => exact Iff.rfl
    | some _ => simp
  cases hl : builtinChecks.lookup claim.id with
  | none => rw [evaluateClaim_of_none ctx hl, evaluateClaim_of_none ctx' hl]
  | some fn =>
    have hfn : fn claim ctx' = fn claim ctx := blind_of_mem _ (lookup_builtinChecks.mp hl) claim ctx ctx' h
    rw [evaluateClaim_of_some ctx hl, evaluateClaim_of_some ctx' hl, hfn]
    simp only [hnone]

/-- **Contexts with the same forms and counts have the same reports.** -/
theorem generateReport_congr {ctx ctx' : CheckContext} (h : ctx.SameForms ctx') (register : ClaimsRegister) :
    generateReport register ctx' none = generateReport register ctx none := by
  have hrun : runRegister register ctx' none = runRegister register ctx none := by
    unfold runRegister
    simp only [evaluateClaim_congr h]
  rw [generateReport, hrun, generateReport]

/-! ## Respelled files -/

omit [Interpreter] in
/-- Contexts whose corpora have the same forms, with one morphology. -/
theorem sameForms_corpora {ctx ctx' : CheckContext} {c c' : Corpus} (h : c.SameForms normalize c')
    (hc : ctx.corpora.lookup simpleClean = some c) (hc' : ctx'.corpora.lookup simpleClean = some c')
    (hm : ctx'.morphology = ctx.morphology) : ctx.SameForms ctx' := by
  constructor
  case corpora =>
    rw [hc, hc']
    exact .some h
  case morphology =>
    rw [hm]
    cases ctx.morphology with
    | none => exact .none
    | some m => exact .some (.refl m)

/-- A spelling that keeps different tokens apart, and keeps their normal forms, keeps the forms of a corpus. -/
theorem sameForms_everyToken {f : Str → Str} {hf : ∀ t, IsToken t → IsToken (f t)} (hinj : Set.InjOn f {t | IsToken t})
    (hkeep : ∀ t, IsToken t → normalize (f t) = normalize t) {raw raw' : Str}
    (h : RespelledText (.everyToken f hf) raw raw') {c c' : Corpus} (hc : loadSimpleClean raw = .ok c)
    (hc' : loadSimpleClean raw' = .ok c') : c.SameForms normalize c' := by
  refine sameForms_of_respelled (fun s a v hv => ?_) h hc hc' ?_
  · rw [SameTokens, Spelling.everyToken, List.forall₂_map_right_iff, List.forall₂_same]
    exact fun t ht => hkeep t (hv t ht)
  · obtain ⟨M, rfl, hM⟩ := (loadCorpus_respell h).2 c hc
    obtain rfl : (M.respell (.everyToken f hf)).corpus simpleClean = c' := Except.ok.inj (hM.symm.trans hc')
    rw [M.corpus_everyToken simpleClean hf hinj, basmalaAddresses_mapText]
    rfl

/-- **The spelling of the text shows in no report, and neither do other editions.** If a spelling keeps the normal form
of every token, and both files are accepted with the same basmalas set apart, then every register has the same report;
both conditions hold when different tokens are kept apart. -/
theorem generateReport_respelled {raw raw' : Str} :
    (∀ σ : Spelling, σ.KeepsForms normalize → RespelledText σ raw raw' → ∀ c c', loadSimpleClean raw = .ok c →
        loadSimpleClean raw' = .ok c' → c'.basmalaAddresses = c.basmalaAddresses → ∀ register ctx ctx',
          ctx.corpora.lookup simpleClean = some c → ctx'.corpora.lookup simpleClean = some c' →
            ctx'.morphology = ctx.morphology → generateReport register ctx' none = generateReport register ctx none) ∧
      ∀ (f : Str → Str) (hf : ∀ t, IsToken t → IsToken (f t)), Set.InjOn f {t | IsToken t} →
        (∀ t, IsToken t → normalize (f t) = normalize t) → RespelledText (.everyToken f hf) raw raw' →
          ((∃ c, loadSimpleClean raw = .ok c) ↔ ∃ c', loadSimpleClean raw' = .ok c') ∧
            ∀ c c', loadSimpleClean raw = .ok c → loadSimpleClean raw' = .ok c' → ∀ register ctx ctx',
              ctx.corpora.lookup simpleClean = some c → ctx'.corpora.lookup simpleClean = some c' →
                ctx'.morphology = ctx.morphology →
                  generateReport register ctx' none = generateReport register ctx none := by
  constructor
  · intro σ hσ h c c' hc hc' hb register ctx ctx' hl hl' hm
    exact generateReport_congr (sameForms_corpora (sameForms_of_respelled hσ h hc hc' hb) hl hl' hm) register
  · intro f hf hinj hkeep h
    refine ⟨(loadCorpus_respell h).1, fun c c' hc hc' register ctx ctx' hl hl' hm => ?_⟩
    exact generateReport_congr (sameForms_corpora (sameForms_everyToken hinj hkeep h hc hc') hl hl' hm) register

/-- The token with a tatweel behind it. -/
def withTatweel (t : Str) : Str := t ++ ['ـ']

omit [Interpreter] in
theorem isToken_withTatweel (t : Str) (ht : IsToken t) : IsToken (withTatweel t) := by
  refine ⟨by simp [withTatweel], fun c hc => ?_⟩
  rcases List.mem_append.mp hc with hc | hc
  · exact ht.2 c hc
  · rw [List.mem_singleton.mp hc]
    decide

omit [Interpreter] in
theorem injOn_withTatweel : Set.InjOn withTatweel {t | IsToken t} := fun _ _ _ _ h => List.append_cancel_right h

omit [Interpreter] in
theorem normalize_withTatweel (t : Str) (_ : IsToken t) : normalize (withTatweel t) = normalize t := by
  rw [withTatweel, normalize_append, show normalize ['ـ'] = [] by decide, List.append_nil]

omit [Interpreter] in
/-- A file of one verse, and the same with a tatweel behind every token. -/
theorem respelledText_withTatweel : @RespelledText defaultInterpreter (.everyToken withTatweel isToken_withTatweel)
    "1|1|bismi allahi".toList "1|1|bismiـ allahiـ".toList := by
  have hlines : splitlines "1|1|bismi allahi".toList =
      ["1".toList ++ '|' :: ("1".toList ++ '|' :: "bismi allahi".toList)] := by decide
  have hlines' : splitlines "1|1|bismiـ allahiـ".toList =
      ["1".toList ++ '|' :: ("1".toList ++ '|' :: "bismiـ allahiـ".toList)] := by decide
  have h1 : @int defaultInterpreter "1".toList = .ok 1 := by decide
  unfold RespelledText
  rw [hlines, hlines']
  exact .cons (@RespelledLine.of_numbers defaultInterpreter _ _ _ _ _ _ _ (by decide) (by decide) h1 h1 rfl) .nil

omit [Interpreter] in
/-- Every register has the same report on both. -/
theorem generateReport_respelled_tatweel :
    ∃ c c', @loadSimpleClean defaultInterpreter "1|1|bismi allahi".toList = .ok c ∧
      @loadSimpleClean defaultInterpreter "1|1|bismiـ allahiـ".toList = .ok c' ∧ ∀ register m,
        @generateReport defaultInterpreter register ⟨[(simpleClean, c')], m⟩ none =
          @generateReport defaultInterpreter register ⟨[(simpleClean, c)], m⟩ none := by
  have hload : ∃ c, @loadSimpleClean defaultInterpreter "1|1|bismi allahi".toList = .ok c := ⟨⟨simpleClean,
    [⟨1, [⟨1, 1, enumWords 1 1 ["bismi".toList, "allahi".toList]⟩], none⟩]⟩, by decide⟩
  obtain ⟨c, hload⟩ := hload
  obtain ⟨hiff, hreport⟩ := (@generateReport_respelled defaultInterpreter _ _).2 _ isToken_withTatweel
    injOn_withTatweel normalize_withTatweel respelledText_withTatweel
  obtain ⟨c', hc'⟩ := hiff.mp ⟨_, hload⟩
  exact ⟨c, c', hload, hc', fun register m => hreport c c' hload hc' register _ _ rfl rfl rfl⟩

/-! ## Files that are annotated alike -/

omit [Interpreter] in
/-- Contexts with the same corpora. -/
theorem sameForms_morphologies {m m' : Morphology} (h : m.SameCounts m') (corpora : Seq.Dict Str Corpus) :
    CheckContext.SameForms ⟨corpora, some m⟩ ⟨corpora, some m'⟩ := by
  refine ⟨?_, .some h⟩
  cases corpora.lookup simpleClean with
  | none => exact .none
  | some c => exact .some (.refl c)

/-- **Of a morphology file, a report shows only which words it has with which roots and lemmas.** Two files whose data
rows are annotated alike are both refused, with one exception, or every register has the same report on both. -/
theorem generateReport_annotatedAlike {raw raw' : Str} (h : Morphology.AnnotatedAlike raw raw') :
    (∃ e, Morphology.loadMorphology raw = .error e ∧ Morphology.loadMorphology raw' = .error e) ∨
      ∃ m m', Morphology.loadMorphology raw = .ok m ∧ Morphology.loadMorphology raw' = .ok m' ∧
        ∀ register corpora,
          generateReport register ⟨corpora, some m'⟩ none = generateReport register ⟨corpora, some m⟩ none := by
  rcases Morphology.loadMorphology_annotatedAlike h with he | ⟨m, m', hm, hm', hwords⟩
  · exact .inl he
  · have hcounts := Morphology.sameCounts_of_wordsAlike hwords
    exact .inr ⟨m, m', hm, hm', fun register corpora =>
      generateReport_congr (sameForms_morphologies hcounts corpora) register⟩

/-- Files with the rows of the sample are annotated alike, whatever its form. -/
theorem Morphology.annotatedAlike_sample {form form' raw raw' : Str}
    (h : Morphology.readSegments raw = .ok (Morphology.segmentsOf (Morphology.sampleMorphology form).exportEntries))
    (h' : Morphology.readSegments raw' =
      .ok (Morphology.segmentsOf (Morphology.sampleMorphology form').exportEntries)) :
    Morphology.AnnotatedAlike raw raw' := by
  refine Morphology.annotatedAlike_iff.mpr ⟨_, _, h, h', ?_⟩
  rw [Morphology.segmentsOf_exportEntries, Morphology.segmentsOf_exportEntries, Morphology.sampleMorphology,
    Morphology.sampleMorphology, List.map_map, List.map_map, List.forall₂_map_left_iff, List.forall₂_map_right_iff,
    List.forall₂_same]
  exact fun p _ => ⟨rfl, rfl, rfl, Iff.rfl⟩

omit [Interpreter] in
/-- Two files with 6236 words, whose forms are `qAl` and `qaAlat`. -/
theorem generateReport_annotatedAlike_forms : ∃ raw raw',
    @Morphology.loadMorphology defaultInterpreter raw = .ok (Morphology.sampleMorphology "qAl".toList) ∧
      @Morphology.loadMorphology defaultInterpreter raw' = .ok (Morphology.sampleMorphology "qaAlat".toList) ∧
        ∀ register corpora,
          @generateReport defaultInterpreter register ⟨corpora, some (Morphology.sampleMorphology "qaAlat".toList)⟩
              none =
            @generateReport defaultInterpreter register ⟨corpora, some (Morphology.sampleMorphology "qAl".toList)⟩
              none := by
  have hform : Morphology.CleanColumn "qAl".toList := by decide
  have hform' : Morphology.CleanColumn "qaAlat".toList := by decide
  obtain ⟨raw, hseg, hraw⟩ := @Morphology.Loadable.exists_raw defaultInterpreter _
    (Morphology.loadable_sampleMorphology hform)
  obtain ⟨raw', hseg', hraw'⟩ := @Morphology.Loadable.exists_raw defaultInterpreter _
    (Morphology.loadable_sampleMorphology hform')
  have h := @Morphology.annotatedAlike_sample defaultInterpreter _ _ _ _ hseg hseg'
  rcases @generateReport_annotatedAlike defaultInterpreter raw raw' h with ⟨e, he, -⟩ | ⟨m, m', hm, hm', hreport⟩
  · rw [hraw] at he
    cases he
  · obtain rfl := Except.ok.inj (hraw.symm.trans hm)
    obtain rfl := Except.ok.inj (hraw'.symm.trans hm')
    exact ⟨raw, raw', hraw, hraw', hreport⟩

/-! ## Files with their words in another order -/

/-- **The order of the words of a morphology file shows nowhere**, as long as the rows of each word stand together: two
files with the same rows, word by word, are both refused, with one exception, or give the same lookups and reports. -/
theorem generateReport_reordered {raw raw' : Str} (h : Morphology.ReorderedText raw raw') :
    (∃ e, Morphology.loadMorphology raw = .error e ∧ Morphology.loadMorphology raw' = .error e) ∨
      ∃ m m', Morphology.loadMorphology raw = .ok m ∧ Morphology.loadMorphology raw' = .ok m' ∧
        (∀ s a n, m'.word s a n = m.word s a n) ∧ ∀ register corpora,
          generateReport register ⟨corpora, some m'⟩ none = generateReport register ⟨corpora, some m⟩ none := by
  rcases Morphology.loadMorphology_reordered h with he | ⟨m, m', hm, hm', hperm, hword⟩
  · exact .inl he
  · have hcounts := Morphology.sameCounts_of_perm hperm
    exact .inr ⟨m, m', hm, hm', hword, fun register corpora =>
      generateReport_congr (sameForms_morphologies hcounts corpora) register⟩

/-- Files with the rows of a morphology, forwards and backwards. -/
theorem Morphology.reorderedText_reverse {m : Morphology} (hn : (m.words.map Morphology.wordKey).Nodup) {raw raw' : Str}
    (h : Morphology.readSegments raw = .ok (Morphology.segmentsOf m.exportEntries))
    (h' : Morphology.readSegments raw' = .ok (Morphology.segmentsOf (Morphology.mk m.words.reverse).exportEntries)) :
    Morphology.ReorderedText raw raw' := by
  refine ⟨_, _, h, h', Morphology.reordered_of_perm ?_ ?_⟩
  · rw [Morphology.segmentsOf_exportEntries, Morphology.segmentsOf_exportEntries]
    exact (List.reverse_perm _).symm.map _
  · rw [Morphology.segmentsOf_exportEntries, List.map_map]
    exact hn

omit [Interpreter] in
/-- Two files with 6236 words, one in reverse. -/
theorem generateReport_reordered_reverse : ∃ raw raw' m m',
    m = Morphology.sampleMorphology "qAl".toList ∧ m'.words = m.words.reverse ∧
      @Morphology.loadMorphology defaultInterpreter raw = .ok m ∧
        @Morphology.loadMorphology defaultInterpreter raw' = .ok m' ∧ (∀ s a n, m'.word s a n = m.word s a n) ∧
          ∀ register corpora, @generateReport defaultInterpreter register ⟨corpora, some m'⟩ none =
            @generateReport defaultInterpreter register ⟨corpora, some m⟩ none := by
  have hform : Morphology.CleanColumn "qAl".toList := by decide
  have hl := Morphology.loadable_sampleMorphology hform
  have hn := Morphology.nodup_sampleMorphology "qAl".toList
  generalize Morphology.sampleMorphology "qAl".toList = sample at hl hn ⊢
  have hl' := @Morphology.Loadable.reverse defaultInterpreter _ hl
  obtain ⟨raw, hseg, hraw⟩ := @Morphology.Loadable.exists_raw defaultInterpreter _ hl
  obtain ⟨raw', hseg', hraw'⟩ := @Morphology.Loadable.exists_raw defaultInterpreter _ hl'
  have h := @Morphology.reorderedText_reverse defaultInterpreter _ hn _ _ hseg hseg'
  rcases @generateReport_reordered defaultInterpreter raw raw' h with ⟨e, he, -⟩ | ⟨m, m', hm, hm', hword, hreport⟩
  · rw [hraw] at he
    cases he
  · obtain rfl := Except.ok.inj (hraw.symm.trans hm)
    obtain rfl := Except.ok.inj (hraw'.symm.trans hm')
    exact ⟨raw, raw', _, _, rfl, rfl, hraw, hraw', hword, hreport⟩

end Registry

end QuranAnalysis
