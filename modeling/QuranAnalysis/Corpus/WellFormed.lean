import QuranAnalysis.Corpus.Export

/-!
# The corpora that a file can load to

`Corpus.WellFormed` says from the corpus alone what the loader establishes: suras and ayas numbered from 1, words that
carry their addresses, and an opening basmala set apart exactly where verse 1 goes on behind it.

- `suraOf_verses`: a well-formed sura is built from its verses.
- `wellFormed_iff`: the well-formed corpora are the corpora of mushafs.
- `loadCorpus_range_iff`: they are the corpora that some file loads to, if their numbers can be written.
-/

namespace QuranAnalysis

open Py

/-! ## Well-formed corpora -/

/-- The texts of words. -/
def texts (ws : List Word) : List Str := ws.map (·.text)

/-- Tokens that are numbered from 0 and carry the address of their aya. -/
structure Enumerates (sura aya : Int) (ws : List Word) : Prop where
  address : ws = enumWords sura aya (texts ws)
  isToken : ∀ t ∈ texts ws, IsToken t

/-- A sura of ayas `1..k` whose opening is set apart exactly if its verse 1 opens with the basmala `ref`. -/
structure Sura.WellFormed (ref : List Str) (s : Sura) : Prop where
  ne_nil : s.ayas ≠ []
  numbers : s.ayas.map (·.number) = oneTo s.ayas.length
  words : ∀ a ∈ s.ayas, a.sura = s.number ∧ Enumerates s.number a.number a.words
  apart : ∀ ws ∈ s.separatedBasmala, Enumerates s.number basmalaAya ws ∧ ws.length = ref.length ∧
    ∀ a ∈ s.ayas.head?, Opens ref s.number (texts (ws ++ a.words))
  kept : s.separatedBasmala = none → ∀ a ∈ s.ayas.head?, ¬ Opens ref s.number (texts a.words)

/-- The tokens of verse 1 of the first sura. -/
def Corpus.basmalaTokens (c : Corpus) : List Str :=
  texts (((c.suras.head?.bind (·.ayas.head?)).map (·.words)).getD [])

/-- A corpus of suras `1..N` with the basmala of its first verse. -/
structure Corpus.WellFormed (c : Corpus) : Prop where
  ne_nil : c.suras ≠ []
  numbers : c.suras.map (·.number) = oneTo c.suras.length
  suras : ∀ s ∈ c.suras, s.WellFormed c.basmalaTokens

/-! ## A mushaf for a well-formed corpus -/

/-- The verses of a sura, the opening back in front of verse 1. -/
def Sura.verses (s : Sura) : List (List Str) := s.ayas.map fun a => texts (exportWords s a)

section Sura

variable {ref : List Str} {s : Sura}

theorem opening_cons (n : Int) (v : List Str) (vs : List (List Str)) :
    opening ref n (v :: vs) = if Opens ref n v then some (v.take ref.length) else none := rfl

theorem bodies_cons (n : Int) (v : List Str) (vs : List (List Str)) :
    bodies ref n (v :: vs) = if Opens ref n v then v.drop ref.length :: vs else v :: vs := rfl

/-- Ayas that are numbered from 1 on are numbered by position. -/
theorem number_of_getElem? (hn : s.ayas.map (·.number) = oneTo s.ayas.length) {i : Nat} {a : Aya}
    (ha : s.ayas[i]? = some a) : a.number = (i : Int) + 1 := by
  obtain ⟨hi, -⟩ := List.getElem?_eq_some_iff.mp ha
  have h := congrArg (·[i]?) hn
  simp only [List.getElem?_map, ha, getElem?_oneTo, if_pos hi] at h
  exact Option.some.inj h

/-- Ayas that carry their addresses are built from their texts. -/
theorem ayasOf_texts (hn : s.ayas.map (·.number) = oneTo s.ayas.length)
    (hw : ∀ a ∈ s.ayas, a.sura = s.number ∧ Enumerates s.number a.number a.words) :
    ayasOf s.number (s.ayas.map fun a => texts a.words) = s.ayas := by
  apply List.ext_getElem?
  intro i
  rw [getElem?_ayasOf, List.getElem?_map]
  cases ha : s.ayas[i]? with
  | none => rfl
  | some a =>
    have hnum := number_of_getElem? hn ha
    obtain ⟨hs, he⟩ := hw a (List.mem_of_getElem? ha)
    have haddr := he.address
    rw [hnum] at haddr
    simp only [Option.map_some, ← haddr, Option.some.injEq]
    rw [← hs, ← hnum]

/-- The verses of a sura: only verse 1 has something in front. -/
theorem verses_eq {a : Aya} {rest : List Aya} (h : s.ayas = a :: rest)
    (hn : s.ayas.map (·.number) = oneTo s.ayas.length) :
    s.verses = texts (s.separatedBasmala.getD [] ++ a.words) :: rest.map fun a => texts a.words := by
  have ha : a.number = 1 := by simpa using number_of_getElem? hn (i := 0) (a := a) (by rw [h]; rfl)
  have hrest : rest.map (fun b => texts (exportWords s b)) = rest.map fun b => texts b.words := by
    refine List.map_congr_left fun b hb => ?_
    obtain ⟨i, hi⟩ := List.mem_iff_getElem?.mp hb
    have hb := number_of_getElem? hn (i := i + 1) (a := b) (by rw [h]; exact hi)
    have hne : b.number ≠ 1 := by omega
    rw [exportWords, if_neg hne, List.nil_append]
  rw [Sura.verses, h, List.map_cons, hrest, exportWords, if_pos ha]

/-- **A well-formed sura is built from its verses.** -/
theorem suraOf_verses (h : s.WellFormed ref) : suraOf ref s.number s.verses = s := by
  obtain ⟨a, rest, hayas⟩ := List.exists_cons_of_ne_nil h.ne_nil
  have hbuilt := ayasOf_texts h.numbers h.words
  rw [hayas, List.map_cons] at hbuilt
  have hv := verses_eq hayas h.numbers
  obtain ⟨n, ayas, sep⟩ := s
  obtain rfl : ayas = a :: rest := hayas
  rw [hv, suraOf, opening_cons, bodies_cons]
  cases sep with
  | none =>
    have hno := h.kept rfl a rfl
    rw [Option.getD_none, List.nil_append, if_neg hno, if_neg hno, Option.map_none]
    exact congrArg (fun ayas => (⟨n, ayas, none⟩ : Sura)) hbuilt
  | some ws =>
    obtain ⟨hws, hlen, hop⟩ := h.apart ws rfl
    have hop := hop a rfl
    have hl : (texts ws).length = ref.length := by rw [texts, List.length_map, hlen]
    have hsplit : texts (ws ++ a.words) = texts ws ++ texts a.words := List.map_append
    rw [Option.getD_some, if_pos hop, if_pos hop, Option.map_some, hsplit, ← hl, List.take_left, List.drop_left,
      ← hws.address]
    exact congrArg (fun ayas => (⟨n, ayas, some ws⟩ : Sura)) hbuilt

/-- The verses of a well-formed sura are tokens. -/
theorem isToken_verses (h : s.WellFormed ref) : ∀ v ∈ s.verses, ∀ t ∈ v, IsToken t := by
  obtain ⟨a, rest, hayas⟩ := List.exists_cons_of_ne_nil h.ne_nil
  rw [verses_eq hayas h.numbers]
  have hwords : ∀ b ∈ s.ayas, ∀ t ∈ texts b.words, IsToken t := fun b hb => (h.words b hb).2.isToken
  have hsep : ∀ t ∈ texts (s.separatedBasmala.getD []), IsToken t := by
    cases hb : s.separatedBasmala with
    | none => simp [texts]
    | some ws => exact (h.apart ws hb).1.isToken
  intro v hv t ht
  rcases List.mem_cons.mp hv with rfl | hv
  · rw [texts, List.map_append, List.mem_append] at ht
    rcases ht with ht | ht
    · exact hsep t ht
    · exact hwords a (by rw [hayas]; exact List.mem_cons_self) t ht
  · obtain ⟨b, hb, rfl⟩ := List.mem_map.mp hv
    exact hwords b (by rw [hayas]; exact List.mem_cons_of_mem a hb) t ht

/-- What is enumerated carries its addresses. -/
theorem enumerates_enumWords {n k : Int} {v : List Str} (hv : ∀ t ∈ v, IsToken t) :
    Enumerates n k (enumWords n k v) := by
  have ht : texts (enumWords n k v) = v := map_text_enumWords n k v
  exact ⟨by rw [ht], by rwa [ht]⟩

/-- A sura that is built from verses is well-formed. -/
theorem wellFormed_suraOf {n : Int} {vs : List (List Str)} (hne : vs ≠ []) (hvs : ∀ v ∈ vs, ∀ t ∈ v, IsToken t) :
    (suraOf ref n vs).WellFormed ref := by
  obtain ⟨v, vs, rfl⟩ := List.exists_cons_of_ne_nil hne
  have hbodies : ∀ u ∈ bodies ref n (v :: vs), ∀ t ∈ u, IsToken t := by
    intro u hu t ht
    rw [bodies_cons] at hu
    split at hu
    · rcases List.mem_cons.mp hu with rfl | hu
      · exact hvs v List.mem_cons_self t (List.mem_of_mem_drop ht)
      · exact hvs u (List.mem_cons_of_mem v hu) t ht
    · exact hvs u hu t ht
  have hlen : (suraOf ref n (v :: vs)).ayas.length = (v :: vs).length := by
    rw [suraOf, length_ayasOf, length_bodies]
  -- verse 1, without what is set apart
  have hhead : ∀ a ∈ (suraOf ref n (v :: vs)).ayas.head?,
      texts a.words = if Opens ref n v then v.drop ref.length else v := by
    intro a ha
    rw [suraOf, bodies_cons] at ha
    split at ha
    all_goals
      next hop =>
      rw [ayasOf, List.mapIdx_cons, List.head?_cons, Option.mem_some_iff] at ha
      rw [← ha]
      first | rw [if_pos hop] | rw [if_neg hop]
      exact map_text_enumWords _ _ _
  refine ⟨?_, ?_, fun a ha => ?_, fun ws hws => ?_, fun hno a ha => ?_⟩
  · rw [← List.length_pos_iff, hlen]
    simp
  · rw [hlen, suraOf, map_number_ayasOf, length_bodies]
  · obtain ⟨i, u, hu, rfl⟩ := Seq.mem_mapIdx_iff.mp ha
    exact ⟨rfl, enumerates_enumWords (hbodies u (List.mem_of_getElem? hu))⟩
  · obtain ⟨o, ho, rfl⟩ := Option.map_eq_some_iff.mp hws
    rw [opening_cons] at ho
    split at ho
    · next hop =>
      cases ho
      refine ⟨enumerates_enumWords fun t ht => hvs v List.mem_cons_self t (List.mem_of_mem_take ht), ?_, fun a ha => ?_⟩
      · rw [length_enumWords, List.length_take_of_le hop.2.1.le]
      · have htake : texts (enumWords n basmalaAya (v.take ref.length)) = v.take ref.length :=
          map_text_enumWords _ _ _
        rw [texts, List.map_append, ← texts, ← texts, htake, hhead a ha, if_pos hop, List.take_append_drop]
        exact hop
    · cases ho
  · rw [suraOf, opening_cons] at hno
    have hop : ¬ Opens ref n v := by
      intro hop
      rw [if_pos hop] at hno
      cases hno
    rw [hhead a ha, if_neg hop]
    exact hop

end Sura

/-! ## Corpora -/

/-- The first verse of the corpus of a mushaf is its basmala. -/
theorem basmalaTokens_corpus (M : Mushaf) (edition : Str) : (M.corpus edition).basmalaTokens = M.basmala := by
  obtain ⟨vs, suras, hM⟩ := M.exists_first
  have hno : ¬ Opens M.basmala (((0 : Nat) : Int) + 1) M.basmala := fun h => h.1.1 (by simp)
  have hfirst : ((M.corpus edition).suras.head?.bind (·.ayas.head?)).map (·.words) =
      some (enumWords (((0 : Nat) : Int) + 1) (((0 : Nat) : Int) + 1) M.basmala) := by
    rw [Mushaf.corpus, hM, List.mapIdx_cons, List.head?_cons, Option.bind_some, suraOf, bodies_cons, if_neg hno, ayasOf,
      List.mapIdx_cons]
    rfl
  rw [Corpus.basmalaTokens, hfirst]
  exact map_text_enumWords _ _ _

theorem wellFormed_corpus (M : Mushaf) (edition : Str) : (M.corpus edition).WellFormed := by
  refine ⟨?_, ?_, fun s hs => ?_⟩
  · rw [Mushaf.corpus, ne_eq, List.mapIdx_eq_nil_iff]
    exact M.ne_nil
  · rw [Mushaf.corpus, Seq.map_mapIdx, List.length_mapIdx]
    exact mapIdx_eq_oneTo _
  · rw [basmalaTokens_corpus]
    obtain ⟨n, vs, hv, rfl⟩ := Seq.mem_mapIdx_iff.mp hs
    have hmem := List.mem_of_getElem? hv
    exact wellFormed_suraOf (M.sura_ne_nil vs hmem) (M.isToken vs hmem)

/-- The mushaf of a well-formed corpus. -/
def Corpus.WellFormed.mushaf {c : Corpus} (h : c.WellFormed) : Mushaf where
  suras := c.suras.map Sura.verses
  ne_nil := by simpa using h.ne_nil
  sura_ne_nil := by
    intro vs hvs
    obtain ⟨s, hs, rfl⟩ := List.mem_map.mp hvs
    simpa [Sura.verses] using (h.suras s hs).ne_nil
  isToken := by
    intro vs hvs
    obtain ⟨s, hs, rfl⟩ := List.mem_map.mp hvs
    exact isToken_verses (h.suras s hs)

namespace Corpus.WellFormed

variable {c : Corpus} (h : c.WellFormed)

include h

/-- Suras are numbered by position. -/
theorem number_of_getElem? {n : Nat} {s : Sura} (hs : c.suras[n]? = some s) : s.number = (n : Int) + 1 := by
  obtain ⟨hn, -⟩ := List.getElem?_eq_some_iff.mp hs
  have he := congrArg (·[n]?) h.numbers
  simp only [List.getElem?_map, hs, getElem?_oneTo, if_pos hn] at he
  exact Option.some.inj he

/-- The basmala is the first verse: nothing is set apart from sura 1. -/
theorem basmala_mushaf : h.mushaf.basmala = c.basmalaTokens := by
  obtain ⟨s, suras, hsuras⟩ := List.exists_cons_of_ne_nil h.ne_nil
  have hs := h.suras s (by rw [hsuras]; exact List.mem_cons_self)
  obtain ⟨a, rest, hayas⟩ := List.exists_cons_of_ne_nil hs.ne_nil
  have hnum : s.number = 1 := by simpa using h.number_of_getElem? (n := 0) (s := s) (by rw [hsuras]; rfl)
  have hsep : s.separatedBasmala = none := by
    cases hb : s.separatedBasmala with
    | none => rfl
    | some ws => exact absurd hnum ((hs.apart ws hb).2.2 a (by rw [hayas]; rfl)).1.1
  have hv := verses_eq hayas hs.numbers
  rw [hsep, Option.getD_none, List.nil_append] at hv
  have hfirst : h.mushaf.basmala = texts a.words := by
    have hM : h.mushaf.suras = s.verses :: suras.map Sura.verses := (congrArg (List.map Sura.verses) hsuras).trans rfl
    rw [Mushaf.basmala, hM, List.headD_cons, hv, List.headD_cons]
  have htokens : c.basmalaTokens = texts a.words := by
    rw [Corpus.basmalaTokens, hsuras, List.head?_cons, Option.bind_some, hayas]
    rfl
  rw [hfirst, htokens]

/-- **A well-formed corpus is the corpus of its mushaf.** -/
theorem corpus_mushaf : h.mushaf.corpus c.edition = c := by
  have hsuras : (c.suras.map Sura.verses).mapIdx (fun n vs => suraOf c.basmalaTokens ((n : Int) + 1) vs) = c.suras := by
    apply List.ext_getElem?
    intro n
    rw [List.getElem?_mapIdx, List.getElem?_map]
    cases hs : c.suras[n]? with
    | none => rfl
    | some s =>
      have hbuilt := suraOf_verses (h.suras s (List.mem_of_getElem? hs))
      rw [h.number_of_getElem? hs] at hbuilt
      rw [Option.map_some, Option.map_some, hbuilt]
  rw [Mushaf.corpus, h.basmala_mushaf]
  exact congrArg (fun suras => (⟨c.edition, suras⟩ : Corpus)) hsuras

end Corpus.WellFormed

/-- **The well-formed corpora are the corpora of mushafs.** -/
theorem wellFormed_iff {c : Corpus} : c.WellFormed ↔ ∃ M : Mushaf, c = M.corpus c.edition := by
  constructor
  · exact fun h => ⟨h.mushaf, h.corpus_mushaf.symm⟩
  · intro h
    obtain ⟨M, hM⟩ := h
    rw [hM]
    exact wellFormed_corpus M c.edition

/-! ## What files load to -/

section Files

variable [Interpreter] {edition : Str} {c : Corpus}

/-- The numbers of the suras and ayas can be written. -/
def Corpus.Writable (c : Corpus) : Prop :=
  ∀ s ∈ c.suras, ∀ a ∈ s.ayas, (∃ t, str s.number = .ok t) ∧ ∃ t, str a.number = .ok t

/-- A well-formed corpus whose numbers can be written is exported. -/
theorem exists_exportLines (hc : c.WellFormed) (hw : c.Writable) : ∃ lines, exportLines c = .ok lines := by
  rw [exportLines, mapM_returns_iff]
  intro r hr
  obtain ⟨s, hs, hr⟩ := List.mem_flatMap.mp hr
  obtain ⟨a, ha, rfl⟩ := List.mem_map.mp hr
  obtain ⟨⟨f, hf⟩, g, hg⟩ := hw s hs a ha
  rw [← ((hc.suras s hs).words a ha).1] at hf
  exact ⟨_, by rw [exportRecord, hf, hg]; rfl⟩

/-- The exported lines of the corpus of a mushaf load to it. -/
theorem loadCorpus_of_exportLines (hed : (editionFiles.lookup edition).isSome) (M : Mushaf) {lines : List Str}
    (hl : exportLines (M.corpus edition) = .ok lines) :
    loadCorpus edition (unlines lines) = .ok (M.corpus edition) := by
  have hspec : List.Forall₂ (fun line r => IsData line ∧ NoBreak line ∧ parseLine line = .ok (some r)) lines
      (exportRecords (M.corpus edition)) := by
    have hboth := (List.forall₂_and_left _ _).mpr ⟨fun _ hr => hr, mapM_eq_ok_iff.mp hl⟩
    refine (List.Forall₂.flip hboth).imp fun line r hr => ?_
    obtain ⟨ts, hts, htext⟩ := (mem_exportRecords (lists_exportRecords M edition) hr.1).1
    obtain ⟨s, a, text⟩ := r
    subst htext
    exact exportRecord_spec hts hr.2
  have hdata : ∀ line ∈ lines, IsData line ∧ NoBreak line := fun line hm => by
    obtain ⟨_, -, h1, h2, -⟩ := exists_of_forall₂ hspec hm
    exact ⟨h1, h2⟩
  refine loadCorpus_of_lists hed (parseLines_eq_ok_iff.mpr ?_) (lists_exportRecords M edition)
  rw [dataLines, splitlines_unlines fun line hm => (hdata line hm).2,
    List.filter_eq_self.mpr fun line hm => by simpa using (hdata line hm).1]
  exact hspec.imp fun _ _ h => h.2.2

/-- **The loaded corpora are the well-formed ones whose numbers can be written.** -/
theorem loadCorpus_range_iff : (∃ raw, loadCorpus edition raw = .ok c) ↔
    (editionFiles.lookup edition).isSome ∧ c.edition = edition ∧ c.WellFormed ∧ c.Writable := by
  constructor
  · intro h
    obtain ⟨raw, hraw⟩ := h
    obtain ⟨records, M, hp, hM, rfl⟩ := lists_of_loadCorpus hraw
    refine ⟨(loadCorpus_eq_ok_iff.mp hraw).1, rfl, wellFormed_corpus M edition, fun s hs a ha => ?_⟩
    -- the numbers of an aya are those of its record
    have hwf := (wellFormed_corpus M edition).suras s hs
    have hq : (⟨a.sura, a.number, join (texts (exportWords s a))⟩ : Record) ∈ exportRecords (M.corpus edition) :=
      List.mem_flatMap.mpr ⟨s, hs, List.mem_map.mpr ⟨a, ha, rfl⟩⟩
    obtain ⟨r, hr, hrs, hra⟩ := (mem_exportRecords hM hq).2
    obtain ⟨hsura, haya⟩ := exists_str_of_mem hp hr
    rw [← hrs] at hsura
    rw [← hra] at haya
    rw [← (hwf.words a ha).1]
    exact ⟨hsura, haya⟩
  · intro h
    obtain ⟨hed, rfl, hwf, hw⟩ := h
    obtain ⟨lines, hl⟩ := exists_exportLines hwf hw
    rw [← hwf.corpus_mushaf] at hl
    refine ⟨unlines lines, ?_⟩
    have hload := loadCorpus_of_exportLines hed hwf.mushaf hl
    rwa [hwf.corpus_mushaf] at hload

end Files

end QuranAnalysis
