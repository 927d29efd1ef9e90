import QuranAnalysis.Corpus.Address

/-!
# Loading loses, duplicates and reorders nothing

- `flatten_words_corpus`: with the basmalas, the words of a corpus spell the tokens of its mushaf, verse after verse.
- `Lists.sorted_tokens`: so do the records of the file, sorted by `(sura, aya)`.
- `words_false_eq_filter`: without the basmalas, exactly the words of the openings are missing.
- `loadCorpus_conserves`: the tokens of the records and the words of the loaded corpus are the same.
-/

namespace QuranAnalysis

open Py

/-! ## Words and tokens of a mushaf -/

theorem map_text_ayasOf (n : Int) (vs : List (List Str)) :
    ((ayasOf n vs).flatMap (·.words)).map (·.text) = vs.flatten := by
  rw [List.map_flatMap, List.flatMap_def, ayasOf, Seq.map_mapIdx]
  congr 1
  apply List.ext_getElem?
  intro i
  cases hv : vs[i]? <;> simp [List.getElem?_mapIdx, hv]

/-- The words of a sura with its opening spell its verses. -/
theorem map_text_words_suraOf (ref : List Str) (n : Int) (vs : List (List Str)) :
    ((suraOf ref n vs).words true).map (·.text) = vs.flatten := by
  rw [words_suraOf, List.map_append, map_text_ayasOf, ← opening_append_bodies ref n vs]
  congr 1
  cases opening ref n vs <;> simp

/-- **The words of a corpus with the basmalas spell its mushaf.** -/
theorem flatten_words_corpus (M : Mushaf) (edition : Str) :
    ((M.corpus edition).words true).map (·.text) = M.suras.flatten.flatten := by
  rw [Corpus.words, Mushaf.corpus, List.map_flatMap, List.flatMap_def, Seq.map_mapIdx]
  simp only [map_text_words_suraOf]
  rw [List.flatten_flatten]
  congr 1
  apply List.ext_getElem?
  intro i
  simp [List.getElem?_mapIdx]

/-- The words of a sura without its opening are those that are not words of an opening. -/
theorem words_false_suraOf (ref : List Str) (n : Int) (vs : List (List Str)) :
    (suraOf ref n vs).words false = ((suraOf ref n vs).words true).filter (fun w => w.aya ≠ basmalaAya) := by
  rw [words_suraOf, words_suraOf, List.filter_append]
  have h1 : (((opening ref n vs).map (enumWords n basmalaAya)).getD []).filter (fun w => w.aya ≠ basmalaAya) = [] := by
    rw [List.filter_eq_nil_iff]
    exact fun w hw => by simpa using (located_of_mem_opening hw).2.1
  have h2 : ((ayasOf n (bodies ref n vs)).flatMap (·.words)).filter (fun w => w.aya ≠ basmalaAya) =
      (ayasOf n (bodies ref n vs)).flatMap (·.words) := by
    rw [List.filter_eq_self]
    exact fun w hw => by simpa using aya_ne_of_mem_ayasOf hw
  rw [if_neg (by decide), if_pos rfl, h1, h2]

/-- The words of the opening are those with the basmala's aya number. -/
theorem filter_basmala_suraOf (ref : List Str) (n : Int) (vs : List (List Str)) :
    ((suraOf ref n vs).words true).filter (fun w => w.aya = basmalaAya) =
      (suraOf ref n vs).separatedBasmala.getD [] := by
  rw [words_suraOf, List.filter_append]
  have h1 : (((opening ref n vs).map (enumWords n basmalaAya)).getD []).filter (fun w => w.aya = basmalaAya) =
      ((opening ref n vs).map (enumWords n basmalaAya)).getD [] := by
    rw [List.filter_eq_self]
    exact fun w hw => by simpa using (located_of_mem_opening hw).2.1
  have h2 : ((ayasOf n (bodies ref n vs)).flatMap (·.words)).filter (fun w => w.aya = basmalaAya) = [] := by
    rw [List.filter_eq_nil_iff]
    exact fun w hw => by simpa using aya_ne_of_mem_ayasOf hw
  rw [if_pos rfl, h1, h2, List.append_nil, suraOf]

/-! ## Records in canonical order -/

/-- The order of records by `(sura, aya)`. -/
def Record.le (r q : Record) : Prop := r.sura < q.sura ∨ r.sura = q.sura ∧ r.aya ≤ q.aya

instance : DecidableRel Record.le := fun _ _ => inferInstanceAs (Decidable (_ ∨ _))

instance : Std.Total Record.le := ⟨fun r q => by unfold Record.le; omega⟩

instance : IsTrans Record Record.le := ⟨fun r q t h h' => by unfold Record.le at *; omega⟩

namespace Lists

variable {records : List Record} {M : Mushaf}

/-- The records sura by sura. -/
theorem perm_bySura (h : Lists records M) :
    ((oneTo M.suras.length).flatMap (fun s => records.filter (fun r => r.sura = s))).Perm records := by
  rw [← h.order]
  exact Seq.perm_flatMap_filter _ _ (Seq.nodup_eraseDups _) fun r hr =>
    List.mem_eraseDups.mpr (List.mem_map_of_mem hr)

/-- Sura by sura, the records are strictly ordered. -/
theorem pairwise_bySura (h : Lists records M) :
    ((oneTo M.suras.length).flatMap (fun s => records.filter (fun r => r.sura = s))).Pairwise
      fun r q => Record.le r q ∧ ¬ Record.le q r := by
  rw [List.pairwise_flatMap]
  constructor
  · intro s hs
    obtain ⟨h1, h2⟩ := mem_oneTo.mp hs
    obtain ⟨n, rfl⟩ : ∃ n : Nat, s = (n : Int) + 1 := ⟨s.toNat - 1, by omega⟩
    have hv : M.suras[n]? = some M.suras[n] := List.getElem?_eq_getElem (show n < M.suras.length by omega)
    have hlt : ((records.filter (fun r => r.sura = (n : Int) + 1)).map (·.aya)).Pairwise (· < ·) := by
      rw [h.map_aya hv, ← mapIdx_eq_oneTo M.suras[n]]
      exact Seq.pairwise_mapIdx fun i j _ _ hij _ _ => by omega
    refine (List.pairwise_map.mp hlt).imp_of_mem fun {r q} hr hq hrq => ?_
    have hr : r.sura = (n : Int) + 1 := by simpa using (List.mem_filter.mp hr).2
    have hq : q.sura = (n : Int) + 1 := by simpa using (List.mem_filter.mp hq).2
    unfold Record.le
    omega
  · have hlt : (oneTo M.suras.length).Pairwise (· < ·) := by
      rw [← mapIdx_eq_oneTo M.suras]
      exact Seq.pairwise_mapIdx fun i j _ _ hij _ _ => by omega
    refine hlt.imp fun {s t} hst r hr q hq => ?_
    have hr : r.sura = s := by simpa using (List.mem_filter.mp hr).2
    have hq : q.sura = t := by simpa using (List.mem_filter.mp hq).2
    unfold Record.le
    omega

/-- Sorting the records lists them sura by sura. -/
theorem sorted_eq (h : Lists records M) : records.insertionSort Record.le =
    (oneTo M.suras.length).flatMap (fun s => records.filter (fun r => r.sura = s)) :=
  Seq.insertionSort_eq_of_perm h.perm_bySura h.pairwise_bySura

/-- **The sorted records spell the mushaf.** -/
theorem sorted_tokens (h : Lists records M) :
    (records.insertionSort Record.le).flatMap (fun r => split r.text) = M.suras.flatten.flatten := by
  have hsuras : (oneTo M.suras.length).map
      (fun s => (records.filter (fun r => r.sura = s)).map fun r => split r.text) = M.suras := by
    apply List.ext_getElem?
    intro n
    rw [List.getElem?_map, getElem?_oneTo]
    cases hv : M.suras[n]? with
    | none => rw [if_neg (by simpa using hv)]; rfl
    | some vs =>
      obtain ⟨hn, -⟩ := List.getElem?_eq_some_iff.mp hv
      rw [if_pos hn, Option.map_some]
      have := congrArg (List.map Prod.snd) (h.rows n vs hv)
      rw [List.map_map, Seq.map_mapIdx] at this
      refine congrArg some (this.trans ?_)
      apply List.ext_getElem?
      intro i
      simp [List.getElem?_mapIdx]
  rw [h.sorted_eq]
  conv_rhs => rw [← hsuras]
  simp only [List.flatMap_def, List.map_flatten, List.map_map, List.flatten_flatten]
  rfl

/-- The keys of the ayas are the keys of the records. -/
theorem perm_keys (h : Lists records M) (edition : Str) :
    ((M.corpus edition).suras.flatMap fun su => su.ayas.map fun ay => (ay.sura, ay.number)).Perm
      (records.map fun r => (r.sura, r.aya)) := by
  refine List.Perm.trans (List.Perm.of_eq ?_) (h.perm_bySura.map _)
  rw [List.map_flatMap, List.flatMap_def, List.flatMap_def]
  congr 1
  apply List.ext_getElem?
  intro n
  rw [List.getElem?_map, List.getElem?_map, getElem?_oneTo, Mushaf.corpus, List.getElem?_mapIdx]
  cases hv : M.suras[n]? with
  | none => rw [if_neg (by simpa using hv)]; rfl
  | some vs =>
    obtain ⟨hn, -⟩ := List.getElem?_eq_some_iff.mp hv
    rw [if_pos hn, Option.map_some, Option.map_some, Option.map_some]
    -- both sides number the ayas of sura `n + 1` from 1
    have hl : (suraOf M.basmala ((n : Int) + 1) vs).ayas.map (fun ay => (ay.sura, ay.number)) =
        (oneTo vs.length).map fun a => ((n : Int) + 1, a) := by
      rw [suraOf, ← length_bodies M.basmala ((n : Int) + 1), ← map_number_ayasOf ((n : Int) + 1), List.map_map]
      refine List.map_congr_left fun ay hay => ?_
      obtain ⟨a, v, _, rfl⟩ := Seq.mem_mapIdx_iff.mp hay
      rfl
    rw [hl, ← h.map_aya hv, List.map_map]
    refine congrArg some (List.map_congr_left fun r hr => ?_)
    have hr : r.sura = (n : Int) + 1 := by simpa using (List.mem_filter.mp hr).2
    simp [hr]

/-- No two records have one key. -/
theorem nodup_keys (h : Lists records M) : (records.map fun r => (r.sura, r.aya)).Nodup := by
  rw [← (h.perm_bySura.map _).nodup_iff, List.Nodup, List.pairwise_map]
  refine h.pairwise_bySura.imp fun {r q} hrq he => hrq.2 ?_
  obtain ⟨h1, h2⟩ := Prod.mk.inj he
  unfold Record.le
  omega

end Lists

/-! ## Loaded corpora -/

/-- What the corpus `c` keeps of the `records` it was loaded from. -/
structure Conserves (records : List Record) (c : Corpus) : Prop where
  tokens : ∀ r ∈ records, ∃ su ay, c.sura r.sura = .ok su ∧ c.aya r.sura r.aya = .ok ay ∧
    split r.text = (if r.aya = 1 then (su.separatedBasmala.getD []).map (·.text) else []) ++ ay.words.map (·.text)
  one_record : ∀ su ∈ c.suras, ∀ ay ∈ su.ayas, ay.sura = su.number ∧ c.aya ay.sura ay.number = .ok ay ∧
    ∃! i : Nat, ∃ text, records[i]? = some (⟨ay.sura, ay.number, text⟩ : Record)
  keys : (c.suras.flatMap fun su => su.ayas.map fun ay => (ay.sura, ay.number)).Perm
    (records.map fun r => (r.sura, r.aya))
  words_true : (c.words true).map (·.text) = (records.insertionSort Record.le).flatMap fun r => split r.text
  words_false : c.words false = (c.words true).filter fun w => w.aya ≠ basmalaAya
  basmala_words : (c.words true).filter (fun w => w.aya = basmalaAya) =
    c.suras.flatMap fun su => su.separatedBasmala.getD []
  shortened : ∀ r ∈ records, ∀ ay, c.aya r.sura r.aya = .ok ay → ay.words.map (·.text) ≠ split r.text →
    r.aya = 1 ∧ r.sura ≠ 1 ∧ r.sura ≠ 9 ∧ ay.words ≠ [] ∧
      ∃ first, c.aya 1 1 = .ok first ∧ ay.words.length + first.words.length = (split r.text).length
  basmala_length : ∀ su ∈ c.suras, ∀ ws, su.separatedBasmala = some ws →
    su.number ≠ 1 ∧ su.number ≠ 9 ∧ ∃ first, c.aya 1 1 = .ok first ∧ ws.length = first.words.length

section Mushaf

variable {records : List Record} {M : Mushaf}

/-- Verse 1 of sura 1 is the basmala. -/
theorem corpus_first (M : Mushaf) (edition : Str) :
    (M.corpus edition).aya 1 1 = .ok ⟨1, 1, enumWords 1 1 M.basmala⟩ := by
  obtain ⟨vs, suras, hM⟩ := M.exists_first
  have hv : M.suras[0]? = some (M.basmala :: vs) := by simp [hM]
  have ha : (bodies M.basmala (((0 : Nat) : Int) + 1) (M.basmala :: vs))[0]? = some M.basmala := by
    simp [bodies, Opens]
  exact corpus_aya hv ha

/-- The tokens of a record are spelled by its aya, with the opening of the sura in front of verse 1. -/
theorem Lists.tokens_eq (h : Lists records M) (edition : Str) {r : Record} (hr : r ∈ records) :
    ∃ su ay, (M.corpus edition).sura r.sura = .ok su ∧ (M.corpus edition).aya r.sura r.aya = .ok ay ∧
      split r.text = (if r.aya = 1 then (su.separatedBasmala.getD []).map (·.text) else []) ++
        ay.words.map (·.text) := by
  obtain ⟨n, a, vs, hv, ha, hs, hra⟩ := h.verse_of_mem hr
  rw [hs, hra]
  rcases getElem?_bodies M.basmala ((n : Int) + 1) ha with ⟨hb, ho⟩ | ⟨rfl, -, ho, hb⟩
  · refine ⟨_, _, corpus_sura hv, corpus_aya hv hb, ?_⟩
    by_cases h0 : a = 0
    · simp [suraOf, ho h0]
    · rw [if_neg (by omega), List.nil_append, map_text_enumWords]
  · refine ⟨_, _, corpus_sura hv, corpus_aya hv hb, ?_⟩
    simp [suraOf, ho]

/-- A record whose aya does not spell it is a verse 1 that lost as many tokens as the basmala has, but not all. -/
theorem Lists.shortened (h : Lists records M) {edition : Str} {r : Record} (hr : r ∈ records) {ay : Aya}
    (hay : (M.corpus edition).aya r.sura r.aya = .ok ay) (hne : ay.words.map (·.text) ≠ split r.text) :
    r.aya = 1 ∧ r.sura ≠ 1 ∧ r.sura ≠ 9 ∧ ay.words ≠ [] ∧
      ay.words.length + M.basmala.length = (split r.text).length := by
  obtain ⟨n, a, vs, hv, ha, hs, hra⟩ := h.verse_of_mem hr
  rw [hs, hra] at hay
  rcases getElem?_bodies M.basmala ((n : Int) + 1) ha with ⟨hb, -⟩ | ⟨rfl, hop, -, hb⟩
  · rw [corpus_aya hv hb] at hay
    cases hay
    exact absurd (map_text_enumWords _ _ _) hne
  · rw [corpus_aya hv hb] at hay
    cases hay
    obtain ⟨⟨h1, h9⟩, hlt, -⟩ := hop
    refine ⟨by simpa using hra, by rwa [hs], by rwa [hs], ?_, ?_⟩
    · rw [← List.length_pos_iff, length_enumWords, List.length_drop]
      omega
    · rw [length_enumWords, List.length_drop]
      omega

/-- An opening has as many words as the basmala. -/
theorem length_opening {n : Int} {vs : List (List Str)} {o : List Str} (ho : opening M.basmala n vs = some o) :
    n ≠ 1 ∧ n ≠ 9 ∧ o.length = M.basmala.length := by
  rw [opening] at ho
  split at ho
  · next hop =>
    cases ho
    exact ⟨hop.1.1, hop.1.2, List.length_take_of_le hop.2.1.le⟩
  · cases ho

/-- The words of the openings are the words of the separated basmalas. -/
theorem filter_basmala_corpus (M : Mushaf) (edition : Str) :
    ((M.corpus edition).words true).filter (fun w => w.aya = basmalaAya) =
      (M.corpus edition).suras.flatMap fun su => su.separatedBasmala.getD [] := by
  rw [Corpus.words, List.filter_flatMap]
  refine List.flatMap_congr fun su hsu => ?_
  obtain ⟨n, vs, _, rfl⟩ := Seq.mem_mapIdx_iff.mp hsu
  exact filter_basmala_suraOf _ _ vs

/-- Without the basmalas, the words of the openings are left out. -/
theorem words_false_eq_filter (M : Mushaf) (edition : Str) :
    (M.corpus edition).words false = ((M.corpus edition).words true).filter fun w => w.aya ≠ basmalaAya := by
  rw [Corpus.words, Corpus.words, List.filter_flatMap]
  refine List.flatMap_congr fun su hsu => ?_
  obtain ⟨n, vs, _, rfl⟩ := Seq.mem_mapIdx_iff.mp hsu
  exact words_false_suraOf _ _ vs

/-- The words of a mushaf are tokens. -/
theorem isToken_of_mem_words {M : Mushaf} {edition : Str} {b : Bool} {w : Word} (hw : w ∈ (M.corpus edition).words b) :
    IsToken w.text := by
  have htrue : w ∈ (M.corpus edition).words true := by
    cases b with
    | true => exact hw
    | false =>
      rw [words_false_eq_filter] at hw
      exact List.mem_of_mem_filter hw
  have ht : w.text ∈ M.suras.flatten.flatten := by
    rw [← flatten_words_corpus M edition]
    exact List.mem_map_of_mem htrue
  obtain ⟨v, hv, ht⟩ := List.mem_flatten.mp ht
  obtain ⟨vs, hvs, hv⟩ := List.mem_flatten.mp hv
  exact M.isToken vs hvs v hv _ ht

/-- Every aya of the corpus is found by its numbers and comes from one record. -/
theorem Lists.one_record (h : Lists records M) {edition : Str} {su : Sura} (hsu : su ∈ (M.corpus edition).suras)
    {ay : Aya} (hay : ay ∈ su.ayas) :
    ay.sura = su.number ∧ (M.corpus edition).aya ay.sura ay.number = .ok ay ∧
      ∃! i : Nat, ∃ text, records[i]? = some (⟨ay.sura, ay.number, text⟩ : Record) := by
  have hkey : (ay.sura, ay.number) ∈ records.map fun r => (r.sura, r.aya) :=
    (h.perm_keys edition).subset (List.mem_flatMap.mpr ⟨su, hsu, List.mem_map_of_mem hay⟩)
  obtain ⟨n, vs, hv, rfl⟩ := Seq.mem_mapIdx_iff.mp hsu
  obtain ⟨a, v, ha, rfl⟩ := Seq.mem_mapIdx_iff.mp hay
  refine ⟨rfl, corpus_aya hv ha, ?_⟩
  obtain ⟨i, hi, hki⟩ := List.mem_iff_getElem.mp hkey
  have hi' : i < records.length := by simpa using hi
  rw [List.getElem_map] at hki
  obtain ⟨h1, h2⟩ := Prod.mk.inj hki
  refine ⟨i, ⟨records[i].text, ?_⟩, ?_⟩
  · rw [List.getElem?_eq_getElem hi', ← h1, ← h2]
  · rintro j ⟨text, hj⟩
    obtain ⟨hjl, hj⟩ := List.getElem?_eq_some_iff.mp hj
    have hjl' : j < (records.map fun r => (r.sura, r.aya)).length := by simpa using hjl
    have he : (records.map fun r => (r.sura, r.aya))[j] = (records.map fun r => (r.sura, r.aya))[i] := by
      rw [List.getElem_map, List.getElem_map, hki, hj]
    exact h.nodup_keys.getElem_inj_iff.mp he

end Mushaf

/-- **Loading conserves the records of the file.** -/
theorem loadCorpus_conserves [Interpreter] {edition raw : Str} {c : Corpus} (h : loadCorpus edition raw = .ok c) :
    ∃ records, parseLines raw = .ok records ∧ Conserves records c := by
  obtain ⟨records, M, hp, hM, rfl⟩ := lists_of_loadCorpus h
  refine ⟨records, hp, ?_⟩
  constructor
  case tokens => exact fun r hr => hM.tokens_eq edition hr
  case one_record => exact fun su hsu ay hay => hM.one_record hsu hay
  case keys => exact hM.perm_keys edition
  case words_true => rw [flatten_words_corpus, hM.sorted_tokens]
  case words_false => exact words_false_eq_filter M edition
  case basmala_words => exact filter_basmala_corpus M edition
  case shortened =>
    intro r hr ay hay hne
    obtain ⟨h1, h2, h3, h4, h5⟩ := hM.shortened hr hay hne
    exact ⟨h1, h2, h3, h4, _, corpus_first M edition, by rwa [length_enumWords]⟩
  case basmala_length =>
    intro su hsu ws hws
    obtain ⟨n, vs, hv, rfl⟩ := Seq.mem_mapIdx_iff.mp hsu
    obtain ⟨o, ho, rfl⟩ := Option.map_eq_some_iff.mp hws
    obtain ⟨h1, h9, hl⟩ := length_opening ho
    exact ⟨h1, h9, _, corpus_first M edition, by rw [length_enumWords, length_enumWords, hl]⟩

/-- The small file is conserved. -/
theorem loadCorpus_conserves_sample :
    ∃ records, @parseLines defaultInterpreter sampleText = .ok records ∧ Conserves records sampleCorpus :=
  @loadCorpus_conserves defaultInterpreter _ _ _ loadUthmani_sample

end QuranAnalysis
