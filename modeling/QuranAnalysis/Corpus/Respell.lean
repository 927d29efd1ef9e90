import QuranAnalysis.Corpus.Conserve
import QuranAnalysis.Corpus.Grammar

/-!
# Respelled files

A `Spelling` replaces the tokens of verses, and `RespelledText` says that one file is another with its verses
respelled. Reading, grouping and numbering do not look at the tokens:

- `parseLines_respelled`: one file is read exactly when the other is, and its records are respelled.
- `Lists.respell`: respelled records list the respelled mushaf.
- `loadCorpus_respell`: so a file loads exactly when its respelling does.

What is set apart from verse 1 depends on the tokens behind the first one, and on them only up to equality
(`opens_congr`). So it stays when every token is renamed (`suraOf_everyToken`) and when first tokens of verses 1 are
replaced (`suraOf_firstToken`), and `loadCorpus_respelled` says what is loaded then.
-/

namespace QuranAnalysis

open Py

/-! ## Spellings -/

/-- New tokens for the tokens of every verse of every sura. -/
structure Spelling where
  verse : Int → Int → List Str → List Str
  isToken : ∀ s a v, (∀ t ∈ v, IsToken t) → ∀ t ∈ verse s a v, IsToken t

/-- Every token is replaced by its image under `f`. -/
def Spelling.everyToken (f : Str → Str) (hf : ∀ t, IsToken t → IsToken (f t)) : Spelling where
  verse _ _ v := v.map f
  isToken _ _ v hv t ht := by
    obtain ⟨u, hu, rfl⟩ := List.mem_map.mp ht
    exact hf u (hv u hu)

/-- The first token of verse 1 of sura `s` is replaced by its image under `g s`. -/
def Spelling.firstToken (g : Int → Str → Str) (hg : ∀ s t, IsToken t → IsToken (g s t)) : Spelling where
  verse s a v := if a = 1 then v.modifyHead (g s) else v
  isToken s a v hv t ht := by
    split at ht
    · cases v with
      | nil => cases ht
      | cons u v =>
        rcases List.mem_cons.mp ht with rfl | ht
        · exact hg s u (hv u (by simp))
        · exact hv t (List.mem_cons_of_mem _ ht)
    · exact hv t ht

section Files

variable [Interpreter] (σ : Spelling)

/-- A line and its respelling: other tokens in the text of a verse, and no change to a line without a verse. -/
inductive RespelledLine : Str → Str → Prop
  | other {line : Str} (h : ∀ r, parseLine line ≠ .ok (some r)) : RespelledLine line line
  | verse {f g text text' : Str} (hf : '|' ∉ f) (hg : '|' ∉ g)
      (h : ∀ s a, int f = .ok s → int g = .ok a → split text' = σ.verse s a (split text)) :
      RespelledLine (f ++ '|' :: (g ++ '|' :: text)) (f ++ '|' :: (g ++ '|' :: text'))

/-- Line by line, the second text is the respelling of the first. -/
def RespelledText (raw raw' : Str) : Prop := List.Forall₂ (RespelledLine σ) (splitlines raw) (splitlines raw')

/-- A record and its respelling. -/
structure RespelledRecord (r r' : Record) : Prop where
  sura : r'.sura = r.sura
  aya : r'.aya = r.aya
  tokens : split r'.text = σ.verse r.sura r.aya (split r.text)

/-! ## Reading -/

variable {σ} {line line' : Str}

theorem RespelledLine.isData_iff (h : RespelledLine σ line line') : IsData line ↔ IsData line' := by
  cases h with
  | other h => exact Iff.rfl
  | @verse f g text text' hf hg h =>
    have hhead : (strip (f ++ '|' :: (g ++ '|' :: text))).head? = (strip (f ++ '|' :: (g ++ '|' :: text'))).head? :=
      Seq.head?_trim_append_cons (by decide) _ _ f
    rw [isData_iff_head?, isData_iff_head?, hhead]

/-- What a line is read as, its respelling is, up to the spelling. -/
theorem RespelledLine.exists_right (h : RespelledLine σ line line') (hd : IsData line) {r : Record}
    (hr : parseLine line = .ok (some r)) : ∃ r', parseLine line' = .ok (some r') ∧ RespelledRecord σ r r' := by
  have hd' := h.isData_iff.mp hd
  cases h with
  | other h => exact absurd hr (h r)
  | @verse f g text text' hf hg h =>
    obtain ⟨hs, ha, ht⟩ := (parseLine_of_bars_eq_some hf hg hd).mp hr
    refine ⟨⟨r.sura, r.aya, strip text'⟩, (parseLine_of_bars_eq_some hf hg hd').mpr ⟨hs, ha, rfl⟩, rfl, rfl, ?_⟩
    rw [split_strip, h _ _ hs ha, ht, split_strip]

/-- A verse and its respelling, by its numbers. -/
theorem RespelledLine.of_numbers {f g text text' : Str} {s a : Int} (hf : '|' ∉ f) (hg : '|' ∉ g) (hs : int f = .ok s)
    (ha : int g = .ok a) (h : split text' = σ.verse s a (split text)) :
    RespelledLine σ (f ++ '|' :: (g ++ '|' :: text)) (f ++ '|' :: (g ++ '|' :: text')) := by
  refine .verse hf hg fun s' a' hs' ha' => ?_
  rw [hs] at hs'
  rw [ha] at ha'
  cases hs'
  cases ha'
  exact h

/-- What the respelling of a line is read as, the line is, up to the spelling. -/
theorem RespelledLine.exists_left (h : RespelledLine σ line line') (hd : IsData line') {r' : Record}
    (hr : parseLine line' = .ok (some r')) : ∃ r, parseLine line = .ok (some r) ∧ RespelledRecord σ r r' := by
  have hd' := h.isData_iff.mpr hd
  cases h with
  | other h => exact absurd hr (h r')
  | @verse f g text text' hf hg h =>
    obtain ⟨hs, ha, ht⟩ := (parseLine_of_bars_eq_some hf hg hd).mp hr
    refine ⟨⟨r'.sura, r'.aya, strip text⟩, (parseLine_of_bars_eq_some hf hg hd').mpr ⟨hs, ha, rfl⟩, rfl, rfl, ?_⟩
    rw [ht, split_strip, h _ _ hs ha, split_strip]

variable {raw raw' : Str}

/-- The data lines of a respelled text are respelled. -/
theorem RespelledText.dataLines (h : RespelledText σ raw raw') :
    List.Forall₂ (fun line line' => RespelledLine σ line line' ∧ IsData line) (dataLines raw) (dataLines raw') := by
  have hf : List.Forall₂ (RespelledLine σ) (QuranAnalysis.dataLines raw) (QuranAnalysis.dataLines raw') := by
    refine List.rel_filter (fun l l' hl => ?_) h
    simpa using hl.isData_iff
  refine ((List.forall₂_and_left _ _).mpr ⟨fun l hl => ?_, hf⟩).imp fun _ _ hl => hl.symm
  exact isData_of_mem_dataLines hl

/-- **Both files are read or neither is, and the records are respelled.** -/
theorem parseLines_respelled (h : RespelledText σ raw raw') :
    (∀ records, parseLines raw = .ok records →
        ∃ records', parseLines raw' = .ok records' ∧ List.Forall₂ (RespelledRecord σ) records records') ∧
      ∀ records', parseLines raw' = .ok records' →
        ∃ records, parseLines raw = .ok records ∧ List.Forall₂ (RespelledRecord σ) records records' := by
  simp only [parseLines_eq_ok_iff]
  refine ⟨fun records hr => ?_, fun records' hr' => ?_⟩
  · exact exists_forall₂_of_forall₂ (fun line line' r hl hr => hl.1.exists_right hl.2 hr) h.dataLines hr
  · have hstep : ∀ line' line r', (RespelledLine σ line line' ∧ IsData line) → parseLine line' = .ok (some r') →
        ∃ r, parseLine line = .ok (some r) ∧ RespelledRecord σ r r' := fun line' line r' hl hr =>
      hl.1.exists_left (hl.1.isData_iff.mp hl.2) hr
    obtain ⟨records, hr, hS⟩ := exists_forall₂_of_forall₂ hstep h.dataLines.flip hr'
    exact ⟨records, hr, hS.flip⟩

end Files

/-! ## The respelled mushaf -/

/-- The mushaf with its verses respelled. -/
def Mushaf.respell (M : Mushaf) (σ : Spelling) : Mushaf where
  suras := M.suras.mapIdx fun n vs => vs.mapIdx fun a v => σ.verse ((n : Int) + 1) ((a : Int) + 1) v
  ne_nil := by simpa using M.ne_nil
  sura_ne_nil := by
    intro vs' hvs'
    obtain ⟨n, vs, hv, rfl⟩ := Seq.mem_mapIdx_iff.mp hvs'
    simpa using M.sura_ne_nil vs (List.mem_of_getElem? hv)
  isToken := by
    intro vs' hvs' v' hv'
    obtain ⟨n, vs, hvs, rfl⟩ := Seq.mem_mapIdx_iff.mp hvs'
    obtain ⟨a, v, hv, rfl⟩ := Seq.mem_mapIdx_iff.mp hv'
    exact σ.isToken _ _ v (M.isToken vs (List.mem_of_getElem? hvs) v (List.mem_of_getElem? hv))

section Records

variable {σ : Spelling} {records records' : List Record}

theorem map_sura_respelled (h : List.Forall₂ (RespelledRecord σ) records records') :
    records'.map (·.sura) = records.map (·.sura) := (map_eq_of_forall₂ (fun _ _ hr => hr.sura.symm) h).symm

/-- The records of one sura are respelled. -/
theorem filter_sura_respelled (h : List.Forall₂ (RespelledRecord σ) records records') (s : Int) :
    List.Forall₂ (RespelledRecord σ) (records.filter fun r => r.sura = s) (records'.filter fun r => r.sura = s) :=
  List.rel_filter (fun r r' hr => by simp [hr.sura]) h

/-- Respelled records are numbered alike. -/
theorem numbered_respelled (h : List.Forall₂ (RespelledRecord σ) records records') :
    Numbered records ↔ Numbered records' := by
  have hrows : ∀ s, (records'.filter fun r => r.sura = s).map (·.aya) =
      (records.filter fun r => r.sura = s).map (·.aya) := fun s =>
    (map_eq_of_forall₂ (fun _ _ hr => hr.aya.symm) (filter_sura_respelled h s)).symm
  constructor
  · rintro ⟨ho, hr⟩
    refine ⟨by rwa [map_sura_respelled h], fun s hs => ?_⟩
    rw [hrows]
    exact hr s (by rwa [map_sura_respelled h] at hs)
  · rintro ⟨ho, hr⟩
    refine ⟨by rwa [map_sura_respelled h] at ho, fun s hs => ?_⟩
    rw [← hrows]
    exact hr s (by rwa [map_sura_respelled h])

/-- **Respelled records list the respelled mushaf.** -/
theorem Lists.respell {M : Mushaf} (hM : Lists records M) (h : List.Forall₂ (RespelledRecord σ) records records') :
    Lists records' (M.respell σ) := by
  constructor
  case order =>
    rw [map_sura_respelled h, hM.order, Mushaf.respell, List.length_mapIdx]
  case rows =>
    intro n vs' hv'
    simp only [Mushaf.respell, List.getElem?_mapIdx, Option.map_eq_some_iff] at hv'
    obtain ⟨vs, hv, rfl⟩ := hv'
    have hright : (records'.filter fun r => r.sura = (n : Int) + 1).map (fun r => (r.aya, split r.text)) =
        (records.filter fun r => r.sura = (n : Int) + 1).map fun r =>
          (r.aya, σ.verse ((n : Int) + 1) r.aya (split r.text)) := by
      rw [← map_eq_of_forall₂ (fun r r' hr => by rw [hr.aya, hr.tokens]) (filter_sura_respelled h ((n : Int) + 1))]
      refine List.map_congr_left fun r hr => ?_
      have hs : r.sura = (n : Int) + 1 := by simpa using (List.mem_filter.mp hr).2
      rw [hs]
    have hrows := congrArg (List.map fun p : Int × List Str => (p.1, σ.verse ((n : Int) + 1) p.1 p.2)) (hM.rows n vs hv)
    rw [List.map_map, Seq.map_mapIdx] at hrows
    rw [hright, List.mapIdx_mapIdx]
    exact hrows

end Records

/-- **A file loads exactly when its respelling does**, and then to the respelled mushaf. -/
theorem loadCorpus_respell [Interpreter] {σ : Spelling} {edition raw raw' : Str} (h : RespelledText σ raw raw') :
    ((∃ c, loadCorpus edition raw = .ok c) ↔ ∃ c, loadCorpus edition raw' = .ok c) ∧
      ∀ c, loadCorpus edition raw = .ok c →
        ∃ M : Mushaf, c = M.corpus edition ∧ loadCorpus edition raw' = .ok ((M.respell σ).corpus edition) := by
  obtain ⟨hto, hfrom⟩ := parseLines_respelled h
  have hload : ∀ c, loadCorpus edition raw = .ok c →
      ∃ M : Mushaf, c = M.corpus edition ∧ loadCorpus edition raw' = .ok ((M.respell σ).corpus edition) := by
    intro c hc
    obtain ⟨records, M, hp, hM, rfl⟩ := lists_of_loadCorpus hc
    obtain ⟨records', hp', hr⟩ := hto records hp
    exact ⟨M, rfl, loadCorpus_of_lists (loadCorpus_eq_ok_iff.mp hc).1 hp' (hM.respell hr)⟩
  refine ⟨⟨fun ⟨c, hc⟩ => ?_, fun ⟨c', hc'⟩ => ?_⟩, hload⟩
  · obtain ⟨M, -, hc'⟩ := hload c hc
    exact ⟨_, hc'⟩
  · obtain ⟨records', hp', hn'⟩ := numbered_of_loadCorpus hc'
    obtain ⟨records, hp, hr⟩ := hfrom records' hp'
    obtain ⟨M, hM⟩ := ((numbered_respelled hr).mpr hn').exists_lists
    exact ⟨_, loadCorpus_of_lists (loadCorpus_eq_ok_iff.mp hc').1 hp hM⟩

/-! ## What is set apart -/

/-- A map that keeps tokens apart keeps lists of tokens apart. -/
theorem map_tokens_inj {h : Str → Str} (hinj : Set.InjOn h {t | IsToken t}) : ∀ {v w : List Str},
    (∀ t ∈ v, IsToken t) → (∀ t ∈ w, IsToken t) → v.map h = w.map h → v = w
  | [], [], _, _, _ => rfl
  | t :: v, u :: w, hv, hw, he => by
    obtain ⟨htu, hvw⟩ := List.cons.inj he
    rw [hinj (hv t (by simp)) (hw u (by simp)) htu, map_tokens_inj hinj (fun x hx => hv x (List.mem_cons_of_mem _ hx))
      (fun x hx => hw x (List.mem_cons_of_mem _ hx)) hvw]

/-- As many tokens, and those behind the first one are renamed by `h`. -/
structure TailRenamed (h : Str → Str) (v v' : List Str) : Prop where
  length : v'.length = v.length
  tail : v'.drop 1 = (v.drop 1).map h

/-- **Whether a verse opens with the basmala shows behind the first tokens**, and there up to equality. -/
theorem opens_congr {h : Str → Str} (hinj : Set.InjOn h {t | IsToken t}) {ref ref' v v' : List Str}
    (hr : TailRenamed h ref ref') (hv : TailRenamed h v v') (href : ∀ t ∈ ref, IsToken t) (hvt : ∀ t ∈ v, IsToken t)
    (n : Int) : Opens ref' n v' ↔ Opens ref n v := by
  have htail : (v'.take ref.length).drop 1 = ((v.take ref.length).drop 1).map h := by
    rw [List.drop_take, List.drop_take, hv.tail, List.map_take]
  have heq : (v'.take ref.length).drop 1 = ref'.drop 1 ↔ (v.take ref.length).drop 1 = ref.drop 1 := by
    rw [htail, hr.tail]
    refine ⟨fun he => ?_, fun he => by rw [he]⟩
    refine map_tokens_inj hinj (fun t ht => ?_) (fun t ht => href t (List.mem_of_mem_drop ht)) he
    exact hvt t (List.mem_of_mem_take (List.mem_of_mem_drop ht))
  rw [Opens, Opens, hr.length, hv.length, heq]

/-! ## Every token renamed -/

def Word.mapText (f : Str → Str) (w : Word) : Word := { w with text := f w.text }

def Aya.mapText (f : Str → Str) (a : Aya) : Aya := { a with words := a.words.map (·.mapText f) }

def Sura.mapText (f : Str → Str) (s : Sura) : Sura :=
  { s with ayas := s.ayas.map (·.mapText f), separatedBasmala := s.separatedBasmala.map (·.map (·.mapText f)) }

/-- The corpus with `f` applied to the text of every word. -/
def Corpus.mapText (f : Str → Str) (c : Corpus) : Corpus := { c with suras := c.suras.map (·.mapText f) }

/-- The addresses of the separated basmala words, sura by sura. -/
def Corpus.basmalaAddresses (c : Corpus) : List (Int × Option (List (Int × Int × Nat))) :=
  c.suras.map fun s => (s.number, s.separatedBasmala.map (·.map fun w => (w.sura, w.aya, w.position)))

/-- Texts are no part of an address. -/
theorem basmalaAddresses_mapText (f : Str → Str) (c : Corpus) :
    (c.mapText f).basmalaAddresses = c.basmalaAddresses := by
  unfold Corpus.basmalaAddresses Corpus.mapText
  rw [List.map_map]
  refine List.map_congr_left fun s _ => ?_
  simp [Sura.mapText, Word.mapText, Function.comp_def]

theorem enumWords_map (f : Str → Str) (s a : Int) (ts : List Str) :
    enumWords s a (ts.map f) = (enumWords s a ts).map (·.mapText f) := by
  rw [enumWords, enumWords, Seq.map_mapIdx, Seq.mapIdx_map]
  rfl

theorem ayasOf_map (f : Str → Str) (n : Int) (vs : List (List Str)) :
    ayasOf n (vs.map (·.map f)) = (ayasOf n vs).map (·.mapText f) := by
  rw [ayasOf, ayasOf, Seq.map_mapIdx, Seq.mapIdx_map]
  simp only [enumWords_map, Aya.mapText]

/-- **A renaming of the tokens renames the words of a sura**, those of its opening too. -/
theorem suraOf_everyToken {f : Str → Str} (hinj : Set.InjOn f {t | IsToken t}) {ref : List Str}
    (href : ∀ t ∈ ref, IsToken t) {vs : List (List Str)} (hvs : ∀ v ∈ vs, ∀ t ∈ v, IsToken t) (n : Int) :
    suraOf (ref.map f) n (vs.map (·.map f)) = (suraOf ref n vs).mapText f := by
  have hren : ∀ v : List Str, TailRenamed f v (v.map f) := fun v => ⟨List.length_map _, by rw [List.map_drop]⟩
  have hparts : opening (ref.map f) n (vs.map (·.map f)) = (opening ref n vs).map (·.map f) ∧
      bodies (ref.map f) n (vs.map (·.map f)) = (bodies ref n vs).map (·.map f) := by
    cases vs with
    | nil => simp [opening, bodies, Opens]
    | cons v vs =>
      have ho := opens_congr hinj (hren ref) (hren v) href (hvs v (by simp)) n
      by_cases h : Opens ref n v <;> simp [opening, bodies, ho, h, List.map_take, List.map_drop]
  rw [suraOf, suraOf, Sura.mapText, hparts.1, hparts.2, ayasOf_map]
  simp [Function.comp_def, enumWords_map]

/-! ## First tokens of verses 1 replaced -/

def Aya.mapFirst (g : Str → Str) (a : Aya) : Aya := { a with words := a.words.modifyHead (·.mapText g) }

/-- The sura with `g` applied to the first text of its verse 1: that of the separated basmala, else of the first aya. -/
def Sura.mapFirst (g : Str → Str) (s : Sura) : Sura :=
  match s.separatedBasmala with
  | some (w :: ws) => { s with separatedBasmala := some (w.mapText g :: ws) }
  | _ => { s with ayas := s.ayas.modifyHead (·.mapFirst g) }

/-- The corpus with `g s` applied to the first text of verse 1 of every sura `s`. -/
def Corpus.mapFirst (g : Int → Str → Str) (c : Corpus) : Corpus :=
  { c with suras := c.suras.map fun s => s.mapFirst (g s.number) }

theorem enumWords_modifyHead (g : Str → Str) (s a : Int) (ts : List Str) :
    enumWords s a (ts.modifyHead g) = (enumWords s a ts).modifyHead (·.mapText g) := by
  cases ts with
  | nil => rfl
  | cons t ts => simp [enumWords, Word.mapText, List.mapIdx_cons]

theorem ayasOf_modifyHead (g : Str → Str) (n : Int) (v : List Str) (vs : List (List Str)) :
    ayasOf n (v.modifyHead g :: vs) = (ayasOf n (v :: vs)).modifyHead (·.mapFirst g) := by
  simp [ayasOf, List.mapIdx_cons, enumWords_modifyHead, Aya.mapFirst]

/-- The first token has nothing to do with what is set apart. -/
theorem tailRenamed_modifyHead (g : Str → Str) (v : List Str) : TailRenamed id v (v.modifyHead g) :=
  ⟨List.length_modifyHead, by simp⟩

/-- **Another first token of verse 1 changes only the first text of a sura**, whatever the first token of the basmala
it is compared with. -/
theorem suraOf_firstToken (g : Str → Str) {ref ref' : List Str} (href : ∀ t ∈ ref, IsToken t)
    (hr : TailRenamed id ref ref') {vs : List (List Str)} (hvs : ∀ v ∈ vs, ∀ t ∈ v, IsToken t) (n : Int) :
    suraOf ref' n (vs.modifyHead (·.modifyHead g)) = (suraOf ref n vs).mapFirst g := by
  cases vs with
  | nil => simp [suraOf, opening, bodies, Opens, Sura.mapFirst, ayasOf]
  | cons v vs =>
    have ho : Opens ref' n (v.modifyHead g) ↔ Opens ref n v :=
      opens_congr (Set.injOn_id _) hr (tailRenamed_modifyHead g v) href (hvs v (by simp)) n
    by_cases h : Opens ref n v
    · have h' := ho.mpr h
      rw [List.modifyHead_cons]
      cases ref with
      | nil =>
        -- a basmala without tokens sets nothing apart, and the first text is that of the first aya
        obtain rfl : ref' = [] := List.length_eq_zero_iff.mp hr.length
        simp [suraOf, opening, bodies, h, h', Sura.mapFirst, enumWords, ayasOf_modifyHead]
      | cons r ref =>
        obtain ⟨t, v, rfl⟩ := List.exists_cons_of_length_pos (Nat.lt_of_le_of_lt (Nat.zero_le _) h.2.1)
        have hlen : ref'.length = ref.length + 1 := hr.length
        rw [List.modifyHead_cons] at h'
        simp [suraOf, opening, bodies, h, h', hlen, Sura.mapFirst, enumWords, Word.mapText, List.mapIdx_cons]
    · have h' := mt ho.mp h
      simp [suraOf, opening, bodies, h, h', Sura.mapFirst, ayasOf_modifyHead]

/-! ## The respelled corpus -/

section Mushaf

variable (M : Mushaf)

/-- The basmala of the respelled mushaf is the respelled basmala. -/
theorem Mushaf.basmala_respell (σ : Spelling) : (M.respell σ).basmala = σ.verse 1 1 M.basmala := by
  obtain ⟨vs, suras, hM⟩ := M.exists_first
  show ((M.respell σ).suras.headD []).headD [] = _
  simp [Mushaf.respell, hM, List.mapIdx_cons]

/-- If respelling its verses does `F` to every sura, then so it does in the corpus. -/
theorem Mushaf.corpus_respell {σ : Spelling} {F : Sura → Sura} (edition : Str)
    (h : ∀ (n : Nat) vs, M.suras[n]? = some vs →
      suraOf (σ.verse 1 1 M.basmala) ((n : Int) + 1) (vs.mapIdx fun a v => σ.verse ((n : Int) + 1) ((a : Int) + 1) v) =
        F (suraOf M.basmala ((n : Int) + 1) vs)) :
    (M.respell σ).corpus edition = ⟨edition, (M.corpus edition).suras.map F⟩ := by
  rw [Mushaf.corpus, Mushaf.basmala_respell, Mushaf.corpus, Mushaf.respell, List.mapIdx_mapIdx, Seq.map_mapIdx]
  congr 1
  rw [List.mapIdx_eq_mapIdx_iff]
  intro n hn
  exact h n _ (List.getElem?_eq_getElem hn)

/-- A renaming of the tokens applies to every text of the corpus. -/
theorem Mushaf.corpus_everyToken (edition : Str) {f : Str → Str} (hf : ∀ t, IsToken t → IsToken (f t))
    (hinj : Set.InjOn f {t | IsToken t}) :
    (M.respell (.everyToken f hf)).corpus edition = (M.corpus edition).mapText f := by
  refine M.corpus_respell edition fun n vs hv => ?_
  have hspell : (vs.mapIdx fun a v => (Spelling.everyToken f hf).verse ((n : Int) + 1) ((a : Int) + 1) v) =
      vs.map (·.map f) := by
    simp [Spelling.everyToken, List.mapIdx_eq_iff]
  rw [hspell]
  exact suraOf_everyToken hinj M.isToken_basmala (M.isToken vs (List.mem_of_getElem? hv)) _

/-- Other first tokens of verses 1 change only the first texts of the suras. -/
theorem Mushaf.corpus_firstToken (edition : Str) {g : Int → Str → Str} (hg : ∀ s t, IsToken t → IsToken (g s t)) :
    (M.respell (.firstToken g hg)).corpus edition = (M.corpus edition).mapFirst g := by
  refine M.corpus_respell edition fun n vs hv => ?_
  have hspell : (vs.mapIdx fun a v => (Spelling.firstToken g hg).verse ((n : Int) + 1) ((a : Int) + 1) v) =
      vs.modifyHead (·.modifyHead (g ((n : Int) + 1))) := by
    rw [List.mapIdx_eq_iff]
    intro a
    cases a with
    | zero => simp [Spelling.firstToken]
    | succ a =>
      have ha : ¬ ((a : Int) + 1 = 0) := by omega
      simp [Spelling.firstToken, ha]
  rw [hspell]
  exact suraOf_firstToken _ M.isToken_basmala (tailRenamed_modifyHead (g 1) _)
    (M.isToken vs (List.mem_of_getElem? hv)) _

end Mushaf

/-- **Detection is edition-agnostic.** If every token of a file is renamed, with different tokens kept apart, it loads
exactly when it did and every text of its corpus is renamed. If first tokens of verses 1 are replaced, only the first
texts of their suras change. -/
theorem loadCorpus_respelled [Interpreter] (edition raw raw' : Str) :
    (∀ (f : Str → Str) (hf : ∀ t, IsToken t → IsToken (f t)), Set.InjOn f {t | IsToken t} →
        RespelledText (.everyToken f hf) raw raw' →
        ((∃ c, loadCorpus edition raw = .ok c) ↔ ∃ c, loadCorpus edition raw' = .ok c) ∧
          ∀ c, loadCorpus edition raw = .ok c → loadCorpus edition raw' = .ok (c.mapText f) ∧
            (c.mapText f).basmalaAddresses = c.basmalaAddresses) ∧
      ∀ (g : Int → Str → Str) (hg : ∀ s t, IsToken t → IsToken (g s t)), RespelledText (.firstToken g hg) raw raw' →
        ((∃ c, loadCorpus edition raw = .ok c) ↔ ∃ c, loadCorpus edition raw' = .ok c) ∧
          ∀ c, loadCorpus edition raw = .ok c → loadCorpus edition raw' = .ok (c.mapFirst g) := by
  refine ⟨fun f hf hinj h => ?_, fun g hg h => ?_⟩
  · obtain ⟨hiff, hload⟩ := @loadCorpus_respell _ _ edition _ _ h
    refine ⟨hiff, fun c hc => ⟨?_, basmalaAddresses_mapText f c⟩⟩
    obtain ⟨M, rfl, hc'⟩ := hload c hc
    rw [hc', M.corpus_everyToken edition hf hinj]
  · obtain ⟨hiff, hload⟩ := @loadCorpus_respell _ _ edition _ _ h
    refine ⟨hiff, fun c hc => ?_⟩
    obtain ⟨M, rfl, hc'⟩ := hload c hc
    rw [hc', M.corpus_firstToken edition hg]

/-- The small file, with the basmala of sura 2 spelled as in sura 1. -/
def respelledText : Str := "# sample\n1|1|bismi allahi\n2|1|bismi allahi alif\n1|2|al|hamdu\n\n2|2|dhalika\n".toList

/-- The small file, with a letter in front of every token. -/
def renamedText : Str :=
  "# sample\n1|1|xbismi xallahi\n2|1|xbi-smi xallahi xalif\n1|2|xal|hamdu\n\n2|2|xdhalika\n".toList

/-- A file with the lines of the small file and respelled verses is a respelling of it. -/
theorem respelledText_sampleText {σ : Spelling} {raw : Str} (a b c d : Str)
    (hlines : splitlines raw = ["# sample".toList, "1".toList ++ '|' :: ("1".toList ++ '|' :: a),
      "2".toList ++ '|' :: ("1".toList ++ '|' :: b), "1".toList ++ '|' :: ("2".toList ++ '|' :: c), [],
      "2".toList ++ '|' :: ("2".toList ++ '|' :: d)])
    (ha : split a = σ.verse 1 1 ["bismi".toList, "allahi".toList])
    (hb : split b = σ.verse 2 1 ["bi-smi".toList, "allahi".toList, "alif".toList])
    (hc : split c = σ.verse 1 2 ["al|hamdu".toList]) (hd : split d = σ.verse 2 2 ["dhalika".toList]) :
    @RespelledText defaultInterpreter σ sampleText raw := by
  have hskip : ∀ line, @parseLine defaultInterpreter line = .ok none →
      @RespelledLine defaultInterpreter σ line line := fun line h =>
    @RespelledLine.other defaultInterpreter _ line fun r hr => by rw [h] at hr; cases hr
  have hsample : splitlines sampleText =
      ["# sample".toList, "1".toList ++ '|' :: ("1".toList ++ '|' :: "bismi allahi".toList),
        "2".toList ++ '|' :: ("1".toList ++ '|' :: "bi-smi allahi alif".toList),
        "1".toList ++ '|' :: ("2".toList ++ '|' :: "al|hamdu".toList), [],
        "2".toList ++ '|' :: ("2".toList ++ '|' :: "dhalika".toList)] := by decide
  have h1 : @int defaultInterpreter "1".toList = .ok 1 := by decide
  have h2 : @int defaultInterpreter "2".toList = .ok 2 := by decide
  have verse := @RespelledLine.of_numbers defaultInterpreter σ
  unfold RespelledText
  rw [hsample, hlines]
  simp only [List.forall₂_cons, List.forall₂_nil_left_iff, and_true]
  exact ⟨hskip _ (by decide), verse (by decide) (by decide) h1 h1 ha, verse (by decide) (by decide) h2 h1 hb,
    verse (by decide) (by decide) h1 h2 hc, hskip _ (by decide), verse (by decide) (by decide) h2 h2 hd⟩

/-- With a letter in front of every token, the small file loads to the corpus with renamed texts; with another first
token in verse 2:1, only this text changes. -/
theorem loadCorpus_respelled_sample :
    @loadCorpus defaultInterpreter "uthmani".toList renamedText = .ok (sampleCorpus.mapText ('x' :: ·)) ∧
      @loadCorpus defaultInterpreter "uthmani".toList respelledText =
        .ok (sampleCorpus.mapFirst fun s t => if s = 2 then "bismi".toList else t) := by
  have hf : ∀ t, IsToken t → IsToken ('x' :: t) := fun t ht =>
    ⟨List.cons_ne_nil _ _, List.forall_mem_cons.mpr ⟨by decide, ht.2⟩⟩
  have hinj : Set.InjOn ('x' :: ·) {t | IsToken t} := fun t _ t' _ h => (List.cons.inj h).2
  have hg : ∀ (s : Int) t, IsToken t → IsToken (if s = 2 then "bismi".toList else t) := by
    intro s t ht
    split
    · exact isToken_of_mem_split (s := "bismi".toList) (by decide)
    · exact ht
  have hrenamed : @RespelledText defaultInterpreter (.everyToken _ hf) sampleText renamedText :=
    respelledText_sampleText "xbismi xallahi".toList "xbi-smi xallahi xalif".toList "xal|hamdu".toList "xdhalika".toList
      (by decide) rfl rfl rfl rfl
  have hrespelled : @RespelledText defaultInterpreter (.firstToken _ hg) sampleText respelledText :=
    respelledText_sampleText "bismi allahi".toList "bismi allahi alif".toList "al|hamdu".toList "dhalika".toList
      (by decide) rfl rfl rfl rfl
  obtain ⟨hevery, -⟩ := @loadCorpus_respelled defaultInterpreter "uthmani".toList sampleText renamedText
  obtain ⟨-, hfirst⟩ := @loadCorpus_respelled defaultInterpreter "uthmani".toList sampleText respelledText
  exact ⟨((hevery _ hf hinj hrenamed).2 _ loadUthmani_sample).1, (hfirst _ hg hrespelled).2 _ loadUthmani_sample⟩

end QuranAnalysis
