import QuranAnalysis.Corpus.Export
import QuranAnalysis.Corpus.Respell

/-!
# What the loader rejects, and what it tells apart

- `loadCorpus_eq_error_iff`: the loader reports the first line that is not read; if all are, a missing verse 1:1; then
  suras that are not numbered from 1; then the first sura whose ayas are not. The report lists the numbers as they stand
  in the file (`Refused`, `Rejected`).
- `loadCorpus_eq_error_of_respelled`: so a respelled file is refused with the same exception.
- `loadCorpus_eq_iff`: accepted files load to the same corpus exactly when they have the same tokens verse by verse.
- `sura_eq_iff`: with one basmala, they load to the same sura exactly when its verses have the same tokens.
-/

namespace QuranAnalysis

open Py

/-- The suras in the order of their first lines. -/
def suraOrder (records : List Record) : List Int := (records.map (·.sura)).eraseDups

/-- The ayas of a sura in the order of their lines. -/
def ayaNumbers (records : List Record) (s : Int) : List Int :=
  (records.filter (fun r => r.sura = s)).map (·.aya)

/-- Numbers from 1, without gaps. -/
def Contiguous (ns : List Int) : Prop := ns = oneTo ns.length

/-- Why records that can be read are rejected: the first reason that applies. -/
inductive Rejected (records : List Record) : Exc → Prop
  | noBasmala (h : ∀ r ∈ records, ¬ (r.sura = 1 ∧ r.aya = 1)) :
      Rejected records (.valueError [.text "corpus missing aya 1:1 (cannot determine basmala reference)"])
  | suras (h : ∃ r ∈ records, r.sura = 1 ∧ r.aya = 1) (hs : ¬ Contiguous (suraOrder records)) :
      Rejected records (.valueError [.text "sura numbers not contiguous 1..N: ", .ints (suraOrder records)])
  | ayas {before after : List Int} {s : Int} (h : ∃ r ∈ records, r.sura = 1 ∧ r.aya = 1)
      (hs : Contiguous (suraOrder records)) (ho : suraOrder records = before ++ s :: after)
      (hb : ∀ t ∈ before, Contiguous (ayaNumbers records t)) (ha : ¬ Contiguous (ayaNumbers records s)) :
      Rejected records (.valueError [.text "sura ", .int s, .text " aya numbers not contiguous 1..k: ",
        .ints (ayaNumbers records s)])

/-! ## Validation -/

theorem validateSura_eq_error_iff {s : Sura} {e : Exc} : validateSura s = .error e ↔
    ¬ Contiguous (s.ayas.map (·.number)) ∧ e = .valueError [.text "sura ", .int s.number,
      .text " aya numbers not contiguous 1..k: ", .ints (s.ayas.map (·.number))] := by
  rw [validateSura, Contiguous, List.length_map]
  split
  · next h => simp [h, eq_comm]
  · next h => simp [not_not.mp h]

/-- Validation reports wrong sura numbers, or the first sura with wrong aya numbers. -/
theorem validate_eq_error_iff {suras : List Sura} {e : Exc} : validate suras = .error e ↔
    ¬ Contiguous (suras.map (·.number)) ∧
        e = .valueError [.text "sura numbers not contiguous 1..N: ", .ints (suras.map (·.number))] ∨
      Contiguous (suras.map (·.number)) ∧ ∃ before s after, suras = before ++ s :: after ∧
        (∀ t ∈ before, Contiguous (t.ayas.map (·.number))) ∧ validateSura s = .error e := by
  have hok : ∀ s : Sura, (∃ u, validateSura s = .ok u) ↔ Contiguous (s.ayas.map (·.number)) := fun s => by
    simp only [validateSura_eq_ok_iff, exists_const, Contiguous, List.length_map]
  rw [validate, Contiguous, List.length_map]
  split
  · next h => simp [h, eq_comm]
  · next h =>
    rw [bind_eq_error_iff, mapM_eq_error_iff]
    simp only [not_not.mp h, hok, not_true_eq_false, false_and, false_or, true_and, reduceCtorEq, and_false,
      exists_false, or_false]

section Loader

variable [Interpreter] {edition raw raw' : Str} {e : Exc}

omit [Interpreter] in
/-- The sura that is built for a number has the ayas of its lines. -/
theorem numbers_buildSura (records : List Record) (ref : Str) (n : Int) :
    (buildSura n (records.filter (fun r => r.sura = n)) ref).ayas.map (·.number) = ayaNumbers records n :=
  map_number_buildSura n _ ref

omit [Interpreter] in
/-- Validation of what is built from records. -/
theorem validate_builtSuras_eq_error_iff {records : List Record} {ref : Str}
    (h : ∃ r ∈ records, r.sura = 1 ∧ r.aya = 1) :
    validate (builtSuras records ref) = .error e ↔ Rejected records e := by
  have hnum : (builtSuras records ref).map (·.number) = suraOrder records := by
    rw [builtSuras, List.map_map]
    exact List.map_id _
  rw [validate_eq_error_iff, hnum]
  constructor
  · intro he
    rcases he with ⟨hs, rfl⟩ | ⟨hs, before, s, after, hsplit, hb, he⟩
    · exact .suras h hs
    · obtain ⟨ks, ks', ho, rfl, hks'⟩ := List.map_eq_append_iff.mp hsplit
      obtain ⟨k, ks', rfl, rfl, rfl⟩ := List.map_eq_cons_iff.mp hks'
      obtain ⟨ha, rfl⟩ := validateSura_eq_error_iff.mp he
      rw [numbers_buildSura] at ha ⊢
      refine .ayas h hs ho (fun t ht => ?_) ha
      have hbt := hb _ (List.mem_map_of_mem ht)
      rwa [numbers_buildSura] at hbt
  · intro he
    cases he with
    | noBasmala hno =>
      obtain ⟨r, hr, h1⟩ := h
      exact absurd h1 (hno r hr)
    | suras _ hs => exact .inl ⟨hs, rfl⟩
    | @ayas before after s _ hs ho hb ha =>
      let build := fun n => buildSura n (records.filter (fun r => r.sura = n)) ref
      refine .inr ⟨hs, before.map build, build s, after.map build, ?_, fun t ht => ?_, ?_⟩
      · rw [builtSuras, show (records.map (·.sura)).eraseDups = _ from ho, List.map_append, List.map_cons]
      · obtain ⟨k, hk, rfl⟩ := List.mem_map.mp ht
        rw [numbers_buildSura]
        exact hb k hk
      · rw [validateSura_eq_error_iff, numbers_buildSura]
        exact ⟨ha, rfl⟩

/-! ## Lines -/

/-- Why a line is not read. -/
inductive LineError (line : Str) : Exc → Prop
  | bars (hd : IsData line) (h : line.count '|' < 2) :
      LineError line (.valueError [.text "malformed corpus line (expected 'sura|aya|text'): ", .repr line])
  | sura {f g text : Str} {e : Exc} (hd : IsData line) (hl : line = f ++ '|' :: (g ++ '|' :: text)) (hf : '|' ∉ f)
      (hg : '|' ∉ g) (he : int f = .error e) : LineError line e
  | aya {f g text : Str} {s : Int} {e : Exc} (hd : IsData line) (hl : line = f ++ '|' :: (g ++ '|' :: text))
      (hf : '|' ∉ f) (hg : '|' ∉ g) (hs : int f = .ok s) (he : int g = .error e) : LineError line e

/-- The message of a data line with fewer than two bars shows the line. -/
theorem parseLine_of_count_lt {line : Str} (hd : IsData line) (h : line.count '|' < 2) :
    parseLine line =
      .error (.valueError [.text "malformed corpus line (expected 'sura|aya|text'): ", .repr line]) := by
  rw [parseLine, if_neg hd.not_skipped]
  rcases Seq.notMem_or_split '|' line with hl | ⟨f, m, hf, rfl⟩
  · rw [Seq.splitMax_of_notMem hl]
  · rw [List.count_append, List.count_cons_self] at h
    rw [Seq.splitMax_append_cons hf, Seq.splitMax_of_notMem (List.count_eq_zero.mp (by omega))]

theorem parseLine_eq_error_iff {line : Str} : parseLine line = .error e ↔ LineError line e := by
  constructor
  · intro h
    by_cases hd : IsData line
    · rcases few_bars_or_fields line with hb | ⟨f, g, text, hf, hg, rfl⟩
      · rw [parseLine_of_count_lt hd hb] at h
        cases h
        exact .bars hd hb
      · rw [parseLine_of_bars hf hg hd] at h
        rcases bind_eq_error_iff.mp h with he | ⟨s, hs, h⟩
        · exact .sura hd rfl hf hg he
        · rcases bind_eq_error_iff.mp h with he | ⟨a, -, h⟩
          · exact .aya hd rfl hf hg hs he
          · cases h
    · rw [parseLine_of_not_isData hd] at h
      cases h
  · intro h
    cases h with
    | bars hd hb => exact parseLine_of_count_lt hd hb
    | sura hd hl hf hg he =>
      subst hl
      rw [parseLine_of_bars hf hg hd]
      exact bind_eq_error_iff.mpr (.inl he)
    | aya hd hl hf hg hs he =>
      subst hl
      rw [parseLine_of_bars hf hg hd]
      exact bind_eq_error_iff.mpr (.inr ⟨_, hs, bind_eq_error_iff.mpr (.inl he)⟩)

/-! ## The loader -/

/-- Why a file is refused: an unknown edition, or else the first line that is not read, or else the numbers of the
records. -/
inductive Refused (edition raw : Str) : Exc → Prop
  | edition (h : editionFiles.lookup edition = none) :
      Refused edition raw (.valueError [.text "unknown edition ", .repr edition, .text "; expected one of ",
        .strs ["simple-clean".toList, "uthmani".toList]])
  | line {before after : List Str} {line : Str} {e : Exc} (hed : (editionFiles.lookup edition).isSome)
      (hs : splitlines raw = before ++ line :: after) (hb : ∀ l ∈ before, ∃ r, parseLine l = .ok r)
      (he : LineError line e) : Refused edition raw e
  | records {records : List Record} {e : Exc} (hed : (editionFiles.lookup edition).isSome)
      (hp : parseLines raw = .ok records) (he : Rejected records e) : Refused edition raw e

/-- Reading fails exactly at the first line that is not read. -/
theorem parseLines_eq_error_iff : parseLines raw = .error e ↔ ∃ before line after,
    splitlines raw = before ++ line :: after ∧ (∀ l ∈ before, ∃ r, parseLine l = .ok r) ∧ LineError line e := by
  rw [parseLines, bind_eq_error_iff, mapM_eq_error_iff]
  simp only [parseLine_eq_error_iff, reduceCtorEq, and_false, exists_false, or_false]

/-- With a known edition, the first line that is not read is reported, or else the numbers of the records. -/
theorem loadCorpus_eq_error_iff_of_edition {f : Str} (hed : editionFiles.lookup edition = some f) :
    loadCorpus edition raw = .error e ↔ (∃ before line after, splitlines raw = before ++ line :: after ∧
        (∀ l ∈ before, ∃ r, parseLine l = .ok r) ∧ LineError line e) ∨
      ∃ records, parseLines raw = .ok records ∧ Rejected records e := by
  rw [loadCorpus, hed, ← parseLines_eq_error_iff]
  simp only [bind_eq_error_iff]
  refine or_congr_right (exists_congr fun records => and_congr_right fun _ => ?_)
  cases href : records.find? (fun r => r.sura = 1 ∧ r.aya = 1) with
  | none =>
    have hno : ∀ r ∈ records, ¬ (r.sura = 1 ∧ r.aya = 1) := by simpa using href
    simp only [Except.error.injEq]
    constructor
    · intro he
      rw [← he]
      exact .noBasmala hno
    · intro he
      cases he with
      | noBasmala => rfl
      | suras h | ayas h =>
        obtain ⟨r, hr, h1⟩ := h
        exact absurd h1 (hno r hr)
  | some ref =>
    have h : ∃ r ∈ records, r.sura = 1 ∧ r.aya = 1 :=
      ⟨ref, List.mem_of_find?_eq_some href, by simpa using List.find?_some href⟩
    have hrej : Rejected records e ↔ validate (builtSuras records ref.text) = .error e :=
      (validate_builtSuras_eq_error_iff h).symm
    rw [hrej]
    simp only [mapM_order]
    cases hv : validate (builtSuras records ref.text) with
    | error e' => simp [hv, bind, Except.bind]
    | ok u => simp [hv, bind, Except.bind]

/-- **The loader raises the first reason to refuse a file.** -/
theorem loadCorpus_eq_error_iff : loadCorpus edition raw = .error e ↔ Refused edition raw e := by
  cases hed : editionFiles.lookup edition with
  | none =>
    rw [loadCorpus, hed]
    constructor
    · intro he
      cases he
      exact .edition hed
    · intro he
      cases he with
      | edition => rfl
      | line h | records h => simp [hed] at h
  | some f =>
    have hed' : (editionFiles.lookup edition).isSome := by rw [hed]; rfl
    rw [loadCorpus_eq_error_iff_of_edition hed]
    constructor
    · intro he
      rcases he with ⟨before, line, after, hs, hb, he⟩ | ⟨records, hp, he⟩
      · exact .line hed' hs hb he
      · exact .records hed' hp he
    · intro he
      cases he with
      | edition h => simp [hed] at h
      | line _ hs hb he => exact .inl ⟨_, _, _, hs, hb, he⟩
      | records _ hp he => exact .inr ⟨_, hp, he⟩

/-! ## Respelled files -/

omit [Interpreter] in
/-- What is reported of records are their numbers. -/
theorem Rejected.congr {records records' : List Record}
    (hn : records'.map (fun r => (r.sura, r.aya)) = records.map fun r => (r.sura, r.aya)) (h : Rejected records e) :
    Rejected records' e := by
  have hsuras : suraOrder records' = suraOrder records := by
    have hs := congrArg (List.map Prod.fst) hn
    rw [List.map_map, List.map_map] at hs
    exact congrArg List.eraseDups hs
  have hayas : ∀ s, ayaNumbers records' s = ayaNumbers records s := by
    intro s
    have ha := congrArg (fun l => (l.filter fun q : Int × Int => q.1 = s).map Prod.snd) hn
    simp only [List.filter_map, List.map_map] at ha
    exact ha
  have hmem : (∃ r ∈ records', r.sura = 1 ∧ r.aya = 1) ↔ ∃ r ∈ records, r.sura = 1 ∧ r.aya = 1 := by
    have hq : ∀ rs : List Record, (∃ r ∈ rs, r.sura = 1 ∧ r.aya = 1) ↔ (1, 1) ∈ rs.map fun r => (r.sura, r.aya) := by
      simp
    rw [hq, hq, hn]
  cases h with
  | noBasmala h =>
    refine .noBasmala fun r hr h1 => ?_
    obtain ⟨q, hq, h1⟩ := hmem.mp ⟨r, hr, h1⟩
    exact h q hq h1
  | suras h hs =>
    rw [← hsuras] at hs ⊢
    exact .suras (hmem.mpr h) hs
  | ayas h hs ho hb ha =>
    rw [← hsuras] at hs ho
    rw [← hayas] at ha ⊢
    exact .ayas (hmem.mpr h) hs ho (fun t ht => by rw [hayas]; exact hb t ht) ha

variable {σ : Spelling}

/-- A line and its respelling raise the same: no message shows the text of a verse. -/
theorem RespelledLine.parseLine_eq_error {line line' : Str} (h : RespelledLine σ line line') (e : Exc) :
    parseLine line = .error e ↔ parseLine line' = .error e := by
  by_cases hd : IsData line
  · have hd' := h.isData_iff.mp hd
    cases h with
    | other => exact Iff.rfl
    | verse hf hg =>
      rw [parseLine_of_bars hf hg hd, parseLine_of_bars hf hg hd']
      simp only [bind_eq_error_iff, reduceCtorEq, and_false, exists_false, or_false]
  · have hd' := fun hl => hd (h.isData_iff.mpr hl)
    rw [parseLine_of_not_isData hd, parseLine_of_not_isData hd']

/-- **A respelled file is refused with the same exception.** -/
theorem loadCorpus_eq_error_of_respelled (h : RespelledText σ raw raw') :
    loadCorpus edition raw = .error e ↔ loadCorpus edition raw' = .error e := by
  obtain ⟨hto, hfrom⟩ := parseLines_respelled h
  have hnumbers : ∀ {records records' : List Record}, List.Forall₂ (RespelledRecord σ) records records' →
      records'.map (fun r => (r.sura, r.aya)) = records.map fun r => (r.sura, r.aya) := fun hr =>
    (map_eq_of_forall₂ (fun r r' hrr => by rw [hrr.sura, hrr.aya]) hr).symm
  cases hed : editionFiles.lookup edition with
  | none => rw [loadCorpus, loadCorpus, hed]
  | some f =>
    rw [loadCorpus_eq_error_iff_of_edition hed, loadCorpus_eq_error_iff_of_edition hed, ← parseLines_eq_error_iff,
      ← parseLines_eq_error_iff]
    refine or_congr ?_ ?_
    · have hlines := mapM_eq_error_of_forall₂ (R := RespelledLine σ) (fun _ _ hl => hl.parseLine_eq_error) h e
      simpa [parseLines, bind_eq_error_iff] using hlines
    · constructor
      · intro hrej
        obtain ⟨records, hp, hrej⟩ := hrej
        obtain ⟨records', hp', hr⟩ := hto records hp
        exact ⟨records', hp', hrej.congr (hnumbers hr)⟩
      · intro hrej
        obtain ⟨records', hp', hrej⟩ := hrej
        obtain ⟨records, hp, hr⟩ := hfrom records' hp'
        exact ⟨records, hp, hrej.congr (hnumbers hr).symm⟩

end Loader

/-! ## What is told apart -/

/-- The verses of a sura, in the order of their lines: numbers and tokens. -/
def verseTokens (records : List Record) (s : Int) : List (Int × List Str) :=
  (records.filter (fun r => r.sura = s)).map fun r => (r.aya, split r.text)

section Lists

variable {records records' : List Record} {M M' : Mushaf}

theorem mem_sura_iff_verseTokens {s : Int} : s ∈ records.map (·.sura) ↔ verseTokens records s ≠ [] := by
  simp [verseTokens, List.filter_eq_nil_iff]

/-- The suras with verses are those of the mushaf. -/
theorem Lists.verseTokens_eq_nil_iff (h : Lists records M) {s : Int} :
    verseTokens records s = [] ↔ ¬ (1 ≤ s ∧ s ≤ M.suras.length) := by
  rw [← h.mem_sura_iff, mem_sura_iff_verseTokens, not_not]

/-- Records that list one mushaf have the same verses. -/
theorem Lists.verseTokens_eq (h : Lists records M) (h' : Lists records' M) (s : Int) :
    verseTokens records s = verseTokens records' s := by
  by_cases hs : 1 ≤ s ∧ s ≤ M.suras.length
  · obtain ⟨n, rfl⟩ : ∃ n : Nat, s = n + 1 := ⟨(s - 1).toNat, by omega⟩
    have hn : n < M.suras.length := by omega
    have hv : M.suras[n]? = some M.suras[n] := List.getElem?_eq_getElem hn
    exact (h.rows n _ hv).trans (h'.rows n _ hv).symm
  · rw [h.verseTokens_eq_nil_iff.mpr hs, h'.verseTokens_eq_nil_iff.mpr hs]

/-- Records with the verses of a mushaf list it. -/
theorem Lists.of_verseTokens (h : Lists records M) (h' : Lists records' M')
    (hs : ∀ s, verseTokens records s = verseTokens records' s) : Lists records' M := by
  have hiff : ∀ s : Int, (1 ≤ s ∧ s ≤ M'.suras.length) ↔ 1 ≤ s ∧ s ≤ M.suras.length := fun s => by
    rw [← h.mem_sura_iff, ← h'.mem_sura_iff, mem_sura_iff_verseTokens, mem_sura_iff_verseTokens, hs]
  have hlen : M'.suras.length = M.suras.length := by
    have h1 := hiff M.suras.length
    have h2 := hiff M'.suras.length
    have hpos := List.length_pos_iff.mpr M.ne_nil
    have hpos' := List.length_pos_iff.mpr M'.ne_nil
    omega
  exact ⟨by rw [h'.order, hlen], fun n vs hv => (hs _).symm.trans (h.rows n vs hv)⟩

end Lists

/-- **Files load to the same corpus exactly when they have the same tokens verse by verse.** -/
theorem loadCorpus_eq_iff [Interpreter] {edition raw raw' : Str} {records records' : List Record} {c c' : Corpus}
    (hp : parseLines raw = .ok records) (hp' : parseLines raw' = .ok records') (hc : loadCorpus edition raw = .ok c)
    (hc' : loadCorpus edition raw' = .ok c') :
    c = c' ↔ ∀ s, verseTokens records s = verseTokens records' s := by
  obtain ⟨_, M, hq, hM, rfl⟩ := lists_of_loadCorpus hc
  obtain ⟨_, M', hq', hM', rfl⟩ := lists_of_loadCorpus hc'
  cases hp.symm.trans hq
  cases hp'.symm.trans hq'
  constructor
  · intro he s
    -- the records of the common corpus list both
    have hL := lists_exportRecords M edition
    have hL' := lists_exportRecords M' edition
    rw [← he] at hL'
    exact (hM.verseTokens_eq hL s).trans (hL'.verseTokens_eq hM' s)
  · intro hs
    have hed := (loadCorpus_eq_ok_iff.mp hc).1
    have hload := loadCorpus_of_lists hed hp' (hM.of_verseTokens hM' hs)
    rw [hc'] at hload
    exact (Except.ok.inj hload).symm

theorem verseTokens_singleton (r : Record) (s : Int) :
    verseTokens [r] s = if r.sura = s then [(r.aya, split r.text)] else [] := by
  by_cases h : r.sura = s <;> simp [verseTokens, h]

/-- A file of one verse with wide spaces loads to the corpus of the file with single ones. -/
theorem loadCorpus_eq_iff_respaced :
    @loadCorpus defaultInterpreter "uthmani".toList "1|1|bismi allahi".toList =
      @loadCorpus defaultInterpreter "uthmani".toList "1|1| bismi\t allahi".toList := by
  let c : Corpus := ⟨"uthmani".toList, [⟨1, [⟨1, 1, enumWords 1 1 ["bismi".toList, "allahi".toList]⟩], none⟩]⟩
  have h : @loadCorpus defaultInterpreter "uthmani".toList "1|1|bismi allahi".toList = .ok c := by decide
  have h' : ∃ c', @loadCorpus defaultInterpreter "uthmani".toList "1|1| bismi\t allahi".toList = .ok c' :=
    ⟨c, by decide⟩
  obtain ⟨c', h'⟩ := h'
  have hiff := @loadCorpus_eq_iff defaultInterpreter "uthmani".toList _ _ [⟨1, 1, "bismi allahi".toList⟩]
    [⟨1, 1, "bismi\t allahi".toList⟩] _ _ (by decide) (by decide) h h'
  rw [h, h', hiff.mpr fun s => ?_]
  have hsplit : split "bismi allahi".toList = split "bismi\t allahi".toList := by decide
  rw [verseTokens_singleton, verseTokens_singleton, hsplit]

/-! ## One sura -/

/-- The first verse of sura 1 is the basmala. -/
theorem Lists.head?_verseTokens {records : List Record} {M : Mushaf} (h : Lists records M) :
    (verseTokens records 1).head? = some (1, M.basmala) := by
  obtain ⟨vs, suras, hM⟩ := M.exists_first
  have hrows : verseTokens records 1 = (M.basmala :: vs).mapIdx fun a v => ((a : Int) + 1, v) :=
    h.rows 0 (M.basmala :: vs) (by rw [hM]; rfl)
  rw [hrows, List.mapIdx_cons]
  rfl

/-- The opening and the bodies restore the verses. -/
theorem opening_cons_bodies (ref : List Str) (n : Int) {vs : List (List Str)} (hne : vs ≠ []) :
    ((opening ref n vs).getD [] ++ (bodies ref n vs).headD []) :: (bodies ref n vs).tail = vs := by
  obtain ⟨v, vs, rfl⟩ := List.exists_cons_of_ne_nil hne
  rw [opening, bodies]
  split <;> simp

/-- A sura that is built from verses restores them. -/
theorem suraOf_injective {ref ref' : List Str} {n : Int} {vs vs' : List (List Str)} (hne : vs ≠ []) (hne' : vs' ≠ [])
    (h : suraOf ref n vs = suraOf ref' n vs') : vs = vs' := by
  simp only [suraOf, Sura.mk.injEq, true_and] at h
  obtain ⟨hayas, hopening⟩ := h
  have hb : bodies ref n vs = bodies ref' n vs' := by
    have htexts : ∀ vs : List (List Str), (ayasOf n vs).map (fun a => a.words.map (·.text)) = vs := by
      intro vs
      apply List.ext_getElem?
      intro i
      rw [List.getElem?_map, getElem?_ayasOf]
      cases vs[i]? <;> simp
    rw [← htexts (bodies ref n vs), hayas, htexts]
  have ho : opening ref n vs = opening ref' n vs' := by
    have htexts : ∀ o : Option (List Str), (o.map (enumWords n basmalaAya)).map (List.map (·.text)) = o := by
      intro o
      cases o <;> simp
    rw [← htexts (opening ref n vs), hopening, htexts]
  rw [← opening_cons_bodies ref n hne, ← opening_cons_bodies ref' n hne', hb, ho]

/-- A number that is no sura is looked up in vain. -/
theorem corpus_sura_missing {M : Mushaf} {edition : Str} {s : Int} (hs : ¬ (1 ≤ s ∧ s ≤ M.suras.length)) :
    (M.corpus edition).sura s = .error (.keyError [.text "sura ", .int s, .text " not found"]) := by
  rw [Corpus.sura, Mushaf.corpus, Seq.find?_mapIdx_eq_none Sura.number (by intros; rfl) hs]

/-- Verses that are numbered in order are told apart. -/
theorem mapIdx_number_injective {vs vs' : List (List Str)}
    (h : (vs.mapIdx fun a v => ((a : Int) + 1, v)) = vs'.mapIdx fun a v => ((a : Int) + 1, v)) : vs = vs' := by
  have hsnd : ∀ vs : List (List Str), (vs.mapIdx fun a v => ((a : Int) + 1, v)).map Prod.snd = vs := by
    intro vs
    apply List.ext_getElem?
    intro i
    rw [List.getElem?_map, List.getElem?_mapIdx]
    cases vs[i]? <;> rfl
  rw [← hsnd vs, h, hsnd]

/-- With one basmala, the suras of two mushafs agree exactly when they have the same verses. -/
theorem corpus_sura_eq_iff {M M' : Mushaf} {edition edition' : Str} {n : Nat} {vs vs' : List (List Str)}
    (hb : M.basmala = M'.basmala) (hv : M.suras[n]? = some vs) (hv' : M'.suras[n]? = some vs') :
    (M.corpus edition).sura ((n : Int) + 1) = (M'.corpus edition').sura ((n : Int) + 1) ↔ vs = vs' := by
  rw [corpus_sura hv, corpus_sura hv', hb]
  constructor
  · intro h
    exact suraOf_injective (M.sura_ne_nil vs (List.mem_of_getElem? hv)) (M'.sura_ne_nil vs' (List.mem_of_getElem? hv'))
      (Except.ok.inj h)
  · intro h
    rw [h]

/-- **A loaded sura depends on its own verses and the basmala, and on nothing else.** In two accepted files with the
same verse 1:1, the lookups of a sura agree exactly when its verses have the same tokens. -/
theorem sura_eq_iff [Interpreter] {edition edition' raw raw' : Str} {records records' : List Record} {c c' : Corpus}
    (hp : parseLines raw = .ok records) (hp' : parseLines raw' = .ok records') (hc : loadCorpus edition raw = .ok c)
    (hc' : loadCorpus edition' raw' = .ok c') (hb : (verseTokens records 1).head? = (verseTokens records' 1).head?)
    (s : Int) : c.sura s = c'.sura s ↔ verseTokens records s = verseTokens records' s := by
  obtain ⟨_, M, hq, hM, rfl⟩ := lists_of_loadCorpus hc
  obtain ⟨_, M', hq', hM', rfl⟩ := lists_of_loadCorpus hc'
  cases hp.symm.trans hq
  cases hp'.symm.trans hq'
  rw [hM.head?_verseTokens, hM'.head?_verseTokens] at hb
  have hbasmala : M.basmala = M'.basmala := congrArg Prod.snd (Option.some.inj hb)
  have hnil := hM.verseTokens_eq_nil_iff (s := s)
  have hnil' := hM'.verseTokens_eq_nil_iff (s := s)
  -- is there such a sura, in the one file and in the other?
  by_cases hs : 1 ≤ s ∧ s ≤ M.suras.length <;> by_cases hs' : 1 ≤ s ∧ s ≤ M'.suras.length
  · obtain ⟨n, rfl⟩ : ∃ n : Nat, s = n + 1 := ⟨(s - 1).toNat, by omega⟩
    have hv : M.suras[n]? = some M.suras[n] := List.getElem?_eq_getElem (by omega)
    have hv' : M'.suras[n]? = some M'.suras[n] := List.getElem?_eq_getElem (by omega)
    have hrows : verseTokens records ((n : Int) + 1) = _ := hM.rows n _ hv
    have hrows' : verseTokens records' ((n : Int) + 1) = _ := hM'.rows n _ hv'
    rw [corpus_sura_eq_iff hbasmala hv hv', hrows, hrows']
    exact ⟨fun h => by rw [h], mapIdx_number_injective⟩
  · obtain ⟨n, rfl⟩ : ∃ n : Nat, s = n + 1 := ⟨(s - 1).toNat, by omega⟩
    have hv : M.suras[n]? = some M.suras[n] := List.getElem?_eq_getElem (by omega)
    rw [corpus_sura hv, corpus_sura_missing hs', hnil'.mpr hs', hnil]
    simp [hs]
  · obtain ⟨n, rfl⟩ : ∃ n : Nat, s = n + 1 := ⟨(s - 1).toNat, by omega⟩
    have hv' : M'.suras[n]? = some M'.suras[n] := List.getElem?_eq_getElem (by omega)
    rw [corpus_sura hv', corpus_sura_missing hs, hnil.mpr hs, @eq_comm _ [], hnil']
    simp [hs']
  · rw [corpus_sura_missing hs, corpus_sura_missing hs', hnil.mpr hs, hnil'.mpr hs']
    exact ⟨fun _ => rfl, fun _ => rfl⟩

/-- A further verse in sura 1 does not change sura 2. -/
theorem sura_eq_iff_second : ∃ c c',
    @loadCorpus defaultInterpreter "uthmani".toList "1|1|bismi allahi\n2|1|alif".toList = .ok c ∧
      @loadCorpus defaultInterpreter "uthmani".toList "1|1|bismi allahi\n1|2|lam\n2|1|alif".toList = .ok c' ∧
        c.sura 2 = c'.sura 2 := by
  let s : Sura := ⟨2, [⟨2, 1, enumWords 2 1 ["alif".toList]⟩], none⟩
  let verse : Aya := ⟨1, 1, enumWords 1 1 ["bismi".toList, "allahi".toList]⟩
  have h : @loadCorpus defaultInterpreter "uthmani".toList "1|1|bismi allahi\n2|1|alif".toList =
      .ok ⟨"uthmani".toList, [⟨1, [verse], none⟩, s]⟩ := by decide
  have h' : @loadCorpus defaultInterpreter "uthmani".toList "1|1|bismi allahi\n1|2|lam\n2|1|alif".toList =
      .ok ⟨"uthmani".toList, [⟨1, [verse, ⟨1, 2, enumWords 1 2 ["lam".toList]⟩], none⟩, s]⟩ := by decide
  have hiff := @sura_eq_iff defaultInterpreter _ _ _ _ [⟨1, 1, "bismi allahi".toList⟩, ⟨2, 1, "alif".toList⟩]
    [⟨1, 1, "bismi allahi".toList⟩, ⟨1, 2, "lam".toList⟩, ⟨2, 1, "alif".toList⟩] _ _ (by decide) (by decide) h h'
      (by decide) 2
  exact ⟨_, _, h, h', hiff.mpr (by decide)⟩

end QuranAnalysis
