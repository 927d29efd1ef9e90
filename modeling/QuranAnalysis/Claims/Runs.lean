import QuranAnalysis.Claims.Position
import QuranAnalysis.Claims.ReadBack

/-!
# Runs of the register

A run evaluates the claims of a register one after the other and stops at the first check that raises. `Raises` lists
the exceptions of the checks: a missing edition, a missing sura, an asserted position that is none, and a measured
position that cannot be written.

- `evaluateClaim_eq_error_iff`: a claim raises exactly what its check raises, unless its morphology is missing.
- `runRegister_eq_error_iff`: a run raises exactly what its first raising claim raises.
- `runRegister_outcome`: on a loaded corpus, a run returns exactly when the suras of its claims are there and its
  asserted positions are positions.
- `generateReport_perm`: a reordered register has the same report with its rows reordered.
-/

namespace QuranAnalysis

open Py

/-- The ids of the checks that read a corpus. -/
def corpusChecks : List Str :=
  ["sab-seven-heavens".toList, "dunya-115".toList, "qaf-surah50-frequency".toList, "noon-surah68-frequency".toList,
    "dunya-akhira-equal".toList, positionalId]

/-- The ids of the checks that read the letters of a sura. -/
def letterSuras : List (Str × Int) := [("qaf-surah50-frequency".toList, 50), ("noon-surah68-frequency".toList, 68)]

theorem mem_corpusChecks_of_mem_letterSuras : ∀ e ∈ letterSuras, e.1 ∈ corpusChecks ∧ e.1 ≠ positionalId := by decide

/-- A corpus is missing exactly when its edition is. -/
theorem corpus_eq_error_iff {ctx : CheckContext} {edition : Str} {e : Exc} : ctx.corpus edition = .error e ↔
    ctx.corpora.lookup edition = none ∧ e = .keyError [.text "no corpus loaded for edition ", .repr edition] := by
  unfold CheckContext.corpus
  cases ctx.corpora.lookup edition with
  | none => simp [eq_comm]
  | some c => simp

theorem corpus_eq_ok_iff {ctx : CheckContext} {edition : Str} {c : Corpus} :
    ctx.corpus edition = .ok c ↔ ctx.corpora.lookup edition = some c := by
  unfold CheckContext.corpus
  cases ctx.corpora.lookup edition with
  | none => simp
  | some c => simp

section Registry

variable [Interpreter]

/-- The exceptions of the check of a claim. -/
inductive Raises (claim : Claim) (ctx : CheckContext) : Exc → Prop
  | edition (h : claim.id ∈ corpusChecks) (hc : ctx.corpora.lookup simpleClean = none) :
      Raises claim ctx (.keyError [.text "no corpus loaded for edition ", .repr simpleClean])
  | sura {c : Corpus} {n : Int} (h : (claim.id, n) ∈ letterSuras) (hc : ctx.corpora.lookup simpleClean = some c)
      (hs : ∀ s ∈ c.suras, s.number ≠ n) : Raises claim ctx (.keyError [.text "sura ", .int n, .text " not found"])
  | asserted {c : Corpus} {e : Exc} (h : claim.id = positionalId) (hc : ctx.corpora.lookup simpleClean = some c)
      (hp : parsePos claim.assertedValue = .error e) : Raises claim ctx e
  | measured {c : Corpus} {p : Int × Int} {e : Exc} (h : claim.id = positionalId)
      (hc : ctx.corpora.lookup simpleClean = some c) (hp : parsePos claim.assertedValue = .ok p)
      (hr : renderPos (nameFirst c) = .error e) : Raises claim ctx e

variable {claim : Claim} {ctx : CheckContext} {e : Exc}

/-! ## What a check raises -/

/-- A check that raises what the claims of its id raise. -/
def RaisesAs (id : Str) (fn : CheckFn) : Prop :=
  ∀ claim ctx e, claim.id = id → (fn claim ctx = .error e ↔ Raises claim ctx e)

/-- Only checks that read a corpus raise. -/
theorem Raises.mem (h : Raises claim ctx e) : claim.id ∈ corpusChecks := by
  cases h with
  | edition h => exact h
  | sura h => exact (mem_corpusChecks_of_mem_letterSuras _ h).1
  | asserted h | measured h =>
    rw [h]
    decide

/-- The other checks always return. -/
theorem raisesAs_of_returns {id : Str} (hid : id ∉ corpusChecks) {fn : CheckFn}
    (hfn : ∀ claim ctx, ∃ m, fn claim ctx = .ok m) : RaisesAs id fn := by
  rintro claim ctx e rfl
  refine ⟨fun h => ?_, fun h => absurd h.mem hid⟩
  obtain ⟨m, hm⟩ := hfn claim ctx
  rw [hm] at h
  cases h

/-- A check of forms raises only for a missing edition. -/
theorem raisesAs_corpus {id : Str} {g : Claim → Corpus → Measurement} (hid : id ∈ corpusChecks)
    (hl : ∀ n, (id, n) ∉ letterSuras) (hp : id ≠ positionalId) :
    RaisesAs id fun claim ctx => ctx.corpus simpleClean >>= fun c => .ok (g claim c) := by
  rintro claim ctx e rfl
  rw [bind_eq_error_iff, corpus_eq_error_iff]
  constructor
  · rintro (⟨hc, rfl⟩ | ⟨c, -, h⟩)
    · exact .edition hid hc
    · cases h
  · intro h
    cases h with
    | edition h hc => exact .inl ⟨hc, rfl⟩
    | sura h => exact absurd h (hl _)
    | asserted h | measured h => exact absurd h hp

/-- A check of letters raises for a missing edition, or for a missing sura. -/
theorem raisesAs_letterCheck {id : Str} {n : Int} (hn : ∀ k, (id, k) ∈ letterSuras ↔ k = n) (letter : Char) :
    RaisesAs id (letterCheck n letter) := by
  rintro claim ctx e rfl
  obtain ⟨hid, hne⟩ := mem_corpusChecks_of_mem_letterSuras _ ((hn n).mpr rfl)
  have hsura : ∀ c : Corpus, c.sura n = .error e ↔
      (∀ s ∈ c.suras, s.number ≠ n) ∧ e = .keyError [.text "sura ", .int n, .text " not found"] := by
    intro c
    have hnone : c.suras.find? (fun s => s.number = n) = none ↔ ∀ s ∈ c.suras, s.number ≠ n := by
      simp
    rw [← hnone, Corpus.sura]
    cases c.suras.find? (fun s => s.number = n) with
    | none => simp [eq_comm]
    | some s => simp
  have herr : ∀ c : Corpus, (suraLetterFreq c n >>= fun freq =>
      (.ok (counted claim ((freq.lookup letter).getD 0)) : Result Measurement)) = .error e ↔ c.sura n = .error e := by
    intro c
    rw [suraLetterFreq]
    cases c.sura n with
    | ok s => simp [bind, Except.bind]
    | error e => simp [bind, Except.bind]
  rw [letterCheck, bind_eq_error_iff, corpus_eq_error_iff]
  simp only [herr, hsura, corpus_eq_ok_iff]
  constructor
  · rintro (⟨hc, rfl⟩ | ⟨c, hc, hs, rfl⟩)
    · exact .edition hid hc
    · exact .sura ((hn n).mpr rfl) hc hs
  · intro h
    cases h with
    | edition h hc => exact .inl ⟨hc, rfl⟩
    | @sura c k h hc hs =>
      obtain rfl := (hn k).mp h
      exact .inr ⟨c, hc, hs, rfl⟩
    | asserted h | measured h => exact absurd h hne

/-- The positional check raises for a missing edition, and for positions that cannot be read or written. -/
theorem raisesAs_allahFirstOccurrence11 : RaisesAs positionalId allahFirstOccurrence11 := by
  intro claim ctx e hid
  rw [allahFirstOccurrence11, bind_eq_error_iff, corpus_eq_error_iff]
  simp only [bind_eq_error_iff, corpus_eq_ok_iff, reduceCtorEq, and_false, exists_false, or_false]
  constructor
  · rintro (⟨hc, rfl⟩ | ⟨c, hc, hp | ⟨p, hp, hr⟩⟩)
    · exact .edition (by rw [hid]; decide) hc
    · exact .asserted hid hc hp
    · exact .measured hid hc hp hr
  · intro h
    cases h with
    | edition h hc => exact .inl ⟨hc, rfl⟩
    | sura h => exact absurd hid (mem_corpusChecks_of_mem_letterSuras _ h).2
    | asserted h hc hp => exact .inr ⟨_, hc, .inl hp⟩
    | measured h hc hp hr => exact .inr ⟨_, hc, .inr ⟨_, hp, hr⟩⟩

/-- **Every built-in check raises what the claims of its id raise.** -/
theorem raisesAs_of_mem : ∀ e ∈ builtinChecks, RaisesAs e.1 e.2 := by
  simp only [builtinChecks, List.forall_mem_cons]
  refine ⟨?abjadAllah, ?abjadBasmala, ?yawm, ?shahr, ?ayyam, ?sab, ?dunya, ?qaf, ?noon, ?basmala, ?dunyaAkhira, ?hayat,
    ?malaika, ?rajul, ?bahr, raisesAs_allahFirstOccurrence11, by simp⟩
  case abjadAllah | abjadBasmala | basmala => exact raisesAs_of_returns (by decide) fun _ _ => ⟨_, rfl⟩
  case yawm | shahr | ayyam | hayat | malaika | rajul | bahr =>
    exact raisesAs_of_returns (by decide) fun _ ctx => by cases ctx with | mk _ m => cases m <;> exact ⟨_, rfl⟩
  case sab | dunya =>
    exact raisesAs_corpus (g := fun claim c => counted claim (countByForm c _ false normalize)) (by decide)
      (by simp [letterSuras]) (by decide)
  case qaf | noon => exact raisesAs_letterCheck (by simp [letterSuras]) _
  case dunyaAkhira =>
    exact raisesAs_corpus
      (g := fun _ c => countedPair (countByForm c _ false normalize) (countByForm c _ false normalize)) (by decide)
      (by simp [letterSuras]) (by decide)

/-! ## What a run raises -/

/-- The check of a claim is not called for want of a morphology. -/
def Skipped (claim : Claim) (ctx : CheckContext) : Prop := claim.requiresMorphology = true ∧ ctx.morphology = none

/-- **A claim raises exactly what its check raises**, unless the check is not called. -/
theorem evaluateClaim_eq_error_iff :
    evaluateClaim claim ctx none = .error e ↔ ¬ Skipped claim ctx ∧ Raises claim ctx e := by
  cases hl : builtinChecks.lookup claim.id with
  | none =>
    rw [evaluateClaim_of_none ctx hl]
    refine iff_of_false (by simp) fun h => ?_
    have hall : ∀ id ∈ corpusChecks, (builtinChecks.lookup id).isSome := by
      simp only [Seq.Dict.lookup_isSome, Seq.Dict.keys, builtinChecks, List.map_cons, List.map_nil]
      decide
    have hsome := hall _ h.2.mem
    rw [hl] at hsome
    cases hsome
  | some fn =>
    have hraises := raisesAs_of_mem _ (lookup_builtinChecks.mp hl) claim ctx e rfl
    rw [evaluateClaim_of_some ctx hl]
    split
    · next hs => exact iff_of_false (by simp) fun h => h.1 hs
    · next hs =>
      rw [← hraises, bind_eq_error_iff]
      refine ⟨fun h => ⟨hs, h.resolve_right fun hm => ?_⟩, fun h => .inl h.2⟩
      obtain ⟨m, -, hm⟩ := hm
      split at hm <;> cases hm

/-- A claim returns exactly when it does not raise. -/
theorem evaluateClaim_returns_iff :
    (∃ r, evaluateClaim claim ctx none = .ok r) ↔ Skipped claim ctx ∨ ∀ e, ¬ Raises claim ctx e := by
  rw [← not_iff_not, not_or, not_forall_not, ← exists_and_left]
  simp only [← evaluateClaim_eq_error_iff]
  cases evaluateClaim claim ctx none with
  | ok r => simp
  | error e => simp

/-- **A run raises exactly what its first raising claim raises.** -/
theorem runRegister_eq_error_iff {register : ClaimsRegister} : runRegister register ctx none = .error e ↔
    ∃ before claim after, register.claims = before ++ claim :: after ∧
      (∀ c ∈ before, Skipped c ctx ∨ ∀ e, ¬ Raises c ctx e) ∧ ¬ Skipped claim ctx ∧ Raises claim ctx e := by
  simp only [runRegister, mapM_eq_error_iff, evaluateClaim_returns_iff, evaluateClaim_eq_error_iff]

/-! ## Runs on a loaded corpus -/

/-- The corpus has the sura whose letters the check reads, and the asserted position is one. -/
structure Ready (claim : Claim) (c : Corpus) : Prop where
  sura : ∀ n, (claim.id, n) ∈ letterSuras → n ≤ c.suras.length
  asserted : claim.id = positionalId → ∃ t, claim.assertedValue = .str t ∧ SpellsPosition t

/-- An asserted value is a position exactly when it is a text that spells one. -/
theorem parsePos_returns_iff {v : Asserted} : (∃ p, parsePos v = .ok p) ↔ ∃ t, v = .str t ∧ SpellsPosition t := by
  constructor
  · rintro ⟨p, hp⟩
    cases v with
    | int n =>
      obtain ⟨msg, hmsg⟩ := isValueError_parsePos_int n
      rw [hp] at hmsg
      cases hmsg
    | str t =>
      refine ⟨t, rfl, by_contra fun ht => ?_⟩
      obtain ⟨msg, hmsg⟩ := isValueError_parsePos_str ht
      rw [hp] at hmsg
      cases hmsg
  · rintro ⟨t, rfl, f, g, p, q, hf, hg, rfl, hp, hq⟩
    exact ⟨(p, q), parsePos_eq_ok_iff.mpr ⟨f, g, hf, hg, rfl, hp, hq⟩⟩

variable {raw : Str} {c : Corpus}

/-- The suras of a loaded corpus are numbered from 1. -/
theorem exists_number_iff (hc : loadSimpleClean raw = .ok c) {n : Int} :
    (∃ s ∈ c.suras, s.number = n) ↔ 1 ≤ n ∧ n ≤ c.suras.length := by
  obtain ⟨records, M, -, -, rfl⟩ := lists_of_loadCorpus hc
  simp only [Mushaf.corpus, Seq.mem_mapIdx_iff, List.length_mapIdx]
  constructor
  · rintro ⟨s, ⟨k, vs, hv, rfl⟩, rfl⟩
    have := (List.getElem?_eq_some_iff.mp hv).1
    simp only [suraOf]
    omega
  · rintro ⟨h1, h2⟩
    have hlt : (n - 1).toNat < M.suras.length := by omega
    exact ⟨_, ⟨_, _, List.getElem?_eq_getElem hlt, rfl⟩, by simp only [suraOf]; omega⟩

/-- **On a loaded corpus, no check raises exactly for the claims that are ready.** -/
theorem not_raises_iff (hc : loadSimpleClean raw = .ok c) (hctx : ctx.corpora.lookup simpleClean = some c) :
    (∀ e, ¬ Raises claim ctx e) ↔ Ready claim c := by
  constructor
  · intro h
    constructor
    case sura =>
      intro n hn
      by_contra hlt
      refine h _ (.sura hn hctx fun s hs he => hlt ?_)
      exact ((exists_number_iff hc).mp ⟨s, hs, he⟩).2
    case asserted =>
      intro hid
      rw [← parsePos_returns_iff]
      cases hp : parsePos claim.assertedValue with
      | ok p => exact ⟨p, rfl⟩
      | error e => exact absurd (.asserted hid hctx hp) (h e)
  · intro h e hr
    cases hr with
    | edition _ hn =>
      rw [hctx] at hn
      cases hn
    | @sura c' n hn hc' hs =>
      obtain rfl : c = c' := Option.some.inj (hctx.symm.trans hc')
      have hpos : ∀ e ∈ letterSuras, 1 ≤ e.2 := by decide
      obtain ⟨s, hm, he⟩ := (exists_number_iff hc).mpr ⟨hpos _ hn, h.sura n hn⟩
      exact hs s hm he
    | asserted hid _ hp =>
      obtain ⟨p, hp'⟩ := parsePos_returns_iff.mpr (h.asserted hid)
      rw [hp] at hp'
      cases hp'
    | @measured c' p e _ hc' _ hr =>
      obtain rfl : c = c' := Option.some.inj (hctx.symm.trans hc')
      obtain ⟨v, hv⟩ := exists_renderPos hc
      rw [hr] at hv
      cases hv

/-- **On a loaded corpus, a run returns exactly when all its claims are ready** or skipped. -/
theorem runRegister_returns_iff (hc : loadSimpleClean raw = .ok c) (hctx : ctx.corpora.lookup simpleClean = some c)
    (register : ClaimsRegister) : (∃ results, runRegister register ctx none = .ok results) ↔
      ∀ claim ∈ register.claims, Skipped claim ctx ∨ Ready claim c := by
  simp only [runRegister, mapM_returns_iff, evaluateClaim_returns_iff, not_raises_iff hc hctx]

/-- **The outcomes of a run on a loaded corpus**: it returns exactly when all its claims are ready or skipped, and
otherwise raises exactly what its first raising claim raises. -/
theorem runRegister_outcome (hc : loadSimpleClean raw = .ok c) (hctx : ctx.corpora.lookup simpleClean = some c)
    (register : ClaimsRegister) :
    ((∃ results, runRegister register ctx none = .ok results) ↔
        ∀ claim ∈ register.claims, Skipped claim ctx ∨ Ready claim c) ∧
      ∀ e, runRegister register ctx none = .error e ↔ ∃ before claim after,
        register.claims = before ++ claim :: after ∧ (∀ k ∈ before, Skipped k ctx ∨ Ready k c) ∧ ¬ Skipped claim ctx ∧
          Raises claim ctx e := by
  refine ⟨runRegister_returns_iff hc hctx register, fun e => ?_⟩
  simp only [runRegister_eq_error_iff, not_raises_iff hc hctx]

/-! ## The order of the claims -/

/-- The result and the row of a claim. -/
structure Outcome (ctx : CheckContext) (checks : Option (Seq.Dict Str CheckFn)) (claim : Claim)
    (o : ClaimResult × Str) : Prop where
  result : evaluateClaim claim ctx checks = .ok o.1
  row : renderRow claim o.1 = .ok o.2

variable {checks : Option (Seq.Dict Str CheckFn)} {register register' : ClaimsRegister}

/-- The results and the rows of claims, one by one. -/
theorem forall₂_outcome_iff {claims : List Claim} {out : List (ClaimResult × Str)} :
    List.Forall₂ (Outcome ctx checks) claims out ↔
      claims.mapM (evaluateClaim · ctx checks) = .ok (out.map Prod.fst) ∧
        renderRows claims (out.map Prod.fst) = .ok (out.map Prod.snd) := by
  induction claims generalizing out with
  | nil => cases out <;> simp [renderRows, pure, Except.pure]
  | cons claim claims ih =>
    cases out with
    | nil => simp [renderRows]
    | cons o out =>
      simp only [List.forall₂_cons, ih, mapM_eq_ok_iff, List.map_cons, renderRows, bind_eq_ok_iff, Except.ok.injEq,
        List.cons.injEq]
      constructor
      · rintro ⟨⟨he, hr⟩, hes, hrs⟩
        exact ⟨⟨he, hes⟩, _, hr, _, hrs, rfl, rfl⟩
      · rintro ⟨⟨he, hes⟩, _, hr, _, hrs, rfl, rfl⟩
        exact ⟨⟨he, hr⟩, hes, hrs⟩

/-- **A report is made of a result and a row for every claim.** -/
theorem generateReport_eq_ok_iff {text : Str} : generateReport register ctx checks = .ok text ↔
    ∃ out, List.Forall₂ (Outcome ctx checks) register.claims out ∧
      (∀ v, ∃ t, str (countOf (out.map Prod.fst) v) = .ok t) ∧
        text = unlines (reportLines (out.map Prod.fst) (out.map Prod.snd)) := by
  rw [generateReport, bind_eq_ok_iff]
  simp only [renderReport_eq_ok_iff, forall₂_outcome_iff, runRegister]
  constructor
  · rintro ⟨results, hrun, hw, rows, hr, rfl⟩
    have hlen : results.length = rows.length := by
      obtain ⟨hclaims, hrows⟩ := renderRows_eq_ok_iff.mp hr
      have := (mapM_eq_ok_iff.mp hrows).length_eq
      rw [List.length_zip] at this
      omega
    have h1 : (results.zip rows).map Prod.fst = results := List.map_fst_zip hlen.le
    have h2 : (results.zip rows).map Prod.snd = rows := List.map_snd_zip hlen.ge
    exact ⟨results.zip rows, by rw [h1, h2]; exact ⟨hrun, hr⟩, by rwa [h1], by rw [h1, h2]⟩
  · rintro ⟨out, ⟨hrun, hr⟩, hw, rfl⟩
    exact ⟨_, hrun, hw, _, hr, rfl⟩

/-- The outcomes of reordered claims are the reordered outcomes, and do not change the lines in front of the rows. -/
theorem exists_perm_outcome {claims claims' : List Claim} {out : List (ClaimResult × Str)}
    (hp : claims'.Perm claims) (hout : List.Forall₂ (Outcome ctx checks) claims out) :
    ∃ out', List.Forall₂ (Outcome ctx checks) claims' out' ∧ out'.Perm out ∧
      (∀ v, countOf (out'.map Prod.fst) v = countOf (out.map Prod.fst) v) ∧
        reportLines (out.map Prod.fst) (out.map Prod.snd) =
          reportLines (out.map Prod.fst) [] ++ out.map Prod.snd ∧
        reportLines (out'.map Prod.fst) (out'.map Prod.snd) =
          reportLines (out.map Prod.fst) [] ++ out'.map Prod.snd := by
  obtain ⟨out', hout', hperm⟩ := List.perm_comp_forall₂ hp hout
  have hcount : ∀ v, countOf (out'.map Prod.fst) v = countOf (out.map Prod.fst) v := fun v =>
    (hperm.map Prod.fst).countP_eq _
  refine ⟨out', hout', hperm, hcount, ?_, ?_⟩
  · simp [reportLines]
  · simp [reportLines, summaryText, hcount]

/-- **A reordered register has the same report with its rows reordered**: header and summary stay, and every claim
keeps its row. -/
theorem generateReport_perm {text : Str} (hp : register'.claims.Perm register.claims)
    (h : generateReport register ctx checks = .ok text) : ∃ head out out', text = unlines (head ++ out.map Prod.snd) ∧
      generateReport register' ctx checks = .ok (unlines (head ++ out'.map Prod.snd)) ∧ out'.Perm out ∧
        List.Forall₂ (Outcome ctx checks) register.claims out ∧
          List.Forall₂ (Outcome ctx checks) register'.claims out' := by
  obtain ⟨out, hout, hw, rfl⟩ := generateReport_eq_ok_iff.mp h
  obtain ⟨out', hout', hperm, hcount, hlines, hlines'⟩ := exists_perm_outcome hp hout
  refine ⟨reportLines (out.map Prod.fst) [], out, out', by rw [hlines], ?_, hperm, hout, hout'⟩
  rw [← hlines']
  exact generateReport_eq_ok_iff.mpr ⟨out', hout', by simpa only [hcount] using hw, rfl⟩

end Registry

/-- The claim on a letter of sura 50. -/
def qafClaim : Claim where
  id := "qaf-surah50-frequency".toList
  description := "57 times qaf".toList
  source := "s".toList
  assertedValue := .int 57
  operationalDefinition := "letter count".toList
  expectedResult := "match".toList
  requiresMorphology := false
  ambiguityNote := none
  id_pattern := by decide
  description_ne_nil := by decide
  source_ne_nil := s_ne_nil
  operationalDefinition_ne_nil := by decide
  expectedResult_ne_nil := match_ne_nil
  ambiguityNote_ne_nil := none_ne_some_nil

/-- The position of the name in the small file is measured; the run goes on to sura 50, which the file does not have. -/
theorem runRegister_outcome_name :
    (∃ results, @runRegister defaultInterpreter ⟨[namePositionClaim], by simp⟩ ⟨[(simpleClean, nameCorpus)], none⟩
      none = .ok results) ∧
      @runRegister defaultInterpreter ⟨[namePositionClaim, qafClaim], by decide⟩ ⟨[(simpleClean, nameCorpus)], none⟩
        none = .error (.keyError [.text "sura ", .int 50, .text " not found"]) := by
  have hspells : @SpellsPosition defaultInterpreter "1:2".toList :=
    ⟨"1".toList, "2".toList, 1, 2, by decide, by decide, rfl, by decide, by decide⟩
  have hsura : ∀ n, (namePositionClaim.id, n) ∉ letterSuras := fun n hn =>
    (mem_corpusChecks_of_mem_letterSuras _ hn).2 rfl
  have hasserted : namePositionClaim.assertedValue = .str "1:2".toList := rfl
  have hready : @Ready defaultInterpreter namePositionClaim nameCorpus :=
    @Ready.mk defaultInterpreter _ _ (fun n hn => absurd hn (hsura n)) fun _ => ⟨_, hasserted, hspells⟩
  have hname : ∀ claim ∈ [namePositionClaim], Skipped claim ⟨[(simpleClean, nameCorpus)], none⟩ ∨
      @Ready defaultInterpreter claim nameCorpus := fun claim hm => by
    obtain rfl := List.mem_singleton.mp hm
    exact .inr hready
  have hmissing : ∀ s ∈ nameCorpus.suras, s.number ≠ 50 := by decide
  have hraises : @Raises defaultInterpreter qafClaim ⟨[(simpleClean, nameCorpus)], none⟩
      (.keyError [.text "sura ", .int 50, .text " not found"]) :=
    @Raises.sura defaultInterpreter _ _ _ _ (by decide) rfl hmissing
  constructor
  · exact (@runRegister_outcome defaultInterpreter _ _ _ loadSimpleClean_name rfl _).1.mpr hname
  · exact ((@runRegister_outcome defaultInterpreter _ _ _ loadSimpleClean_name rfl _).2 _).mpr
      ⟨[namePositionClaim], qafClaim, [], rfl, hname, (fun h => nomatch h.1), hraises⟩

/-- A position that is measured and a pair that is not, in both orders. -/
theorem generateReport_perm_name : ∃ head rows rows', rows'.Perm rows ∧
    @generateReport defaultInterpreter ⟨[namePositionClaim, lifeDeathClaim], by decide⟩
        ⟨[(simpleClean, nameCorpus)], none⟩ none = .ok (unlines (head ++ rows)) ∧
      @generateReport defaultInterpreter ⟨[lifeDeathClaim, namePositionClaim], by decide⟩
        ⟨[(simpleClean, nameCorpus)], none⟩ none = .ok (unlines (head ++ rows')) := by
  have h : ∃ text, @generateReport defaultInterpreter ⟨[namePositionClaim, lifeDeathClaim], by decide⟩
      ⟨[(simpleClean, nameCorpus)], none⟩ none = .ok text := ⟨_, rfl⟩
  obtain ⟨text, h⟩ := h
  obtain ⟨head, out, out', ht, h', hp, -⟩ := @generateReport_perm defaultInterpreter _ _ _
    ⟨[lifeDeathClaim, namePositionClaim], by decide⟩ _ (List.Perm.swap _ _ _) h
  exact ⟨head, _, _, hp.map Prod.snd, by rw [h, ht], h'⟩

end QuranAnalysis
