import QuranAnalysis.Morphology.Export
import QuranAnalysis.Morphology.Guard
import QuranAnalysis.Claims.Consistent
import QuranAnalysis.Claims.Register
import QuranAnalysis.Claims.Runs

/-!
# The report of the committed files (`main` in `claims/report.py`)

The report is made of three files: the register, the text and the morphology.

- `defaultReport_returns_iff`: it is written exactly when all three files are accepted, the claims are ready on the text
  and the integers of the results can be written.
- `defaultReport_raises`: what is raised is a `ValueError`, or a `KeyError` for a sura that the text does not have.
- `defaultReport_outcome`: these are the only outcomes next to the errors of the register.
- `defaultReport_perm`: reordering the claims of the document reorders the rows of the report.
-/

namespace QuranAnalysis

open Py Validation

/-- What stops a report: an invalid register, or an exception. -/
inductive Failure (E : Type)
  | invalid (e : E)
  | raised (e : Exc)

section Main

variable [Interpreter] {V E : Type} [Pydantic V E] {document : V} {text qac : Str}

/-- `generate_report()` with its defaults, on the decoded contents of the three files. -/
def defaultReport (document : V) (text qac : Str) : Except (Failure E) Str :=
  match loadRegister document with
  | .error e => .error (.invalid e)
  | .ok r =>
    (buildDefaultContext text qac >>= fun ctx => generateReport r.register ctx none).mapError .raised

/-- A report that is written is that of the loaded register. -/
theorem defaultReport_eq_ok_iff {report : Str} : defaultReport document text qac = .ok report ↔
    ∃ r ctx, loadRegister document = .ok r ∧ buildDefaultContext text qac = .ok ctx ∧
      generateReport r.register ctx none = .ok report := by
  rw [defaultReport]
  cases loadRegister document with
  | error e => simp
  | ok r =>
    cases hctx : buildDefaultContext text qac with
    | error e => simp [bind, Except.bind, Except.mapError]
    | ok ctx => cases hg : generateReport r.register ctx none <;> simp [bind, Except.bind, Except.mapError, hg]

/-- The default context holds what the two files are loaded to. -/
theorem buildDefaultContext_eq_ok_iff {ctx : CheckContext} : buildDefaultContext text qac = .ok ctx ↔
    ∃ c m, loadSimpleClean text = .ok c ∧ Morphology.loadMorphology qac = .ok m ∧
      ctx = ⟨[(simpleClean, c)], some m⟩ := by
  simp only [buildDefaultContext, bind_eq_ok_iff, loadSimpleClean, Except.ok.injEq, @eq_comm _ _ ctx]
  exact ⟨fun ⟨c, hc, m, hm, h⟩ => ⟨c, m, hc, hm, h⟩, fun ⟨c, m, hc, hm, h⟩ => ⟨c, hc, m, hm, h⟩⟩

/-- A register is reported on exactly when it is run and its results can be written. -/
theorem generateReport_returns_iff {register : ClaimsRegister} {ctx : CheckContext}
    {checks : Option (Seq.Dict Str CheckFn)} : (∃ report, generateReport register ctx checks = .ok report) ↔
      ∃ results, runRegister register ctx checks = .ok results ∧ Writable results := by
  have hlen : ∀ {results}, runRegister register ctx checks = .ok results → register.claims.length = results.length :=
    fun h => (mapM_eq_ok_iff.mp h).length_eq
  simp only [generateReport, bind_eq_ok_iff]
  constructor
  · rintro ⟨report, results, hrun, hreport⟩
    exact ⟨results, hrun, (renderReport_returns_iff.mp ⟨report, hreport⟩).2⟩
  · rintro ⟨results, hrun, hw⟩
    obtain ⟨report, hreport⟩ := renderReport_returns_iff.mpr ⟨hlen hrun, hw⟩
    exact ⟨report, results, hrun, hreport⟩

/-- **The report is written exactly when all three files are accepted**, the claims are ready on the text, and the
integers of the results can be written. -/
theorem defaultReport_returns_iff : (∃ report, defaultReport document text qac = .ok report) ↔
    ∃ r c m, loadRegister document = .ok r ∧ loadSimpleClean text = .ok c ∧ Morphology.loadMorphology qac = .ok m ∧
      (∀ claim ∈ r.register.claims, Ready claim c) ∧
        ∀ results, runRegister r.register ⟨[(simpleClean, c)], some m⟩ none = .ok results → Writable results := by
  have hskip : ∀ (claim : Claim) c (m : Morphology), ¬ Skipped claim ⟨[(simpleClean, c)], some m⟩ := fun _ _ _ h =>
    nomatch h.2
  constructor
  · rintro ⟨report, hreport⟩
    obtain ⟨r, ctx, hr, hctx, hgen⟩ := defaultReport_eq_ok_iff.mp hreport
    obtain ⟨c, m, hc, hm, rfl⟩ := buildDefaultContext_eq_ok_iff.mp hctx
    obtain ⟨results, hrun, hw⟩ := generateReport_returns_iff.mp ⟨report, hgen⟩
    refine ⟨r, c, m, hr, hc, hm, fun claim hclaim => ?_, fun results' hrun' => ?_⟩
    · exact ((runRegister_returns_iff hc rfl _).mp ⟨results, hrun⟩ claim hclaim).resolve_left (hskip claim c m)
    · rw [hrun] at hrun'
      exact Except.ok.inj hrun' ▸ hw
  · rintro ⟨r, c, m, hr, hc, hm, hready, hw⟩
    have hlookup : (CheckContext.mk [(simpleClean, c)] (some m)).corpora.lookup simpleClean = some c := rfl
    obtain ⟨results, hrun⟩ := (runRegister_returns_iff hc hlookup r.register).mpr fun claim hclaim =>
      .inr (hready claim hclaim)
    obtain ⟨report, hreport⟩ := generateReport_returns_iff.mpr ⟨results, hrun, hw results hrun⟩
    exact ⟨report, defaultReport_eq_ok_iff.mpr ⟨r, _, hr, buildDefaultContext_eq_ok_iff.mpr ⟨c, m, hc, hm, rfl⟩,
      hreport⟩⟩

/-! ## What is raised -/

theorem onlyValueError_loadMorphology (raw : Str) : OnlyValueError (Morphology.loadMorphology raw) := by
  refine (Morphology.onlyValueError_readSegments raw).bind fun segs _ => ?_
  refine OnlyValueError.bind ?_ fun _ _ => .ok _
  unfold Morphology.validate
  dsimp only
  split
  · exact .valueError _
  · split
    · exact .valueError _
    · exact .ok _

/-- Only integers that cannot be written stop the writing of a report. -/
theorem onlyValueError_renderReport {register : ClaimsRegister} {results : List ClaimResult}
    (h : register.claims.length = results.length) : OnlyValueError (renderReport register results) := by
  have hrow : ∀ claim result, OnlyValueError (renderRow claim result) := fun claim result => by
    refine OnlyValueError.bind ?_ fun _ _ => OnlyValueError.bind ?_ fun _ _ => .ok _
    · cases result.asserted with
      | int n => exact onlyValueError_str n
      | str s => exact .ok s
    · cases result.measured with
      | none => exact .ok _
      | int n => exact onlyValueError_str n
      | str s => exact .ok s
      | pair a b => exact (onlyValueError_str a).bind fun _ _ => (onlyValueError_str b).bind fun _ _ => .ok _
  have hrows : ∀ {claims : List Claim} {results : List ClaimResult}, claims.length = results.length →
      OnlyValueError (renderRows claims results) := by
    intro claims results h
    induction claims generalizing results with
    | nil =>
      obtain rfl := List.length_eq_zero_iff.mp h.symm
      exact .ok _
    | cons claim claims ih =>
      cases results with
      | nil => cases h
      | cons result results =>
        exact (hrow claim result).bind fun _ _ => (ih (Nat.succ.inj h)).bind fun _ _ => .ok _
  refine OnlyValueError.bind ?_ fun _ _ => (hrows h).bind fun _ _ => .ok _
  refine OnlyValueError.bind (OnlyValueError.mapM fun v _ => ?_) fun _ _ => .ok _
  exact (onlyValueError_str _).bind fun _ _ => .ok _

/-- **What a report raises is a `ValueError`, or the `KeyError` of a sura that the text does not have.** -/
theorem defaultReport_raises {e : Exc} (h : defaultReport document text qac = .error (.raised e)) :
    (∃ msg, e = .valueError msg) ∨ ∃ r c claim n, loadRegister document = .ok r ∧ loadSimpleClean text = .ok c ∧
      claim ∈ r.register.claims ∧ (claim.id, n) ∈ letterSuras ∧ (c.suras.length : Int) < n ∧
        e = .keyError [.text "sura ", .int n, .text " not found"] := by
  cases hr : loadRegister document with
  | error e =>
    rw [defaultReport, hr] at h
    cases h
  | ok r =>
    have he : (buildDefaultContext text qac >>= fun ctx => generateReport r.register ctx none) = .error e := by
      rw [defaultReport, hr] at h
      cases hx : buildDefaultContext text qac >>= fun ctx => generateReport r.register ctx none with
      | ok report => simp [hx, Except.mapError] at h
      | error e' =>
        simp only [hx, Except.mapError, Except.error.injEq, Failure.raised.injEq] at h
        rw [h]
    rcases bind_eq_error_iff.mp he with hctx | ⟨ctx, hctx, hgen⟩
    · refine .inl ((onlyValueError_loadCorpus _ _).bind (fun c _ => ?_) e hctx)
      exact (onlyValueError_loadMorphology _).bind fun _ _ => .ok _
    · obtain ⟨c, m, hc, hm, rfl⟩ := buildDefaultContext_eq_ok_iff.mp hctx
      rcases bind_eq_error_iff.mp hgen with hrun | ⟨results, hrun, hreport⟩
      · obtain ⟨before, claim, after, hclaims, -, -, hraises⟩ := runRegister_eq_error_iff.mp hrun
        cases hraises with
        | edition _ hn => cases hn
        | @sura c' n hn hc' hs =>
          obtain rfl : c = c' := Option.some.inj hc'
          refine .inr ⟨r, c, claim, n, rfl, hc, by simp [hclaims], hn, ?_, rfl⟩
          by_contra hle
          have hpos : ∀ e ∈ letterSuras, 1 ≤ e.2 := by decide
          obtain ⟨s, hm, he⟩ := (exists_number_iff hc).mpr ⟨hpos _ hn, by omega⟩
          exact hs s hm he
        | asserted _ _ hp => exact .inl (onlyValueError_parsePos _ e hp)
        | measured _ hc' _ hr =>
          obtain rfl : c = _ := Option.some.inj hc'
          obtain ⟨v, hv⟩ := exists_renderPos hc
          rw [hr] at hv
          cases hv
      · exact .inl (onlyValueError_renderReport (mapM_eq_ok_iff.mp hrun).length_eq e hreport)

/-- **The outcomes of a report**: it is written, the register is invalid, or an exception is raised, a `ValueError` or
the `KeyError` of a missing sura. -/
theorem defaultReport_outcome (document : V) (text qac : Str) :
    ((∃ report, defaultReport document text qac = .ok report) ↔
        ∃ r c m, loadRegister document = .ok r ∧ loadSimpleClean text = .ok c ∧ Morphology.loadMorphology qac = .ok m ∧
          (∀ claim ∈ r.register.claims, Ready claim c) ∧
            ∀ results, runRegister r.register ⟨[(simpleClean, c)], some m⟩ none = .ok results → Writable results) ∧
      (∀ e, defaultReport document text qac = .error (.invalid e) ↔ loadRegister document = .error e) ∧
        ∀ e, defaultReport document text qac = .error (.raised e) →
          (∃ msg, e = .valueError msg) ∨ ∃ r c claim n, loadRegister document = .ok r ∧ loadSimpleClean text = .ok c ∧
            claim ∈ r.register.claims ∧ (claim.id, n) ∈ letterSuras ∧ (c.suras.length : Int) < n ∧
              e = .keyError [.text "sura ", .int n, .text " not found"] := by
  refine ⟨defaultReport_returns_iff, fun e => ?_, fun e => defaultReport_raises⟩
  rw [defaultReport]
  cases loadRegister document with
  | error e' => simp
  | ok r =>
    cases hx : buildDefaultContext text qac >>= fun ctx => generateReport r.register ctx none with
    | ok report => simp [hx, Except.mapError]
    | error e' => simp [hx, Except.mapError]

/-! ## The order of the claims -/

/-- **A document with the same claims in another order has the same report with its rows in this order**: every claim
keeps its result and its row, and what stands above the rows stays. -/
theorem defaultReport_perm {document' : V} {vs vs' : List V} (hv : ListsClaims document vs)
    (hv' : ListsClaims document' vs') (hp : vs'.Perm vs) {report : Str}
    (h : defaultReport document text qac = .ok report) : ∃ r r' ctx head out out',
      loadRegister document = .ok r ∧ loadRegister document' = .ok r' ∧ buildDefaultContext text qac = .ok ctx ∧
        List.Forall₂ (Outcome ctx none) r.register.claims out ∧
          List.Forall₂ (Outcome ctx none) r'.register.claims out' ∧ out'.Perm out ∧
            report = unlines (head ++ out.map Prod.snd) ∧
              defaultReport document' text qac = .ok (unlines (head ++ out'.map Prod.snd)) := by
  obtain ⟨r, ctx, hr, hctx, hreport⟩ := defaultReport_eq_ok_iff.mp h
  obtain ⟨r', hr', hperm⟩ := loadRegister_of_perm hv hv' hp hr
  obtain ⟨out, hout, hw, rfl⟩ := generateReport_eq_ok_iff.mp hreport
  obtain ⟨out', hout', hpout, hcount, hlines, hlines'⟩ := exists_perm_outcome (hperm.map (·.toClaim)) hout
  refine ⟨r, r', ctx, reportLines (out.map Prod.fst) [], out, out', hr, hr', hctx, hout, hout', hpout, by rw [hlines],
    defaultReport_eq_ok_iff.mpr ⟨r', ctx, hr', hctx, ?_⟩⟩
  rw [← hlines']
  exact generateReport_eq_ok_iff.mpr ⟨out', hout', by simpa only [hcount] using hw, rfl⟩

end Main

/-- The claim on the position of the name, without note and tags. -/
def positionEntry : Entry := ⟨namePositionClaim, none, []⟩

/-- The claim on the value of the name, without note and tags. -/
def valueEntry : Entry := ⟨allahClaim, none, []⟩

/-- Two claims on a small text and a whole morphology, in both orders. -/
theorem defaultReport_perm_name : ∃ qac head rows rows', rows'.Perm rows ∧
    @Morphology.loadMorphology defaultInterpreter qac = .ok (Morphology.sampleMorphology "qAl".toList) ∧
      @defaultReport defaultInterpreter Plain _ _ (documentOf [.dict positionEntry.toDict, .dict valueEntry.toDict])
          nameText qac = .ok (unlines (head ++ rows)) ∧
        @defaultReport defaultInterpreter Plain _ _ (documentOf [.dict valueEntry.toDict, .dict positionEntry.toDict])
          nameText qac = .ok (unlines (head ++ rows')) := by
  have hform : Morphology.CleanColumn "qAl".toList := by decide
  obtain ⟨qac, -, hqac⟩ := @Morphology.Loadable.exists_raw defaultInterpreter _
    (Morphology.loadable_sampleMorphology hform)
  have hlists : ∀ vs : List Plain, ListsClaims (documentOf vs) vs := listsClaims_documentOf
  have hids : ([positionEntry, valueEntry].map (·.id)).Nodup := by decide
  have hr : loadRegister (documentOf [.dict positionEntry.toDict, .dict valueEntry.toDict] : Plain) =
      .ok ⟨[positionEntry, valueEntry], hids⟩ :=
    (loadRegister_iff_of_listsClaims (hlists _)).mpr (.cons (claimModel_toDict _) (.cons (claimModel_toDict _) .nil))
  have hrun : @runRegister defaultInterpreter (EntryRegister.register ⟨[positionEntry, valueEntry], hids⟩)
      ⟨[(simpleClean, nameCorpus)], some (Morphology.sampleMorphology "qAl".toList)⟩ none =
        .ok [⟨positionalId, .str "1:2".toList, .str "1:2".toList, .matched⟩,
          ⟨valueEntry.id, .int 66, .int 66, .matched⟩] := rfl
  have hw : @Writable defaultInterpreter [⟨positionalId, .str "1:2".toList, .str "1:2".toList, .matched⟩,
      ⟨valueEntry.id, .int 66, .int 66, .matched⟩] := by
    refine @Writable.mk defaultInterpreter _ (fun v => ?_) (fun r hr => ?_) fun r hr => ?_
    · cases v <;> exact ⟨_, rfl⟩
    · rcases List.mem_pair.mp hr with rfl | rfl <;> exact ⟨_, rfl⟩
    · rcases List.mem_pair.mp hr with rfl | rfl <;> exact ⟨_, rfl⟩
  obtain ⟨report, hreport⟩ := (@generateReport_returns_iff defaultInterpreter _ _ _).mpr ⟨_, hrun, hw⟩
  have hctx := (@buildDefaultContext_eq_ok_iff defaultInterpreter _ _ _).mpr ⟨_, _, loadSimpleClean_name, hqac, rfl⟩
  have h := (@defaultReport_eq_ok_iff defaultInterpreter Plain _ _ _ _ _ _).mpr ⟨_, _, hr, hctx, hreport⟩
  obtain ⟨_, _, _, head, out, out', -, -, -, -, -, hp, ht, h'⟩ := @defaultReport_perm defaultInterpreter Plain _ _ _ _ _
    _ _ _ (hlists _) (hlists [.dict valueEntry.toDict, .dict positionEntry.toDict]) (List.Perm.swap _ _ _) _ h
  exact ⟨qac, head, out.map Prod.snd, out'.map Prod.snd, hp.map _, hqac, by rw [h, ht], h'⟩

end QuranAnalysis
