import QuranAnalysis.Claims.Report

/-!
# Registering checks

Checks are registered one after another, and a claim finds its check by its id. So neither the order of the
registrations nor checks for other claims matter to a claim.

- `registerAll_eq_ok_iff`, `registerAll_eq_error_iff`: registration fails at the first check whose id is taken.
- `evaluateClaim_of_lookup`: a claim sees nothing of the table but its own check.
- `report_of_registered`: tables of the same checks give the same reports, and more checks change no result of the
  claims they are not for.
-/

namespace QuranAnalysis

open Py

section Registration

variable {checks table : Seq.Dict Str CheckFn} {fns : List (Str × CheckFn)}

/-- A check whose id is taken stops the registration. -/
theorem registerAll_of_duplicate {before after : List (Str × CheckFn)} {f : Str × CheckFn}
    (hn : ((checks ++ before).map Prod.fst).Nodup) (hf : f.1 ∈ (checks ++ before).map Prod.fst) :
    registerAll checks (before ++ f :: after) =
      .error (.valueError [.text "duplicate check registration for ", .repr f.1]) := by
  have hbefore : registerAll checks before = .ok (checks ++ before) := registerAll_of_nodup hn
  have hlookup : (List.lookup f.1 (checks ++ before)).isSome := Seq.Dict.lookup_isSome.mpr hf
  rw [registerAll] at hbefore ⊢
  rw [List.foldlM_append, hbefore]
  simp only [bind, Except.bind, List.foldlM_cons, check, if_pos hlookup]

/-- **Checks are registered exactly when their ids are new and different.** -/
theorem registerAll_eq_ok_iff (hc : checks.keys.Nodup) :
    registerAll checks fns = .ok table ↔ ((checks ++ fns).map Prod.fst).Nodup ∧ table = checks ++ fns := by
  constructor
  · intro h
    have hn : ((checks ++ fns).map Prod.fst).Nodup := by
      by_contra hd
      obtain ⟨before, f, after, rfl, hn, hf⟩ := Seq.exists_first_duplicate Prod.fst hc hd
      rw [registerAll_of_duplicate hn hf] at h
      cases h
    rw [registerAll_of_nodup hn] at h
    exact ⟨hn, (Except.ok.inj h).symm⟩
  · rintro ⟨hn, rfl⟩
    exact registerAll_of_nodup hn

/-- **Registration fails exactly at the first check whose id is taken**, and names this id. -/
theorem registerAll_eq_error_iff (hc : checks.keys.Nodup) {e : Exc} : registerAll checks fns = .error e ↔
    ∃ before f after, fns = before ++ f :: after ∧ ((checks ++ before).map Prod.fst).Nodup ∧
      f.1 ∈ (checks ++ before).map Prod.fst ∧
        e = .valueError [.text "duplicate check registration for ", .repr f.1] := by
  constructor
  · intro h
    have hd : ¬ ((checks ++ fns).map Prod.fst).Nodup := by
      intro hn
      rw [registerAll_of_nodup hn] at h
      cases h
    obtain ⟨before, f, after, rfl, hn, hf⟩ := Seq.exists_first_duplicate Prod.fst hc hd
    rw [registerAll_of_duplicate hn hf] at h
    exact ⟨before, f, after, rfl, hn, hf, (Except.error.inj h).symm⟩
  · rintro ⟨before, f, after, rfl, hn, hf, rfl⟩
    exact registerAll_of_duplicate hn hf

end Registration

/-! ## What a claim sees of a table -/

section Runner

variable [Interpreter] {table table' : Seq.Dict Str CheckFn}

/-- A claim sees nothing of a table but its own check. -/
theorem evaluateClaim_of_lookup {claim : Claim} (h : table'.lookup claim.id = table.lookup claim.id)
    (ctx : CheckContext) : evaluateClaim claim ctx (some table') = evaluateClaim claim ctx (some table) := by
  simp only [evaluateClaim, bind, Except.bind, h]

/-- So a register sees nothing of a table but the checks of its claims. -/
theorem generateReport_of_lookup {register : ClaimsRegister}
    (h : ∀ claim ∈ register.claims, table'.lookup claim.id = table.lookup claim.id) (ctx : CheckContext) :
    generateReport register ctx (some table') = generateReport register ctx (some table) := by
  have hrun : runRegister register ctx (some table') = runRegister register ctx (some table) := by
    rw [runRegister, runRegister]
    exact mapM_congr fun claim hm => evaluateClaim_of_lookup (h claim hm) ctx
  rw [generateReport, hrun, generateReport]

omit [Interpreter] in
/-- Entries with other keys are not looked up. -/
theorem lookup_append_of_notMem {more : Seq.Dict Str CheckFn} {id : Str} (h : id ∉ more.map Prod.fst) :
    (table ++ more).lookup id = table.lookup id := by
  have hmore : more.lookup id = none :=
    Option.not_isSome_iff_eq_none.mp fun hs => h (Seq.Dict.lookup_isSome.mp hs)
  rw [List.lookup_append, hmore, Option.or_none]

/-- **A table is the set of its checks.** Registered in any other order, they give the same reports; and more checks can
be registered without a change for the claims they are not for. -/
theorem report_of_registered {fns : List (Str × CheckFn)} (h : registerAll [] fns = .ok table) :
    (∀ fns', fns'.Perm fns → ∃ table', registerAll [] fns' = .ok table' ∧ ∀ register ctx,
        generateReport register ctx (some table') = generateReport register ctx (some table)) ∧
      ∀ more table', registerAll table more = .ok table' →
        (∀ claim ctx, claim.id ∉ more.map Prod.fst →
          evaluateClaim claim ctx (some table') = evaluateClaim claim ctx (some table)) ∧
        ∀ register ctx, (∀ claim ∈ register.claims, claim.id ∉ more.map Prod.fst) →
          generateReport register ctx (some table') = generateReport register ctx (some table) := by
  have hnil : (Seq.Dict.keys ([] : Seq.Dict Str CheckFn)).Nodup := List.nodup_nil
  obtain ⟨hn, rfl⟩ := (registerAll_eq_ok_iff hnil).mp h
  rw [List.nil_append] at hn
  refine ⟨fun fns' hp => ?_, fun more table' hmore => ?_⟩
  · have hn' : (fns'.map Prod.fst).Nodup := (hp.map Prod.fst).nodup_iff.mpr hn
    refine ⟨fns', registerAll_of_nodup hn', fun register ctx => ?_⟩
    exact generateReport_of_lookup (fun claim _ => Seq.Dict.lookup_of_perm hp hn' claim.id) ctx
  · obtain ⟨-, rfl⟩ := (registerAll_eq_ok_iff hn).mp hmore
    refine ⟨fun claim ctx hid => evaluateClaim_of_lookup (lookup_append_of_notMem hid) ctx, fun register ctx hids => ?_⟩
    exact generateReport_of_lookup (fun claim hm => lookup_append_of_notMem (hids claim hm)) ctx

end Runner

/-- The built-in checks give the same reports when they are registered in reverse. -/
theorem report_of_registered_reverse : ∃ table',
    registerAll [] (@builtinChecks defaultInterpreter).reverse = .ok table' ∧ ∀ register ctx,
      @generateReport defaultInterpreter register ctx (some table') =
        @generateReport defaultInterpreter register ctx (some (@builtinChecks defaultInterpreter)) :=
  (@report_of_registered defaultInterpreter _ _ (@registry_eq defaultInterpreter)).1 _ (List.reverse_perm _)

/-- The second check of an id is refused. -/
theorem registerAll_twice : registerAll [] [("a".toList, basmala19Letters), ("b".toList, basmala19Letters),
    ("a".toList, abjadAllah66)] = .error (.valueError [.text "duplicate check registration for ", .repr "a".toList]) :=
  (registerAll_eq_error_iff (show (Seq.Dict.keys ([] : Seq.Dict Str CheckFn)).Nodup from List.nodup_nil)).mpr
    ⟨[("a".toList, basmala19Letters), ("b".toList, basmala19Letters)], ("a".toList, abjadAllah66), [], rfl,
      (by decide : ["a".toList, "b".toList].Nodup), (by decide : "a".toList ∈ ["a".toList, "b".toList]), rfl⟩

end QuranAnalysis
