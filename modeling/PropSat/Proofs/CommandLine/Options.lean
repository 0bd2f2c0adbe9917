import Mathlib.Data.List.Nodup
import PropSat.CommandLine.Options
import PropSat.Proofs.Except

/-!
# Accepted settings

Which settings lead to a run, said of the settings alone, and what the options of that run are. The
order of the settings does not matter, and each value counts under its own key.
-/

namespace PropSat.CommandLine

/-- The settings ask for a run: none ends the command line, each key is given at most once, a file
has a name, and what is chosen is on offer. -/
structure Accepted (given : List Setting) : Prop where
  not_ends : ∀ s ∈ given, s.key.ends = false
  once : (given.map Setting.key).Nodup
  named : ∀ s ∈ given, s.key = .input ∨ s.key = .output → s.value? ≠ none
  algorithm : ∀ name, ⟨.algorithm, some name⟩ ∈ given →
    name ∈ ["bruteforce", "dpll", "resolution", "tableau"]
  branching : ∀ name, ⟨.branching, some name⟩ ∈ given → name ∈ ["two-smallest", "naive", "DLIS"]

/-- Unless another strategy is named it is that of the two shortest clauses. -/
def chosenBranching (given : List Setting) : Branching :=
  if ⟨.branching, some "naive"⟩ ∈ given then .firstLiteral
  else if ⟨.branching, some "DLIS"⟩ ∈ given then .mostOccurrences
  else .twoSmallest

/-- Unless another algorithm is named it is DPLL. -/
def chosenSolver (given : List Setting) : Solver :=
  if ⟨.algorithm, some "bruteforce"⟩ ∈ given then .exhaustive
  else if ⟨.algorithm, some "resolution"⟩ ∈ given then .resolution
  else if ⟨.algorithm, some "tableau"⟩ ∈ given then .tableau
  else .dpll (chosenBranching given)

structure Options.Reflects (given : List Setting) (o : Options) : Prop where
  solver : o.solver = chosenSolver given
  input : ∀ path, o.input? = some path ↔ ⟨.input, some path⟩ ∈ given
  output : ∀ path, o.output? = some path ↔ ⟨.output, some path⟩ ∈ given
  returnCode : o.returnCode = true ↔ ∃ s ∈ given, s.key = .returnCode

section

variable {given : List Setting} {key : Key} {value? : Option String}

/-! ## One key -/

/-- The key has this value wherever it stands, and none if it stands nowhere. -/
structure IsValue (key : Key) (given : List Setting) (value? : Option String) : Prop where
  mem : ∀ x, value? = some x → ⟨key, some x⟩ ∈ given
  eq : ∀ s ∈ given, s.key = key → s.value? = value?

theorem IsValue.eq_some_iff (h : IsValue key given value?) (x : String) :
    value? = some x ↔ ⟨key, some x⟩ ∈ given :=
  ⟨h.mem x, fun hx => (h.eq _ hx rfl).symm⟩

theorem count_key : (given.map Setting.key).count key = (given.filter (·.key = key)).length := by
  rw [List.count, List.countP_map, List.countP_eq_length_filter]
  rfl

theorem exists_valueOf?_eq_ok (h : (given.map Setting.key).count key ≤ 1) :
    ∃ value?, valueOf? key given = .ok value? ∧ IsValue key given value? := by
  have hmem : ∀ s, s ∈ given.filter (·.key = key) ↔ s ∈ given ∧ s.key = key := by simp
  rw [count_key] at h
  unfold valueOf?
  split
  · next hnone =>
      refine ⟨none, rfl, nofun, fun s hs hkey => ?_⟩
      have hin := (hmem s).mpr ⟨hs, hkey⟩
      rw [hnone] at hin
      contradiction
  · next k value? hone =>
      refine ⟨value?, rfl, ?_, fun s hs hkey => ?_⟩
      · rintro x rfl
        have hself := (hmem ⟨k, some x⟩).mp (hone ▸ List.mem_cons_self)
        exact hself.2 ▸ hself.1
      · have hin := (hmem s).mpr ⟨hs, hkey⟩
        rw [hone, List.mem_singleton] at hin
        exact congrArg Setting.value? hin
  · next hnone hone =>
      match hlist : given.filter (·.key = key) with
      | [] => exact absurd hlist hnone
      | [s] => exact absurd hlist (hone s.key s.value?)
      | _ :: _ :: _ =>
          rw [hlist] at h
          simp at h

theorem valueOf?_eq_ok (h : valueOf? key given = .ok value?) :
    (given.map Setting.key).count key ≤ 1 ∧ IsValue key given value? := by
  have hcount : (given.map Setting.key).count key ≤ 1 := by
    rw [count_key]
    unfold valueOf? at h
    split at h
    · next hnone => simp [hnone]
    · next hone => simp [hone]
    · contradiction
  obtain ⟨found?, hfound, hvalue⟩ := exists_valueOf?_eq_ok hcount
  cases h.symm.trans hfound
  exact ⟨hcount, hvalue⟩

theorem exists_fileOf?_eq_ok (h : (given.map Setting.key).count key ≤ 1)
    (hnamed : ∀ s ∈ given, s.key = key → s.value? ≠ none) :
    ∃ value?, fileOf? key given = .ok value? ∧ IsValue key given value? := by
  obtain ⟨value?, hok, hvalue⟩ := exists_valueOf?_eq_ok h
  refine ⟨value?, ?_, hvalue⟩
  have hgood : ¬ (value?.isNone && given.any (·.key = key)) = true := by
    simp only [Bool.and_eq_true, Option.isNone_iff_eq_none, List.any_eq_true, decide_eq_true_eq]
    rintro ⟨hnone, s, hs, hkey⟩
    exact hnamed s hs hkey ((hvalue.eq s hs hkey).trans hnone)
  rw [fileOf?, hok]
  exact if_neg hgood

theorem named_of_fileOf? (h : fileOf? key given = .ok value?) :
    (given.map Setting.key).count key ≤ 1 ∧ ∀ s ∈ given, s.key = key → s.value? ≠ none := by
  obtain ⟨found?, hok, hrest⟩ := exists_of_bind_eq_ok h
  obtain ⟨hcount, hvalue⟩ := valueOf?_eq_ok hok
  refine ⟨hcount, fun s hs hkey hnone => ?_⟩
  have hbad : (found?.isNone && given.any (·.key = key)) = true := by
    simp only [Bool.and_eq_true, Option.isNone_iff_eq_none, List.any_eq_true, decide_eq_true_eq]
    exact ⟨(hvalue.eq s hs hkey).symm.trans hnone, s, hs, hkey⟩
  rw [if_pos hbad] at hrest
  contradiction

section

variable {β : Type} {default : String} {ofName? : String → Option β}

theorem exists_choiceOf_eq_ok (h : (given.map Setting.key).count key ≤ 1)
    (hdefault : (ofName? default).isSome)
    (hoffered : ∀ name, ⟨key, some name⟩ ∈ given → (ofName? name).isSome) :
    ∃ choice value?, choiceOf key default ofName? given = .ok choice ∧
      IsValue key given value? ∧ ofName? (value?.getD default) = some choice := by
  obtain ⟨value?, hok, hvalue⟩ := exists_valueOf?_eq_ok h
  have hsome : (ofName? (value?.getD default)).isSome := by
    cases value? with
    | none => exact hdefault
    | some name => exact hoffered name (hvalue.mem name rfl)
  obtain ⟨choice, hchoice⟩ := Option.isSome_iff_exists.mp hsome
  refine ⟨choice, value?, ?_, hvalue, hchoice⟩
  simp only [choiceOf, hok, bind, Except.bind, hchoice]

theorem offered_of_choiceOf {choice : β} (h : choiceOf key default ofName? given = .ok choice) :
    (given.map Setting.key).count key ≤ 1 ∧
      ∀ name, ⟨key, some name⟩ ∈ given → (ofName? name).isSome := by
  obtain ⟨value?, hok, hrest⟩ := exists_of_bind_eq_ok h
  obtain ⟨hcount, hvalue⟩ := valueOf?_eq_ok hok
  refine ⟨hcount, fun name hname => ?_⟩
  obtain rfl := (hvalue.eq_some_iff name).mpr hname
  dsimp only [Option.getD_some] at hrest
  split at hrest
  · next hchoice => exact Option.isSome_iff_exists.mpr ⟨_, hchoice⟩
  · contradiction

end

/-! ## All keys -/

theorem isSome_branchingOfName?_iff {name : String} :
    (branchingOfName? name).isSome ↔ name ∈ ["two-smallest", "naive", "DLIS"] := by
  unfold branchingOfName?
  split <;> simp_all

theorem isSome_solverOfName?_iff {branching : Branching} {name : String} :
    (solverOfName? branching name).isSome ↔
      name ∈ ["bruteforce", "dpll", "resolution", "tableau"] := by
  unfold solverOfName?
  split <;> simp_all

theorem chosenBranching_eq {branching : Branching} (hvalue : IsValue .branching given value?)
    (h : branchingOfName? (value?.getD "two-smallest") = some branching) :
    branching = chosenBranching given := by
  unfold chosenBranching
  simp only [← hvalue.eq_some_iff]
  cases value? with
  | none => exact (Option.some.inj h).symm
  | some name =>
      unfold branchingOfName? at h
      split at h <;> simp_all

theorem chosenSolver_eq {solver : Solver} (hvalue : IsValue .algorithm given value?)
    (h : solverOfName? (chosenBranching given) (value?.getD "dpll") = some solver) :
    solver = chosenSolver given := by
  unfold chosenSolver
  simp only [← hvalue.eq_some_iff]
  cases value? with
  | none => exact (Option.some.inj h).symm
  | some name =>
      unfold solverOfName? at h
      split at h <;> simp_all

theorem Accepted.exists_options (h : Accepted given) :
    ∃ o, Options.ofSettings given = .ok o ∧ o.Reflects given := by
  have hcount : ∀ key, (given.map Setting.key).count key ≤ 1 :=
    List.nodup_iff_count_le_one.mp h.once
  have hdefaults : (branchingOfName? "two-smallest").isSome ∧
      (solverOfName? (chosenBranching given) "dpll").isSome := ⟨rfl, rfl⟩
  obtain ⟨branching, _, hbranching, hbranchingValue, hstrategy⟩ :=
    exists_choiceOf_eq_ok (hcount .branching) hdefaults.1 fun name hname =>
      isSome_branchingOfName?_iff.mpr (h.branching name hname)
  obtain rfl := chosenBranching_eq hbranchingValue hstrategy
  obtain ⟨solver, _, hsolver, hsolverValue, halgorithm⟩ :=
    exists_choiceOf_eq_ok (hcount .algorithm) hdefaults.2 fun name hname =>
      isSome_solverOfName?_iff.mpr (h.algorithm name hname)
  obtain rfl := chosenSolver_eq hsolverValue halgorithm
  obtain ⟨input?, hinput, hinputValue⟩ := exists_fileOf?_eq_ok (hcount .input)
    fun s hs hkey => h.named s hs (.inl hkey)
  obtain ⟨output?, houtput, houtputValue⟩ := exists_fileOf?_eq_ok (hcount .output)
    fun s hs hkey => h.named s hs (.inr hkey)
  obtain ⟨_, hreturn, -⟩ := exists_valueOf?_eq_ok (hcount .returnCode)
  refine ⟨⟨input?, output?, given.any (·.key = .returnCode), chosenSolver given⟩, ?_, ?_⟩
  · simp only [Options.ofSettings, hbranching, hsolver, hinput, houtput, hreturn, bind, Except.bind]
    rfl
  · refine ⟨rfl, hinputValue.eq_some_iff, houtputValue.eq_some_iff, ?_⟩
    simp

theorem accepted_of_ofSettings {o : Options} (hends : ∀ s ∈ given, s.key.ends = false)
    (h : Options.ofSettings given = .ok o) : Accepted given := by
  obtain ⟨branching, hbranching, h⟩ := exists_of_bind_eq_ok h
  obtain ⟨solver, hsolver, h⟩ := exists_of_bind_eq_ok h
  obtain ⟨input?, hinput, h⟩ := exists_of_bind_eq_ok h
  obtain ⟨output?, houtput, h⟩ := exists_of_bind_eq_ok h
  obtain ⟨_, hreturn, -⟩ := exists_of_bind_eq_ok h
  have hbranchings := offered_of_choiceOf hbranching
  have hsolvers := offered_of_choiceOf hsolver
  have hinputs := named_of_fileOf? hinput
  have houtputs := named_of_fileOf? houtput
  have hended : ∀ key : Key, key.ends → (given.map Setting.key).count key ≤ 1 := by
    intro key hkey
    have habsent : key ∉ given.map Setting.key := by
      intro hmem
      obtain ⟨s, hs, rfl⟩ := List.mem_map.mp hmem
      exact absurd hkey (Bool.eq_false_iff.mp (hends s hs))
    rw [List.count_eq_zero.mpr habsent]
    exact Nat.zero_le 1
  refine ⟨hends, List.nodup_iff_count_le_one.mpr fun key => ?_, fun s hs hkey => ?_, ?_, ?_⟩
  · cases key with
    | input => exact hinputs.1
    | output => exact houtputs.1
    | algorithm => exact hsolvers.1
    | branching => exact hbranchings.1
    | returnCode => exact (valueOf?_eq_ok hreturn).1
    | help => exact hended .help rfl
    | version => exact hended .version rfl
  · exact hkey.elim (hinputs.2 s hs) (houtputs.2 s hs)
  · exact fun name hname => isSome_solverOfName?_iff.mp (hsolvers.2 name hname)
  · exact fun name hname => isSome_branchingOfName?_iff.mp (hbranchings.2 name hname)

theorem not_ends_iff : (∀ s ∈ given, s.key.ends = false) ↔
    given.any (·.key = .help) = false ∧ given.any (·.key = .version) = false := by
  have hends : ∀ key : Key, key.ends = false ↔ key ≠ .help ∧ key ≠ .version := by
    intro key
    cases key <;> simp [Key.ends]
  simp only [hends, List.any_eq_false, decide_eq_true_eq]
  exact ⟨fun h => ⟨fun s hs => (h s hs).1, fun s hs => (h s hs).2⟩,
    fun h s hs => ⟨h.1 s hs, h.2 s hs⟩⟩

theorem Accepted.exists_request (h : Accepted given) :
    ∃ o, Request.ofSettings given = .ok (.solve o) ∧ o.Reflects given := by
  obtain ⟨o, hok, hreflects⟩ := h.exists_options
  obtain ⟨hhelp, hversion⟩ := not_ends_iff.mp h.not_ends
  refine ⟨o, ?_, hreflects⟩
  simp only [Request.ofSettings, hok, bind, Except.bind, hhelp, hversion]
  rfl

/-- A run follows on accepted settings and on no others. -/
theorem exists_ofSettings_eq_solve_iff :
    (∃ o, Request.ofSettings given = .ok (.solve o)) ↔ Accepted given := by
  constructor
  · rintro ⟨o, h⟩
    unfold Request.ofSettings at h
    split at h
    · cases Except.ok.inj h
    · next hhelp =>
        split at h
        · cases Except.ok.inj h
        · next hversion =>
            obtain ⟨o', ho, -⟩ := exists_of_bind_eq_ok h
            have hends := not_ends_iff.mpr
              ⟨Bool.eq_false_iff.mpr hhelp, Bool.eq_false_iff.mpr hversion⟩
            exact accepted_of_ofSettings hends ho
  · intro h
    obtain ⟨o, ho, -⟩ := h.exists_request
    exact ⟨o, ho⟩

end

end PropSat.CommandLine
