import PropSat.Proofs.Dimacs.Numbering
import PropSat.Proofs.Dpll.Search
import PropSat.Proofs.Renaming
import PropSat.Solver

/-!
# Search under renaming

The search asks of atoms only whether they are equal. A renaming that is one to one on the atoms of
the clauses therefore passes through every step of it: the unit clause taken, the literal picked,
the two branches, the valuation found.
-/

namespace PropSat

variable {α β : Type} [Atom α] [Atom β] {r : α → β} {s : Set α}

namespace ClauseSet

theorem rename_distinct (hr : s.InjOn r) {cs : ClauseSet α} (hcs : cs.Over s) :
    (cs.rename r).distinct = cs.distinct.rename r := by
  simp only [distinct, rename, List.map_map]
  refine List.map_congr_left fun c hc => ?_
  exact eraseDups_map_of_injOn ((Literal.injOn_rename hr).mono (hcs c hc))

theorem Over.distinct {cs : ClauseSet α} (h : cs.Over s) : cs.distinct.Over s := by
  intro c hc l hl
  obtain ⟨d, hd, rfl⟩ := List.mem_map.mp hc
  exact h d hd l (List.mem_eraseDups.mp hl)

theorem Over.assume {cs : ClauseSet α} (h : cs.Over s) (l : Literal α) : (cs.assume l).Over s := by
  intro c hc k hk
  obtain ⟨d, hd, -, rfl⟩ := mem_assume.mp hc
  exact h d hd k (List.mem_filter.mp hk).1

theorem rename_assume (hr : s.InjOn r) {cs : ClauseSet α} (hcs : cs.Over s) {l : Literal α}
    (hl : l.atom ∈ s) : (cs.rename r).assume (l.rename r) = (cs.assume l).rename r := by
  have hinj := Literal.injOn_rename hr
  have hkeep : ∀ c ∈ cs, (l.rename r ∈ c.map (Literal.rename r) ↔ l ∈ c) := by
    intro c hc
    rw [List.mem_map]
    constructor
    · rintro ⟨k, hk, heq⟩
      exact hinj (hcs c hc k hk) hl heq ▸ hk
    · intro hmem
      exact ⟨l, hmem, rfl⟩
  have hfilter : (cs.rename r).filter (l.rename r ∉ ·) =
      (cs.filter (l ∉ ·)).map (·.map (Literal.rename r)) := by
    rw [rename, List.filter_map]
    refine congrArg (List.map _) (List.filter_congr fun c hc => ?_)
    simpa using hkeep c hc
  rw [assume, hfilter, assume, rename, List.map_map, List.map_map]
  refine List.map_congr_left fun c hc => ?_
  have hc' : c ∈ cs := (List.mem_filter.mp hc).1
  rw [Function.comp_apply, Function.comp_apply, List.filter_map]
  refine congrArg (List.map _) (List.filter_congr fun k hk => ?_)
  have hiff : k.rename r = l.negate.rename r ↔ k = l.negate := hinj.eq_iff (hcs c hc' k hk) hl
  rw [Literal.rename_negate] at hiff
  simp [hiff]

omit [Atom α] [Atom β] in
theorem unit?_rename (r : α → β) (cs : ClauseSet α) :
    (cs.rename r).unit? = cs.unit?.map (Literal.rename r) := by
  rw [unit?, rename, List.findSome?_map, unit?, List.map_findSome?]
  congr 1
  funext c
  match c with
  | [] => rfl
  | [l] => rfl
  | _ :: _ :: _ => rfl

omit [Atom α] [Atom β] in
theorem hasEmpty_rename (r : α → β) (cs : ClauseSet α) : (cs.rename r).hasEmpty = cs.hasEmpty := by
  simp [hasEmpty, rename, Function.comp_def]

omit [Atom α] [Atom β] in
theorem isEmpty_rename (r : α → β) (cs : ClauseSet α) : (cs.rename r).isEmpty = cs.isEmpty :=
  List.isEmpty_map

omit [Atom α] [Atom β] in
theorem rename_append_unit (r : α → β) (cs : ClauseSet α) (l : Literal α) :
    ClauseSet.rename r (cs ++ [[l]]) = cs.rename r ++ [[l.rename r]] :=
  List.map_append

omit [Atom α] [Atom β] in
theorem twoShortest_rename (r : α → β) (cs : ClauseSet α) :
    (cs.rename r).twoShortest = cs.twoShortest.rename r := by
  have hsort : ∀ ds : ClauseSet α,
      (ds.map (·.map (Literal.rename r))).mergeSort (fun c d => c.length ≤ d.length) =
        (ds.mergeSort fun c d => c.length ≤ d.length).map (·.map (Literal.rename r)) := by
    intro ds
    refine (List.map_mergeSort fun c _ d _ => ?_).symm
    rw [List.length_map, List.length_map]
  have hfilter : (cs.rename r).filter (!·.isEmpty) =
      (cs.filter (!·.isEmpty)).map (·.map (Literal.rename r)) := by
    rw [rename, List.filter_map]
    refine congrArg (List.map _) (List.filter_congr fun c _ => ?_)
    rw [Function.comp_apply, List.isEmpty_map]
  rw [twoShortest, hfilter, hsort, ← List.map_take]
  rfl

end ClauseSet

/-! ## The literal picked -/

theorem mostFrequent?_rename (hr : s.InjOn r) {ls : List (Literal α)}
    (hls : ∀ l ∈ ls, l.atom ∈ s) :
    mostFrequent? (ls.map (Literal.rename r)) = (mostFrequent? ls).map (Literal.rename r) := by
  have hinj : Set.InjOn (Literal.rename r) {l | l ∈ ls} := (Literal.injOn_rename hr).mono hls
  rw [mostFrequent?, eraseDups_map_of_injOn hinj, mostFrequent?]
  exact maxOn?_map fun l hl => count_map_of_injOn hinj (List.mem_eraseDups.mp hl)

theorem Branching.pick?_rename (b : Branching) (hr : s.InjOn r) {cs : ClauseSet α}
    (hcs : cs.Over s) : b.pick? (cs.rename r) = (b.pick? cs).map (Literal.rename r) := by
  have hflat : ∀ ds : ClauseSet α, (∀ d ∈ ds, d ∈ cs) →
      mostFrequent? (ds.rename r).flatten = (mostFrequent? ds.flatten).map (Literal.rename r) := by
    intro ds hds
    rw [ClauseSet.rename, ← List.map_flatten]
    refine mostFrequent?_rename hr fun l hl => ?_
    obtain ⟨d, hd, hld⟩ := List.mem_flatten.mp hl
    exact hcs d (hds d hd) l hld
  cases b with
  | twoSmallest =>
      rw [pick?, pick?, ClauseSet.twoShortest_rename]
      exact hflat cs.twoShortest fun d => ClauseSet.mem_of_mem_twoShortest
  | firstLiteral =>
      rw [pick?, pick?, ClauseSet.rename, List.findSome?_map, List.map_findSome?]
      congr 1
      funext c
      exact List.head?_map
  | mostOccurrences => exact hflat cs fun d hd => hd

/-! ## Propagation and search -/

namespace Residual

def rename (r : α → β) (res : Residual α) : Residual β :=
  ⟨res.clauses.rename r, res.valuation.rename r⟩

/-- All atoms, of the clauses and of the valuation, are from a set. -/
structure Over (s : Set α) (res : Residual α) : Prop where
  clauses : res.clauses.Over s
  valuation : ∀ a ∈ res.valuation, a ∈ s

theorem Over.assume {res : Residual α} (h : res.Over s) {l : Literal α} (hl : l.atom ∈ s) :
    (res.assume l).Over s := by
  refine ⟨h.clauses.assume l, fun a ha => ?_⟩
  rcases Std.ExtTreeMap.mem_insert.mp ha with heq | ha
  · exact Std.LawfulEqOrd.eq_of_compare heq ▸ hl
  · exact h.valuation a ha

theorem Over.atom_of_unit? {res : Residual α} (h : res.Over s) {l : Literal α}
    (hu : res.clauses.unit? = some l) : l.atom ∈ s :=
  h.clauses [l] (ClauseSet.mem_of_unit? hu) l List.mem_cons_self

theorem Over.propagate {res : Residual α} (h : res.Over s) : res.propagate.Over s := by
  fun_induction Residual.propagate res with
  | case1 res hu => exact h
  | case2 res l hu ih => exact ih (h.assume (h.atom_of_unit? hu))

theorem Over.append_unit {res : Residual α} (h : res.Over s) {l : Literal α} (hl : l.atom ∈ s) :
    Over s { res with clauses := res.clauses ++ [[l]] } := by
  refine ⟨fun c hc k hk => ?_, h.valuation⟩
  rcases List.mem_append.mp hc with hc | hc
  · exact h.clauses c hc k hk
  · rw [List.mem_singleton.mp hc] at hk
    rwa [List.mem_singleton.mp hk]

theorem Over.branch {res : Residual α} (h : res.Over s) {l : Literal α} (hl : l.atom ∈ s) :
    (res.branch l).Over s :=
  (h.append_unit hl).propagate

theorem rename_assume (hr : s.InjOn r) {res : Residual α} (h : res.Over s) {l : Literal α}
    (hl : l.atom ∈ s) : (res.rename r).assume (l.rename r) = (res.assume l).rename r := by
  simp only [assume, rename]
  rw [ClauseSet.rename_assume hr h.clauses hl, Valuation.rename_assign hr h.valuation hl]

theorem rename_propagate (hr : s.InjOn r) {res : Residual α} (h : res.Over s) :
    (res.rename r).propagate = res.propagate.rename r := by
  fun_induction Residual.propagate res with
  | case1 res hu =>
      have hu' : (res.rename r).clauses.unit? = none := by
        rw [rename, ClauseSet.unit?_rename, hu]
        rfl
      exact propagate_of_unit?_eq_none hu'
  | case2 res l hu ih =>
      have hu' : (res.rename r).clauses.unit? = some (l.rename r) := by
        rw [rename, ClauseSet.unit?_rename, hu]
        rfl
      have hl : l.atom ∈ s := h.atom_of_unit? hu
      rw [propagate_of_unit?_eq_some hu', rename_assume hr h hl, ih (h.assume hl)]

theorem rename_branch (hr : s.InjOn r) {res : Residual α} (h : res.Over s) {l : Literal α}
    (hl : l.atom ∈ s) : (res.rename r).branch (l.rename r) = (res.branch l).rename r := by
  rw [branch, branch, ← rename_propagate hr (h.append_unit hl), rename, rename,
    ClauseSet.rename_append_unit]

end Residual

namespace Dpll

theorem search_rename (b : Branching) (hr : s.InjOn r) {res : Residual α} (h : res.Over s) :
    search b.strategy (res.rename r) = (search b.strategy res).map (Valuation.rename r) := by
  have hisEmpty : ∀ res : Residual α, (res.rename r).clauses.isEmpty = res.clauses.isEmpty :=
    fun res => ClauseSet.isEmpty_rename r res.clauses
  have hhasEmpty : ∀ res : Residual α, (res.rename r).clauses.hasEmpty = res.clauses.hasEmpty :=
    fun res => ClauseSet.hasEmpty_rename r res.clauses
  fun_induction search b.strategy res with
  | case1 res he => exact search_of_isEmpty ((hisEmpty res).trans he)
  | case2 res he hc => exact search_of_hasEmpty (hisEmpty res ▸ he) ((hhasEmpty res).trans hc)
  | case3 res he hc hp =>
      have hpick : b.strategy.pick? (res.rename r).clauses = none :=
        (b.pick?_rename hr h.clauses).trans (congrArg (Option.map _) hp)
      rw [search_eq_bind (hisEmpty res ▸ he) (hhasEmpty res ▸ hc), hpick]
      rfl
  | case4 res he hc l hp ih₁ ih₂ =>
      have hpick : b.strategy.pick? (res.rename r).clauses = some (l.rename r) :=
        (b.pick?_rename hr h.clauses).trans (congrArg (Option.map _) hp)
      obtain ⟨c, hcm, hlc⟩ := b.mem_of_pick? hp
      have hl : l.atom ∈ s := h.clauses c hcm l hlc
      have hneg : l.negate.atom ∈ s := hl
      rw [search_eq_bind (hisEmpty res ▸ he) (hhasEmpty res ▸ hc), hpick, Option.bind_some,
        Residual.rename_branch hr h hl, ← Literal.rename_negate, Residual.rename_branch hr h hneg,
        ih₁ (h.branch hl), ih₂ (h.branch hneg), Option.orElse_eq_or, Option.map_or]

theorem satisfy_rename (b : Branching) {cs : ClauseSet α} (hr : Set.InjOn r {a | a ∈ cs.atoms}) :
    satisfy b.strategy (cs.rename r) = (satisfy b.strategy cs).map (Valuation.rename r) := by
  have hover : Residual.Over {a | a ∈ cs.atoms} (⟨cs.distinct, ∅⟩ : Residual α) :=
    ⟨cs.over_atoms.distinct, fun a ha => absurd ha Std.ExtTreeMap.not_mem_empty⟩
  have hstart : (⟨(cs.rename r).distinct, ∅⟩ : Residual β) =
      Residual.rename r ⟨cs.distinct, ∅⟩ := by
    rw [Residual.rename, ClauseSet.rename_distinct hr cs.over_atoms]
    rfl
  rw [satisfy, hstart, Residual.rename_propagate hr hover, search_rename b hr hover.propagate]
  rfl

end Dpll

/-! ## Numbers and their names -/

theorem AtomTable.encodeValuation_rename {v : Valuation Nat} {max : Nat}
    (hv : ∀ n ∈ v, 1 ≤ n ∧ n ≤ max) : (decimal max).encodeValuation (v.rename toString) = v := by
  refine Std.ExtTreeMap.ext_getElem? fun {n} => ?_
  have hname : (v.rename toString)[toString n]? = v[n]? :=
    Valuation.getElem?_rename injective_toString.injOn (fun a _ => Set.mem_univ a) (Set.mem_univ n)
  rw [getElem?_encodeValuation]
  by_cases hn : 1 ≤ n ∧ n ≤ max
  · rw [name?_decimal hn.1 hn.2, Option.bind_some, hname]
  · have hnone : (decimal max).name? n = none := by
      rw [Option.eq_none_iff_forall_ne_some]
      intro name hsome
      have hsize := exists_name?_iff.mp ⟨name, hsome⟩
      rw [size_decimal] at hsize
      exact hn hsize
    rw [hnone, Option.bind_none, Std.ExtTreeMap.getElem?_eq_none fun hmem => hn (hv n hmem)]

theorem Solution.valuation?_ofOption (o : Option (Valuation α)) : (ofOption o).valuation? = o := by
  cases o <;> rfl

theorem Solver.solveNumbered_eq_solveByName (b : Branching) {cs : ClauseSet Nat}
    (hpos : ∀ c ∈ cs, ∀ l ∈ c, 1 ≤ l.atom) :
    (dpll b).solveNumbered cs = (dpll b).solveByName cs := by
  have hnamed : Dpll.satisfy b.strategy cs.toDecimal.1 =
      (Dpll.satisfy b.strategy cs).map (Valuation.rename toString) :=
    Dpll.satisfy_rename b injective_toString.injOn
  have hback : ∀ v, Dpll.satisfy b.strategy cs = some v →
      cs.toDecimal.2.encodeValuation (v.rename toString) = v := by
    intro v hv
    refine AtomTable.encodeValuation_rename fun n hn => ?_
    obtain ⟨c, hc, l, hl, rfl⟩ := ClauseSet.mem_atoms.mp (Dpll.mem_atoms_of_satisfy hv hn)
    exact ⟨hpos c hc l hl, ClauseSet.atom_le_maxVariable hc hl⟩
  have hvaluation : ((dpll b).solveClauses cs.toDecimal.1).valuation? =
      (Dpll.satisfy b.strategy cs).map (Valuation.rename toString) :=
    (Solution.valuation?_ofOption _).trans hnamed
  have hsame : ((dpll b).solveClauses cs.toDecimal.1).valuation?.map
      cs.toDecimal.2.encodeValuation = Dpll.satisfy b.strategy cs := by
    rw [hvaluation, Option.map_map]
    cases hv : Dpll.satisfy b.strategy cs with
    | none => rfl
    | some v => exact congrArg some (hback v hv)
  exact congrArg Solution.ofOption hsame.symm

/-- The search commutes with every renaming that is one to one on the atoms of the clauses, whatever
it does to their order. So numbered clauses are solved as their decimal names are, to the same
model. -/
theorem search_commutes_with_renaming (b : Branching) :
    (∀ {α β : Type} [Atom α] [Atom β] (r : α → β) (cs : ClauseSet α),
      Set.InjOn r {a | a ∈ cs.atoms} →
        Dpll.satisfy b.strategy (cs.rename r) =
          (Dpll.satisfy b.strategy cs).map (Valuation.rename r)) ∧
    ∀ cs : ClauseSet Nat, (∀ c ∈ cs, ∀ l ∈ c, 1 ≤ l.atom) →
      (Solver.dpll b).solveNumbered cs = (Solver.dpll b).solveByName cs :=
  ⟨fun _ _ hr => Dpll.satisfy_rename b hr, fun _ => Solver.solveNumbered_eq_solveByName b⟩

/-- The names of 2 and 10 are ordered the other way round. -/
theorem search_commutes_with_renaming_on_decimals :
    Dpll.satisfy Branching.twoSmallest.strategy
        (ClauseSet.rename (toString : Nat → String) [[⟨10, false⟩, ⟨2, true⟩], [⟨2, false⟩]]) =
      (Dpll.satisfy Branching.twoSmallest.strategy [[⟨10, false⟩, ⟨2, true⟩], [⟨2, false⟩]]).map
        (Valuation.rename toString) ∧
    (Solver.dpll .mostOccurrences).solveNumbered [[⟨10, false⟩, ⟨2, true⟩], [⟨2, false⟩]] =
      (Solver.dpll .mostOccurrences).solveByName [[⟨10, false⟩, ⟨2, true⟩], [⟨2, false⟩]] :=
  ⟨(search_commutes_with_renaming .twoSmallest).1 toString _ injective_toString.injOn,
    (search_commutes_with_renaming .mostOccurrences).2 _ (by decide)⟩

end PropSat
