import PropSat.Dimacs.AtomTable
import PropSat.Proofs.Assignment

/-!
# Look-ups through an atom table

Names and numbers of a table answer to each other, so a valuation carried over to numbers gives each
number the value of its name.
-/

namespace PropSat

/-- A valuation whose atoms are renamed one to one is looked up by the old name of the atom. -/
theorem Valuation.getElem?_ofPairs_filterMap {α β : Type} [Atom α] [Atom β] {r : α → Option β}
    {s : β → Option α} (hrs : ∀ a b, r a = some b ↔ s b = some a) (v : Valuation α) (b : β) :
    (Valuation.ofPairs (v.toList.filterMap fun p => (r p.1).map (·, p.2)))[b]? =
      (s b).bind fun a => v[a]? := by
  have hmem : ∀ c x, (c, x) ∈ v.toList.filterMap (fun p => (r p.1).map (·, p.2)) ↔
      ∃ a, r a = some c ∧ v[a]? = some x := by
    intro c x
    simp only [List.mem_filterMap, Prod.exists, Option.map_eq_some_iff, Prod.mk.injEq,
      Std.ExtTreeMap.mem_toList_iff_getElem?_eq_some]
    constructor
    · intro hex
      rcases hex with ⟨a, y, hy, d, hd, rfl, rfl⟩
      exact ⟨a, hd, hy⟩
    · intro hex
      rcases hex with ⟨a, ha, hx⟩
      exact ⟨a, x, hx, c, ha, rfl, rfl⟩
  cases hv : (s b).bind fun a => v[a]? with
  | some x =>
      obtain ⟨a, ha, hx⟩ := Option.bind_eq_some_iff.mp hv
      refine Std.ExtTreeMap.getElem?_ofList_of_mem Std.ReflCmp.compare_self ?_
        ((hmem b x).mpr ⟨a, (hrs a b).mpr ha, hx⟩)
      refine List.pairwise_filterMap.mpr (Std.ExtTreeMap.distinct_keys_toList.imp ?_)
      intro p q hne c hc d hd hcd
      obtain ⟨i, hi, rfl⟩ := Option.map_eq_some_iff.mp hc
      obtain ⟨j, hj, rfl⟩ := Option.map_eq_some_iff.mp hd
      have hij : i = j := Std.LawfulEqOrd.eq_of_compare hcd
      rw [hrs, hij] at hi
      rw [hrs, hi, Option.some.injEq] at hj
      rw [hj] at hne
      exact hne Std.ReflCmp.compare_self
  | none =>
      refine Std.ExtTreeMap.getElem?_ofList_of_contains_eq_false ?_
      rw [List.contains_eq_mem, decide_eq_false_iff_not, List.mem_map]
      intro hex
      rcases hex with ⟨⟨c, x⟩, hp, rfl⟩
      obtain ⟨a, ha, hx⟩ := (hmem c x).mp hp
      rw [(hrs a c).mp ha, Option.bind_some, hx] at hv
      contradiction

namespace AtomTable

theorem name?_succ (t : AtomTable) (i : Nat) : t.name? (i + 1) = t.names[i]? := by
  rw [name?, if_neg (Nat.succ_ne_zero i), Nat.add_sub_cancel]

theorem number?_eq_some_iff {t : AtomTable} {name : String} {n : Nat} :
    t.number? name = some n ↔ t.name? n = some name := by
  unfold number?
  rw [Option.map_eq_some_iff]
  constructor
  · intro hex
    rcases hex with ⟨i, hi, rfl⟩
    obtain ⟨hlt, hname, -⟩ := List.idxOf?_eq_some_iff.mp hi
    rw [name?_succ, List.getElem?_eq_getElem hlt, hname]
  · intro hn
    cases n with
    | zero => contradiction
    | succ i =>
        rw [name?_succ] at hn
        obtain ⟨hlt, hname⟩ := List.getElem?_eq_some_iff.mp hn
        refine ⟨i, List.idxOf?_eq_some_iff.mpr ⟨hlt, hname, fun j hj hjn => ?_⟩, rfl⟩
        have hji : j = i := (List.getElem_inj t.nodup).mp (hjn.trans hname.symm)
        omega

theorem getElem?_encodeValuation (t : AtomTable) (v : Valuation String) (n : Nat) :
    (t.encodeValuation v)[n]? = (t.name? n).bind fun name => v[name]? :=
  Valuation.getElem?_ofPairs_filterMap (fun _ _ => number?_eq_some_iff) v n

end AtomTable

theorem injective_toString : Function.Injective (toString : Nat → String) :=
  fun _ _ h => Text.repr_injective h

theorem AtomTable.size_decimal (n : Nat) : (decimal n).size = n := by
  unfold decimal size
  rw [List.length_map, List.length_range']

theorem AtomTable.name?_decimal {m n : Nat} (hpos : 1 ≤ n) (hle : n ≤ m) :
    (decimal m).name? n = some (toString n) := by
  obtain ⟨i, rfl⟩ : ∃ i, n = i + 1 := ⟨n - 1, by omega⟩
  rw [name?_succ]
  unfold decimal
  rw [List.getElem?_map, List.getElem?_range' (by omega), Option.map_some, Nat.one_mul,
    Nat.add_comm]

namespace ClauseSet

variable {cs : ClauseSet Nat}

theorem holdsIn_encodeValuation {v : Valuation String} (hpos : ∀ c ∈ cs, ∀ l ∈ c, 1 ≤ l.atom)
    (h : cs.toDecimal.1.HoldsIn v) : cs.HoldsIn (cs.toDecimal.2.encodeValuation v) := by
  intro c hc
  obtain ⟨k, hk, hv⟩ := h (c.map Literal.toDecimal) (List.mem_map_of_mem hc)
  obtain ⟨l, hl, rfl⟩ := List.mem_map.mp hk
  have hname := AtomTable.name?_decimal (hpos c hc l hl) (atom_le_maxVariable hc hl)
  have hget : v[l.toDecimal.atom]? = some l.sign := hv
  refine ⟨l, hl, ?_⟩
  unfold Literal.HoldsIn
  rw [AtomTable.getElem?_encodeValuation]
  exact (congrArg (Option.bind · _) hname).trans hget

/-- Decimal names can be read back, so an assignment to numbers is one to their names. -/
theorem satisfiable_toDecimal (h : cs.Satisfiable) : cs.toDecimal.1.Satisfiable := by
  obtain ⟨σ, hσ⟩ := h
  have hback : ∀ n : Nat, Nat.ofDigitChars 10 (ToString.toString n).toList 0 = n := by
    intro n
    rw [Nat.toString_eq_repr]
    simp
  refine ⟨fun name => σ (Nat.ofDigitChars 10 name.toList 0), fun d hd => ?_⟩
  obtain ⟨c, hc, rfl⟩ := List.mem_map.mp hd
  obtain ⟨l, hl, htrue⟩ := hσ c hc
  exact ⟨l.toDecimal, List.mem_map_of_mem hl, (congrArg σ (hback l.atom)).trans htrue⟩

theorem satisfiable_toDecimal_iff (hpos : ∀ c ∈ cs, ∀ l ∈ c, 1 ≤ l.atom) :
    cs.toDecimal.1.Satisfiable ↔ cs.Satisfiable := by
  constructor
  · intro h
    obtain ⟨v, hv⟩ := satisfiable_iff_holdsIn.mp h
    exact (holdsIn_encodeValuation hpos hv).satisfiable
  · exact satisfiable_toDecimal

end ClauseSet

end PropSat
