import PropSat.Proofs.TruthTable
import Mathlib.Algebra.Group.Nat.Defs
import Mathlib.Data.List.Induction

/-!
# A truth table column by column

A table grows by a column at a time: every row is put twice, with the further name true and then
false. The number of rows doubles, and as the names come in ascending order, the first difference of
two rows stays where it is. So the rows are always in lexicographic order, and none is met twice.
-/

namespace PropSat

namespace Valuation

section

variable {α : Type} [Atom α] {v w : Valuation α} {a : α}

/-! ## A greater atom -/

theorem getElem?_insert_of_lt {b : α} (h : compare b a = .lt) (x : Bool) :
    (v.insert a x)[b]? = v[b]? := by
  have hne : a ≠ b := fun heq => by simp [heq] at h
  rw [Std.ExtTreeMap.getElem?_insert, if_neg (mt Std.LawfulEqOrd.compare_eq_iff_eq.mp hne)]

theorem lexLT_insert (v : Valuation α) (a : α) : LexLT (v.insert a false) (v.insert a true) := by
  refine ⟨a, Std.ExtTreeMap.getElem?_insert_self, Std.ExtTreeMap.getElem?_insert_self, ?_⟩
  intro b hb
  rw [getElem?_insert_of_lt hb, getElem?_insert_of_lt hb]

theorem LexLT.insert (h : v.LexLT w) (hlt : ∀ b ∈ w, compare b a = .lt) (x y : Bool) :
    LexLT (v.insert a x) (w.insert a y) := by
  obtain ⟨b, hv, hw, hbelow⟩ := h
  have hba : compare b a = .lt := hlt b (mem_of_getElem?_eq_some hw)
  refine ⟨b, ?_, ?_, fun c hc => ?_⟩
  · rw [getElem?_insert_of_lt hba, hv]
  · rw [getElem?_insert_of_lt hba, hw]
  · have hca : compare c a = .lt := Std.TransCmp.lt_trans hc hba
    rw [getElem?_insert_of_lt hca, getElem?_insert_of_lt hca, hbelow c hc]

end

/-- Every row twice, with the name true and then false. -/
def addColumn (rows : List (Valuation String)) (name : String) : List (Valuation String) :=
  rows.flatMap fun v => [true, false].map (v.insert name)

variable {name : String} {names : List String} {rows : List (Valuation String)}

theorem map_insert_addColumn {n : String} (h : n ≠ name) (b : Bool) :
    (addColumn rows name).map (·.insert n b) = addColumn (rows.map (·.insert n b)) name := by
  unfold addColumn
  rw [List.map_flatMap, List.flatMap_map]
  simp only [List.map_cons, List.map_nil, insert_comm h]

/-- The table with a further name last is the table with a column added. -/
theorem table_append_singleton (h : name ∉ names) :
    table (names ++ [name]) = addColumn (table names) name := by
  induction names with
  | nil => rfl
  | cons n names ih =>
      obtain ⟨hne, hrest⟩ := not_or.mp (mt List.mem_cons.mpr h)
      rw [List.cons_append, table, ih hrest, map_insert_addColumn (Ne.symm hne),
        map_insert_addColumn (Ne.symm hne)]
      exact List.flatMap_append.symm

/-- Columns may be added in one pass: the rows so far are the table over the names so far. -/
theorem foldl_addColumn {rest : List String} (h : (names ++ rest).Nodup) :
    rest.foldl addColumn (table names) = table (names ++ rest) := by
  induction rest generalizing names with
  | nil => rw [List.foldl_nil, List.append_nil]
  | cons name rest ih =>
      rw [List.append_cons] at h ⊢
      have hname : name ∉ names := by
        have hnew := List.nodup_append.mp (List.nodup_append.mp h).1
        exact fun hmem => hnew.2.2 name hmem name (List.mem_singleton_self name) rfl
      rw [List.foldl_cons, ← table_append_singleton hname, ih h]

/-! ## Order of the rows -/

/-- A column with a greater name keeps the rows in order. -/
theorem pairwise_addColumn (hlt : ∀ v ∈ rows, ∀ a ∈ v, compare a name = .lt)
    (h : rows.Pairwise fun v w => w.LexLT v) :
    (addColumn rows name).Pairwise fun v w => w.LexLT v := by
  unfold addColumn
  rw [List.pairwise_flatMap]
  constructor
  · intro v _
    exact List.pairwise_pair.mpr (lexLT_insert v name)
  · refine h.imp_of_mem fun {v w} hv _ hlex x hx y hy => ?_
    obtain ⟨b, -, rfl⟩ := List.mem_map.mp hx
    obtain ⟨c, -, rfl⟩ := List.mem_map.mp hy
    exact hlex.insert (hlt v hv) c b

theorem pairwise_table (h : names.Pairwise (compare · · = .lt)) :
    (table names).Pairwise fun v w => w.LexLT v := by
  induction names using List.reverseRecOn with
  | nil => exact List.pairwise_singleton _ _
  | append_singleton names name ih =>
      obtain ⟨hnames, -, hlt⟩ := List.pairwise_append.mp h
      have hlast : ∀ n ∈ names, compare n name = .lt :=
        fun n hn => hlt n hn name (List.mem_singleton_self name)
      have hname : name ∉ names := fun hmem => by simpa using hlast name hmem
      rw [table_append_singleton hname]
      refine pairwise_addColumn (fun v hv a ha => hlast a ?_) (ih hnames)
      exact ((mem_table_iff (nodup_of_ascending hnames)).mp hv a).mp ha

theorem length_table (names : List String) : (table names).length = 2 ^ names.length := by
  induction names with
  | nil => rfl
  | cons name names ih =>
      rw [table, List.length_append, List.length_map, List.length_map, ih, List.length_cons,
        Nat.pow_succ]
      omega

end Valuation

/-! ## The table of a set of formulas -/

def Formula.isAtom : Formula → Bool
  | .atom _ => true
  | _ => false

namespace FormulaSet

/-- One element of the set: an atom adds its column, and anything else is passed over. -/
def addFormula (rows : List (Valuation String)) : Formula → List (Valuation String)
  | .atom name => Valuation.addColumn rows name
  | _ => rows

theorem valuations_eq_foldl (fs : FormulaSet) : fs.valuations = fs.toList.foldl addFormula [∅] := by
  calc
    fs.valuations = Valuation.table ([] ++ fs.names) := rfl
    _ = fs.names.foldl Valuation.addColumn (Valuation.table []) :=
      (Valuation.foldl_addColumn (nodup_names fs)).symm
    _ = fs.toList.foldl addFormula [∅] := by
      rw [names, List.foldl_filterMap]
      congr 1
      funext rows f
      cases f <;> rfl

theorem length_names (fs : FormulaSet) : fs.names.length = fs.toList.countP Formula.isAtom := by
  rw [names, List.length_filterMap_eq_countP]
  congr 1
  funext f
  cases f <;> rfl

theorem valuations_congr {fs gs : FormulaSet} (h : ∀ name, .atom name ∈ gs ↔ .atom name ∈ fs) :
    gs.valuations = fs.valuations := by
  have hnames : gs.names = fs.names :=
    eq_of_ascending (ordered_names gs) (ordered_names fs) fun name => by
      rw [mem_names, mem_names, h]
  rw [valuations, hnames, ← valuations]

/-- The table, made in one pass over the set, has `2 ^ k` rows for the `k` atoms of the set. They are
all the valuations of exactly these atoms, each of them once, in lexicographic order with true before
false. What is not an atom has no effect. -/
theorem valuations_enumerate_in_order (fs : FormulaSet) :
    fs.valuations = fs.toList.foldl addFormula [∅] ∧
      fs.valuations.length = 2 ^ fs.toList.countP Formula.isAtom ∧
      fs.valuations.Nodup ∧
      (∀ v, v ∈ fs.valuations ↔ ∀ name, name ∈ v ↔ .atom name ∈ fs) ∧
      (fs.valuations.Pairwise fun v w => w.LexLT v) ∧
      ∀ gs : FormulaSet, (∀ name, .atom name ∈ gs ↔ .atom name ∈ fs) →
        gs.valuations = fs.valuations := by
  have hordered : fs.valuations.Pairwise fun v w => w.LexLT v :=
    Valuation.pairwise_table (ordered_names fs)
  refine ⟨valuations_eq_foldl fs, ?_, ?_, fun v => ?_, hordered, fun gs => valuations_congr⟩
  · rw [← length_names]
    exact Valuation.length_table fs.names
  · exact hordered.imp fun hlt => hlt.ne.symm
  · simp only [← mem_names]
    exact Valuation.mem_table_iff (nodup_names fs)

end FormulaSet

end PropSat
